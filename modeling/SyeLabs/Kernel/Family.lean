import SyeLabs.Kernel.Reaping

/-!
# How long a PCB stays in the list

`do_waitpid` keeps the PCB of a process that has children, so the parent of a PCB is always in
the list. But nothing removes a PCB that was kept when the last of its children is reaped.
-/

namespace SyeLabs.Kernel
open ProcTable

/-! ## Families -/

/-- The pids of the PCBs, each with that of its parent. -/
abbrev Kin := Set (Nat × Option Nat)

/-- Every parent is there. -/
def ParentsPresent (K : Kin) : Prop := ∀ i j, (i, some j) ∈ K → ∃ p, (j, p) ∈ K

/-- Who has been reaped is there only for a child. -/
def KeptForChild (K : Kin) (reaped : List Nat) : Prop :=
  ∀ i p, (i, p) ∈ K → i ∈ reaped → ∃ k, (k, some i) ∈ K

/-- The child is not the only one of a parent that has been reaped. -/
def NotLastChild (K : Kin) (reaped : List Nat) (i : Nat) (parent : Option Nat) : Prop :=
  ∀ j, parent = some j → j ∈ reaped → ∃ k, k ≠ i ∧ (k, some j) ∈ K

section
variable {K : Kin} {reaped : List Nat} {i j : Nat} {p : Option Nat}

theorem ParentsPresent.birth (h : ParentsPresent K) (hj : (j, p) ∈ K) :
    ParentsPresent (insert (i, some j) K) := by
  intro a b hab
  rcases hab with hab | hab
  · obtain ⟨rfl, hb⟩ := Prod.mk.inj hab
    obtain rfl := Option.some.inj hb
    exact ⟨p, .inr hj⟩
  · obtain ⟨q, hq⟩ := h a b hab
    exact ⟨q, .inr hq⟩

theorem KeptForChild.birth (h : KeptForChild K reaped) (hi : i ∉ reaped) :
    KeptForChild (insert (i, some j) K) reaped := by
  intro a q ha har
  rcases ha with ha | ha
  · obtain ⟨rfl, -⟩ := Prod.mk.inj ha
    exact absurd har hi
  · obtain ⟨k, hk⟩ := h a q ha har
    exact ⟨k, .inr hk⟩

theorem KeptForChild.reap (h : KeptForChild K reaped) (hi : ∃ k, (k, some i) ∈ K) :
    KeptForChild K (reaped ++ [i]) := by
  intro a q ha har
  rcases List.mem_append.mp har with har | har
  · exact h a q ha har
  · exact List.mem_singleton.mp har ▸ hi

/-- Somebody without children leaves. -/
theorem ParentsPresent.remove (h : ParentsPresent K) (hi : ¬∃ k, (k, some i) ∈ K) :
    ParentsPresent {x ∈ K | x.1 ≠ i} := by
  rintro a b ⟨hab, -⟩
  obtain ⟨q, hq⟩ := h a b hab
  refine ⟨q, hq, ?_⟩
  rintro rfl
  exact hi ⟨a, hab⟩

theorem keptForChild_remove_iff (hparents : ParentsPresent K) (h : KeptForChild K reaped)
    (hunique : ∀ q, (i, q) ∈ K → q = p) (hi : (i, p) ∈ K) (hchild : ¬∃ k, (k, some i) ∈ K) :
    KeptForChild {x ∈ K | x.1 ≠ i} (reaped ++ [i]) ↔ NotLastChild K reaped i p := by
  constructor
  · rintro h' j rfl hj
    obtain ⟨q, hq⟩ := hparents i j hi
    have hji : j ≠ i := by
      rintro rfl
      exact hchild ⟨j, hi⟩
    obtain ⟨k, hk, hki⟩ := h' j q ⟨hq, hji⟩ (List.mem_append_left _ hj)
    exact ⟨k, hki, hk⟩
  · rintro h' a q ⟨ha, hai⟩ har
    rcases List.mem_append.mp har with har | har
    · obtain ⟨k, hk⟩ := h a q ha har
      by_cases hki : k = i
      · rw [hki] at hk
        obtain ⟨l, hli, hl⟩ := h' a (hunique _ hk).symm har
        exact ⟨l, hl, hli⟩
      · exact ⟨k, hk, hki⟩
    · exact absurd (List.mem_singleton.mp har) hai

end

/-! ## What a call does to the family -/

def System.kin (s : System) : Kin := {x | ∃ p ∈ s.procs.proc_list, x = (p.pid, p.parent)}

/-- The process that a call of `do_waitpid` reaps: its child, if the thread of that has ended. -/
def System.reaps (s : System) : Call → Option Pcb
  | .waitpid _ pid _ nohang => (s.target pid).filter fun child =>
      !(nohang && child.state ≠ .ZOMBIE) && child.main_thread ≠ some { finished := false }
  | .resume caller => do
    let w ← s.waits.find? fun w => w.caller = caller
    (s.procs.find_proc_by_pid w.child).filter fun child =>
      child.main_thread ≠ some { finished := false }
  | _ => none

section
variable {s s' : System} {child : Pcb} {pid : Nat} {f : Pcb → Pcb} {c : Call} {w : Wait}

theorem System.mem_kin {p : Pcb} (hp : p ∈ s.procs.proc_list) : (p.pid, p.parent) ∈ s.kin :=
  ⟨p, hp, rfl⟩

theorem Invariant.kin_unique (H : Invariant s) (hc : child ∈ s.procs.proc_list) {q : Option Nat}
    (hq : (child.pid, q) ∈ s.kin) : q = child.parent := by
  obtain ⟨p, hp, heq⟩ := hq
  obtain ⟨hpid, rfl⟩ := Prod.mk.inj heq
  rw [H.eq_of_pid hc hp hpid]

/-- An assignment that keeps the pid and the parent. -/
theorem kin_modify (hpid : ∀ q, (f q).pid = q.pid) (hparent : ∀ q, (f q).parent = q.parent) :
    ({ s with procs := s.procs.modify pid f } : System).kin = s.kin := by
  ext x
  constructor
  · rintro ⟨p, hp, rfl⟩
    obtain ⟨q, hq, ⟨-, rfl⟩ | ⟨-, rfl⟩⟩ := mem_modify.mp hp
    · exact ⟨q, hq, by rw [hpid, hparent]⟩
    · exact ⟨p, hq, rfl⟩
  · rintro ⟨q, hq, rfl⟩
    by_cases h : q.pid = pid
    · exact ⟨f q, mem_modify.mpr ⟨q, hq, .inl ⟨h, rfl⟩⟩, by rw [hpid, hparent]⟩
    · exact ⟨q, mem_modify.mpr ⟨q, hq, .inr ⟨h, rfl⟩⟩, rfl⟩

theorem kin_remove (pid : Nat) (hnodup : (s.procs.proc_list.map Pcb.pid).Nodup) :
    ({ s with procs := s.procs.remove_proc pid } : System).kin = {x ∈ s.kin | x.1 ≠ pid} := by
  ext x
  constructor
  · rintro ⟨p, hp, rfl⟩
    refine ⟨⟨p, remove_proc_sublist.subset hp, rfl⟩, ?_⟩
    rintro rfl
    have herase : ((s.procs.proc_list.map Pcb.pid).erase p.pid) =
        (s.procs.remove_proc p.pid).proc_list.map Pcb.pid := by
      rw [remove_proc, List.erase_eq_eraseP, List.eraseP_map]
      congr 2
      funext q
      exact (beq_eq_decide ..).trans (decide_eq_decide.mpr eq_comm)
    exact hnodup.not_mem_erase (herase ▸ List.mem_map_of_mem hp)
  · rintro ⟨⟨p, hp, rfl⟩, hne⟩
    refine ⟨p, (List.mem_eraseP_of_neg ?_).mpr hp, rfl⟩
    simpa using hne

theorem find_proc_by_parent_isNone_iff :
    (s.procs.find_proc_by_parent pid).isNone ↔ ¬∃ k, (k, some pid) ∈ s.kin := by
  rw [find_proc_by_parent, Option.isNone_iff_eq_none, List.find?_eq_none]
  constructor
  · rintro h ⟨k, p, hp, heq⟩
    exact h p hp (by simpa using (Prod.mk.inj heq).2.symm)
  · intro h p hp hparent
    exact h ⟨p.pid, p, hp, by rw [of_decide_eq_true hparent]⟩

theorem kin_thread_join (s : System) (child : Pcb) : (thread_join s child).kin = s.kin :=
  kin_modify (s := s) (fun _ => rfl) fun _ => rfl

/-- The end of a call on a zombie. -/
theorem kin_leave (hnodup : (s.procs.proc_list.map Pcb.pid).Nodup) (hz : child.state = .ZOMBIE)
    (htrace : child.ptrace_pending_req = .NO_REQUEST) (wstatus flags : Bool) :
    (do_waitpid_leave (thread_join s child) child wstatus flags).2.kin =
      if (s.procs.find_proc_by_parent child.pid).isNone then {x ∈ s.kin | x.1 ≠ child.pid}
      else s.kin := by
  have hjoin : ((thread_join s child).procs.find_proc_by_parent child.pid).isNone =
      (s.procs.find_proc_by_parent child.pid).isNone := by
    rw [Bool.eq_iff_iff, find_proc_by_parent_isNone_iff, find_proc_by_parent_isNone_iff,
      kin_thread_join]
  simp only [do_waitpid_leave, hz, htrace, decide_true, Bool.and_self, if_true]
  by_cases h : (s.procs.find_proc_by_parent child.pid).isNone
  · have hremove := kin_remove (s := thread_join s child) child.pid
      ((thread_join_pids s child).symm ▸ hnodup)
    rw [if_pos h, ← kin_thread_join s child, ← hremove]
    simp [System.kin, clean_proc, hjoin, h]
  · rw [if_neg h, ← kin_thread_join s child]
    simp [System.kin, clean_proc, hjoin, h]

theorem reaped_leave (hz : child.state = .ZOMBIE)
    (htrace : child.ptrace_pending_req = .NO_REQUEST) (wstatus flags : Bool) :
    (do_waitpid_leave (thread_join s child) child wstatus flags).2.reaped =
      s.reaped ++ [child.pid] := by
  simp [do_waitpid_leave, clean_proc, System.reaped, hz, htrace]

/-- What a step does to the family: nothing, or a birth, or it reaps a process and removes the
PCB if that has no children. -/
inductive FamilyStep (s : System) (c : Call) (s' : System) : Prop where
  | same (hreaps : s.reaps c = none) (hkin : s'.kin = s.kin) (hreaped : s'.reaped = s.reaped)
  | birth (parent : Pcb) (hmem : parent ∈ s.procs.proc_list) (hreaps : s.reaps c = none)
    (hkin : s'.kin = insert (s.procs.pid_current, some parent.pid) s.kin)
    (hreaped : s'.reaped = s.reaped)
  | reap (child : Pcb) (hmem : child ∈ s.procs.proc_list) (hreaps : s.reaps c = some child)
    (hkin : s'.kin = if (s.procs.find_proc_by_parent child.pid).isNone then
      {x ∈ s.kin | x.1 ≠ child.pid} else s.kin)
    (hreaped : s'.reaped = s.reaped ++ [child.pid])

theorem kin_fork {parent : Pcb} {pgtable : Word} {pages : List Word}
    (hfresh : ∀ p ∈ s.procs.proc_list, p.pid < s.procs.pid_current)
    (h : do_fork s parent pgtable pages = some s') :
    s'.kin = insert (s.procs.pid_current, some parent.pid) s.kin ∧ s'.reaped = s.reaped := by
  simp only [do_fork, new_process, Option.bind_eq_bind, Option.bind_eq_some_iff, Option.pure_def,
    Option.some.injEq] at h
  obtain ⟨name, -, rfl⟩ := h
  rw [modify_append fun q hq => ne_of_lt (hfresh q hq)]
  refine ⟨?_, rfl⟩
  ext x
  simp [System.kin, Pcb.start, Pcb.inherit, or_comm]

variable {caller : Nat} {i : Int} {wstatus nohang : Bool}

theorem Invariant.family_waitpid (H : Invariant s)
    (hc : Careful s (.waitpid caller i wstatus nohang)) :
    FamilyStep s (.waitpid caller i wstatus nohang) (do_waitpid s caller i wstatus nohang).2 := by
  cases ht : s.target i with
  | none =>
    obtain ⟨r, b, hr, -⟩ := do_waitpid_of_none caller wstatus nohang ht
    rw [hr]
    exact .same (by simp [System.reaps, ht]) rfl rfl
  | some child =>
    have hmem := System.target_mem ht
    have htrace := (H.pcbs child hmem).untraced
    by_cases hn : nohang = true ∧ child.state ≠ .ZOMBIE
    · obtain ⟨rfl, hz⟩ := hn
      rw [do_waitpid_of_nohang caller wstatus ht hz]
      exact .same (by simp [System.reaps, ht, hz]) rfl rfl
    · obtain ⟨hwait, hthread, -⟩ := (hc child ht).resolve_left hn
      have hj := do_waitpid_child_eq_joins { s with irqs := false } htrace hwait
        fun h => not_not.mp fun hz => hn ⟨h, hz⟩
      by_cases hrun : child.main_thread = some { finished := false }
      · rw [do_waitpid_of_running caller wstatus ht hj hrun]
        exact .same (by simp [System.reaps, ht, hrun]) rfl rfl
      · have hz := H.finished hmem hthread hrun
        rw [do_waitpid_of_finished caller wstatus ht hj hrun]
        exact .reap child hmem (by simp [System.reaps, ht, hz, hrun])
          (kin_leave H.nodup hz htrace wstatus s.irqs) (reaped_leave hz htrace wstatus s.irqs)

theorem Invariant.family_resume (H : Invariant s)
    (hfind : s.waits.find? (fun w => w.caller = caller) = some w)
    (h : do_waitpid_resume s w = some (r, s')) : FamilyStep s (.resume caller) s' := by
  have hw := List.mem_of_find?_eq_some hfind
  simp only [do_waitpid_resume, Option.bind_eq_bind, Option.bind_eq_some_iff,
    Option.ite_none_left_eq_some, Option.pure_def, Option.some.injEq] at h
  obtain ⟨child, hchild, hrun, h⟩ := h
  obtain ⟨hmem, hpid⟩ := find_proc_by_pid_eq_some hchild
  obtain ⟨q, hq, hqw, hthread⟩ := H.waits w hw
  cases H.eq_of_pid hq hmem (hqw.trans (by exact_mod_cast hpid.symm))
  have hz := H.finished hmem hthread hrun
  have htrace := (H.pcbs child hmem).untraced
  obtain rfl : (do_waitpid_leave (thread_join _ child) child w.wstatus w.flags).2 = s' :=
    congrArg Prod.snd h
  exact .reap child hmem (by simp [System.reaps, hfind, hchild, hrun])
    (kin_leave (s := { s with waits := s.waits.erase w, irqs := false }) H.nodup hz htrace
      w.wstatus w.flags)
    (reaped_leave hz htrace w.wstatus w.flags)

theorem Invariant.familyStep (H : Invariant s) (hc : Careful s c)
    (h : Kernel.step s c = some s') :
    FamilyStep s c s' := by
  cases c with
  | fork caller pgtable pages =>
    obtain ⟨parent, hparent, h⟩ := Option.bind_eq_some_iff.mp h
    obtain ⟨hkin, hreaped⟩ := kin_fork H.fresh h
    exact .birth parent (System.caller_eq_some hparent).1 rfl hkin hreaped
  | exit caller exit_status =>
    obtain ⟨pcb, hpcb, h⟩ := Option.bind_eq_some_iff.mp h
    simp only [do_exit, Option.ite_none_left_eq_some, Option.some.injEq] at h
    obtain ⟨-, rfl⟩ := h
    exact .same rfl (kin_modify (fun _ => rfl) fun _ => rfl) rfl
  | waitpid caller pid wstatus nohang =>
    obtain ⟨-, -, h⟩ := Option.bind_eq_some_iff.mp h
    cases h
    exact H.family_waitpid hc
  | resume caller =>
    obtain ⟨w, hw, h⟩ := Option.bind_eq_some_iff.mp h
    obtain ⟨⟨r, t⟩, hr, h⟩ := Option.bind_eq_some_iff.mp h
    cases h
    exact H.family_resume hw hr
  | schedule pid state =>
    obtain ⟨pcb, -, h⟩ := Option.bind_eq_some_iff.mp h
    simp only [Option.pure_def, Option.ite_none_left_eq_some, Option.some.injEq] at h
    obtain ⟨-, rfl⟩ := h
    exact .same rfl (kin_modify (fun _ => rfl) fun _ => rfl) rfl

/-! ## What every step keeps -/

/-- The call does not remove the last child of a process that has been reaped. -/
def SparesLastChild (s : System) (c : Call) : Prop :=
  ∀ child, s.reaps c = some child → s.procs.find_proc_by_parent child.pid = none →
    NotLastChild s.kin s.reaped child.pid child.parent

/-- Nobody is removed while it is the parent of somebody. -/
def RemovesChildless (K K' : Kin) : Prop :=
  ∀ i p, (i, p) ∈ K → (i, p) ∉ K' → ¬∃ k, (k, some i) ∈ K

theorem FamilyStep.parentsPresent (h : FamilyStep s c s') (hparents : ParentsPresent s.kin) :
    ParentsPresent s'.kin := by
  cases h with
  | same hreaps hkin hreaped => exact hkin ▸ hparents
  | birth parent hmem hreaps hkin hreaped => exact hkin ▸ hparents.birth (System.mem_kin hmem)
  | reap child hmem hreaps hkin hreaped =>
    rw [hkin]
    split_ifs with h
    · exact hparents.remove (find_proc_by_parent_isNone_iff.mp h)
    · exact hparents

theorem FamilyStep.removesChildless (h : FamilyStep s c s') : RemovesChildless s.kin s'.kin := by
  intro i p hi hi'
  cases h with
  | same hreaps hkin hreaped => exact absurd (hkin ▸ hi) hi'
  | birth parent hmem hreaps hkin hreaped => exact absurd (hkin ▸ .inr hi) hi'
  | reap child hmem hreaps hkin hreaped =>
    rw [hkin] at hi'
    split_ifs at hi' with h
    · obtain rfl : i = child.pid := not_not.mp fun hne => hi' ⟨hi, hne⟩
      exact find_proc_by_parent_isNone_iff.mp h
    · exact absurd hi hi'

theorem FamilyStep.keptForChild_iff (H : Invariant s) (h : FamilyStep s c s')
    (hparents : ParentsPresent s.kin) (hkept : KeptForChild s.kin s.reaped) :
    KeptForChild s'.kin s'.reaped ↔ SparesLastChild s c := by
  cases h with
  | same hreaps hkin hreaped => simpa [SparesLastChild, hreaps, hkin, hreaped] using hkept
  | birth parent hmem hreaps hkin hreaped =>
    have hnew : s.procs.pid_current ∉ s.reaped := fun h => lt_irrefl _ (H.past _ h)
    simpa [SparesLastChild, hreaps, hkin, hreaped] using hkept.birth hnew
  | reap child hmem hreaps hkin hreaped =>
    rw [hkin, hreaped]
    by_cases h : (s.procs.find_proc_by_parent child.pid).isNone
    · have hchild := find_proc_by_parent_isNone_iff.mp h
      rw [if_pos h, keptForChild_remove_iff hparents hkept (fun q => H.kin_unique hmem)
        (System.mem_kin hmem) hchild]
      simp [SparesLastChild, hreaps, Option.isNone_iff_eq_none.mp h]
    · have hchild := not_not.mp (find_proc_by_parent_isNone_iff.not.mp h)
      have hspares : SparesLastChild s c := by
        intro q hq hnone
        obtain rfl := Option.some.inj (hreaps.symm.trans hq)
        exact absurd (Option.isNone_iff_eq_none.mpr hnone) h
      rw [if_neg h]
      exact iff_of_true (hkept.reap hchild) hspares

/-! ## Runs -/

/-- A relation that holds of every step of a run. -/
def EveryStep (R : System → Call → System → Prop) (s : System) : List Call → Prop
  | [] => True
  | c :: calls => ∀ s', step s c = some s' → R s c s' ∧ EveryStep R s' calls

theorem Invariant.everyStep_parents {calls : List Call} (H : Invariant s)
    (hc : CarefulRun s calls) (hparents : ParentsPresent s.kin) :
    EveryStep (fun s _ s' => ParentsPresent s'.kin ∧ RemovesChildless s.kin s'.kin) s calls := by
  induction calls generalizing s with
  | nil => trivial
  | cons c calls ih =>
    intro s' h
    have hf := H.familyStep hc.1 h
    have hparents' := hf.parentsPresent hparents
    exact ⟨⟨hparents', hf.removesChildless⟩, ih (H.step hc.1 h) (hc.2 s' h) hparents'⟩

theorem Invariant.everyStep_kept_iff {calls : List Call} (H : Invariant s)
    (hc : CarefulRun s calls) (hparents : ParentsPresent s.kin)
    (hkept : KeptForChild s.kin s.reaped) :
    EveryStep (fun _ _ s' => KeptForChild s'.kin s'.reaped) s calls ↔
      EveryStep (fun s c _ => SparesLastChild s c) s calls := by
  induction calls generalizing s with
  | nil => exact Iff.rfl
  | cons c calls ih =>
    refine forall_congr' fun s' => forall_congr' fun h => ?_
    have hf := H.familyStep hc.1 h
    refine (and_congr_left' (hf.keptForChild_iff H hparents hkept)).trans
      (and_congr_right fun hspares => ?_)
    exact ih (H.step hc.1 h) (hc.2 s' h) (hf.parentsPresent hparents)
      ((hf.keptForChild_iff H hparents hkept).mpr hspares)

end

/-- In a run whose calls of `do_waitpid` are all careful, parents are never removed before their
children; and who has been reaped and has no children left is out of the list, in every state,
exactly if no call reaps the last child of a process that has been reaped itself. -/
theorem run_family (root : Pcb) (hroot : IsRoot root) (calls : List Call)
    (hc : CarefulRun (boot root) calls) :
    EveryStep (fun s _ s' => ParentsPresent s'.kin ∧ RemovesChildless s.kin s'.kin) (boot root)
        calls ∧
      (EveryStep (fun _ _ s' => KeptForChild s'.kin s'.reaped) (boot root) calls ↔
        EveryStep (fun s c _ => SparesLastChild s c) (boot root) calls) := by
  have H := Invariant.boot hroot
  have hparents : ParentsPresent (boot root).kin := by
    rintro i j ⟨p, hp, heq⟩
    cases List.mem_singleton.mp hp
    exact nomatch (Prod.mk.inj heq).2.trans hroot.parent
  exact ⟨H.everyStep_parents hc hparents,
    H.everyStep_kept_iff hc hparents fun i p _ hi => nomatch hi⟩

/-- The root process forks and reaps a process, which has forked one itself. -/
def grandchild : List Call :=
  [.fork 1 0 [], .fork 2 0 [], .exit 2 0, .waitpid 1 2 false false, .exit 3 0,
    .waitpid 1 (-1) false false]

theorem carefulRun_grandchild : CarefulRun (boot rootProc) grandchild := by
  refine ⟨trivial, fun s1 h1 => ⟨trivial, fun s2 h2 => ⟨trivial, fun s3 h3 =>
    ⟨fun child h => .inr ?_, fun s4 h4 => ⟨trivial, fun s5 h5 => ⟨fun child h => .inr ?_,
      fun s6 h6 => trivial⟩⟩⟩⟩⟩⟩
  all_goals
    obtain rfl := Option.some.inj h1
    obtain rfl := Option.some.inj h2
    obtain rfl := Option.some.inj h3
  · obtain rfl := Option.some.inj h
    decide
  · obtain rfl := Option.some.inj h4
    obtain rfl := Option.some.inj h5
    obtain rfl := Option.some.inj h
    decide

theorem run_family_grandchild :
    EveryStep (fun s _ s' => ParentsPresent s'.kin ∧ RemovesChildless s.kin s'.kin)
      (boot rootProc) grandchild :=
  (run_family rootProc ⟨rfl, rfl, rfl, rfl⟩ grandchild carefulRun_grandchild).1

/-- The process in the middle stays when its child is gone. -/
theorem not_keptForChild_grandchild :
    ∃ s, run (boot rootProc) grandchild = some s ∧ CarefulRun (boot rootProc) grandchild ∧
      ¬KeptForChild s.kin s.reaped := by
  refine ⟨_, rfl, carefulRun_grandchild, fun h => ?_⟩
  obtain ⟨k, p, hp, heq⟩ :=
    h 2 (some 1) ⟨_, List.mem_cons_of_mem _ (List.mem_singleton_self _), rfl⟩ (by decide)
  rcases List.mem_cons.mp hp with rfl | hp
  · exact nomatch (Prod.mk.inj heq).2
  · cases List.mem_singleton.mp hp
    exact absurd (Option.some.inj (Prod.mk.inj heq).2) (by decide)

end SyeLabs.Kernel
