import SyeLabs.Theory.Mailbox
import SyeLabs.Kernel.Queries
import SyeLabs.Kernel.Reaping

/-!
# The exit status on its way to the parent

`do_exit` leaves the status in the PCB of the child, and the call of `do_waitpid` that answers with
the pid of the child takes it from there: at once, or after it has been blocked. To the processes
the PCBs are slots that are filled once and emptied once.
-/

namespace SyeLabs.Kernel
open ProcTable

variable {s s' : System} {p child : Pcb} {n : Nat} {c : Call} {calls : List Call}

/-! ## Events -/

/-- What a parent is told of an exit status: its low byte, as the second byte of the word. -/
def wstatusOf (exit_status : Word) : Word := (exit_status &&& 0xff) <<< 8

/-- What a call of `do_waitpid` answers in this step. -/
def answer (s : System) : Call → Option Ret
  | .waitpid caller pid wstatus nohang => (do_waitpid s caller pid wstatus nohang).1
  | .resume caller => (s.waits.find? fun w => w.caller = caller).bind fun w =>
    (do_waitpid_resume s w).map Prod.fst
  | _ => none

/-- An answer with a pid; the others are -1 and 0. -/
def Ret.event (r : Ret) : Option (SlotEvent Nat Word) :=
  if 0 < r.value then some (.take r.value.toNat r.wstatus) else none

/-- An exit puts a status down, and an answer with a pid takes one. -/
def event (s : System) : Call → Option (SlotEvent Nat Word)
  | .exit caller exit_status => some (.put caller (wstatusOf exit_status))
  | c => (answer s c).bind Ret.event

def events (s : System) : List Call → List (SlotEvent Nat Word)
  | [] => []
  | c :: calls => (event s c).toList ++ (step s c).elim [] fun s' => events s' calls

/-! ## PCBs as slots -/

def Pcb.slot (p : Pcb) : Slot Word := if p.state = .ZOMBIE then .full (exitStatus p) else .empty

def System.slot (s : System) (n : Nat) : Slot Word :=
  if n ∈ s.reaped then .taken else (s.procs.find_proc_by_pid n).elim .empty Pcb.slot

theorem System.slot_of_mem (P : s.procs.PidsOk) (hp : p ∈ s.procs.proc_list)
    (hr : p.pid ∉ s.reaped) : s.slot p.pid = p.slot := by
  rw [slot, if_neg hr, P.find_proc_by_pid hp]
  rfl

theorem System.slot_of_reaped (hr : n ∈ s.reaped) : s.slot n = .taken := if_pos hr

/-- A slot that a step has nothing to do with. -/
theorem System.slot_congr (P : s.procs.PidsOk) (P' : s'.procs.PidsOk)
    (hr : n ∈ s'.reaped ↔ n ∈ s.reaped)
    (hold : ∀ p ∈ s.procs.proc_list, p.pid = n →
      ∃ q ∈ s'.procs.proc_list, q.pid = n ∧ q.slot = p.slot)
    (hnew : ∀ q ∈ s'.procs.proc_list, q.pid = n →
      q.slot = .empty ∨ ∃ p ∈ s.procs.proc_list, p.pid = n) : s'.slot n = s.slot n := by
  by_cases hn : n ∈ s.reaped
  · rw [slot_of_reaped hn, slot_of_reaped (hr.mpr hn)]
  · cases hp : s.procs.find_proc_by_pid n with
    | some p =>
      obtain ⟨hmem, hpid⟩ := find_proc_by_pid_eq_some hp
      obtain rfl : p.pid = n := by exact_mod_cast hpid
      obtain ⟨q, hq, hqn, hslot⟩ := hold p hmem rfl
      rw [slot_of_mem P hmem hn, ← hqn, slot_of_mem P' hq (by rwa [hqn, hr]), hslot]
    | none =>
      rw [slot, slot, if_neg hn, if_neg (mt hr.mp hn), hp]
      cases hq : s'.procs.find_proc_by_pid n with
      | none => rfl
      | some q =>
        obtain ⟨hmem, hpid⟩ := find_proc_by_pid_eq_some hq
        rcases hnew q hmem (by exact_mod_cast hpid) with hempty | ⟨p, hpmem, rfl⟩
        · exact hempty
        · rw [P.find_proc_by_pid hpmem] at hp
          exact absurd hp nofun

theorem Invariant.slot_running (H : Invariant s) (hp : p ∈ s.procs.proc_list)
    (hz : p.state ≠ .ZOMBIE) : s.slot p.pid = .empty := by
  have hok := H.pcbs p hp
  have hr : p.pid ∉ s.reaped := fun h => hz (hok.zombie (hok.reaped_iff.mp h))
  rw [System.slot_of_mem H.pids hp hr, Pcb.slot, if_neg hz]

theorem Invariant.slot_zombie (H : Invariant s) (hp : p ∈ s.procs.proc_list)
    (hz : p.state = .ZOMBIE) (hthread : p.main_thread ≠ none) :
    s.slot p.pid = .full (exitStatus p) := by
  have hr : p.pid ∉ s.reaped := fun h => hthread ((H.pcbs p hp).reaped_iff.mp h)
  rw [System.slot_of_mem H.pids hp hr, Pcb.slot, if_pos hz]

/-! ## One step -/

/-- No process has the pid 0. -/
def System.Positive (s : System) : Prop := ∀ i ∈ s.procs.proc_list.map Pcb.pid, 0 < i

theorem System.Positive.mono (h : s.Positive)
    (hsub : s'.procs.proc_list.map Pcb.pid ⊆ s.procs.proc_list.map Pcb.pid) : s'.Positive :=
  fun i hi => h i (hsub hi)

theorem System.Positive.modify (h : s.Positive) {f : Pcb → Pcb} (hpid : ∀ q, (f q).pid = q.pid)
    (pid : Nat) : System.Positive { s with procs := s.procs.modify pid f } := by
  intro i hi
  rw [pids_modify hpid] at hi
  exact h i hi

/-- The assignments of a step to one PCB, as far as other slots go. -/
theorem slot_modify (P : s.procs.PidsOk) {f : Pcb → Pcb} {pid : Nat} (hpid : ∀ q, (f q).pid = q.pid)
    (hslot : ∀ q ∈ s.procs.proc_list, q.pid = pid → n = pid → (f q).slot = q.slot) :
    System.slot { s with procs := s.procs.modify pid f } n = s.slot n := by
  refine System.slot_congr P (P.modify hpid) Iff.rfl (fun p hp hpn => ?_) fun q hq hqn => ?_
  · by_cases h : p.pid = pid
    · exact ⟨f p, mem_modify.mpr ⟨p, hp, .inl ⟨h, rfl⟩⟩, (hpid p).trans hpn,
        hslot p hp h (hpn.symm.trans h)⟩
    · exact ⟨p, mem_modify.mpr ⟨p, hp, .inr ⟨h, rfl⟩⟩, hpn, rfl⟩
  · obtain ⟨p, hp, ⟨-, rfl⟩ | ⟨-, rfl⟩⟩ := mem_modify.mp hq
    · exact .inr ⟨p, hp, (hpid p).symm.trans hqn⟩
    · exact .inr ⟨_, hp, hqn⟩

theorem Invariant.slot_exit (H : Invariant s) (hp : p ∈ s.procs.proc_list)
    (hz : p.state ≠ .ZOMBIE) {exit_status : Word} (h : do_exit s p exit_status = some s') :
    Mailbox.Step s.slot (.put p.pid (wstatusOf exit_status)) s'.slot := by
  have H' := H.exit h
  simp only [do_exit, Option.ite_none_left_eq_some, Option.some.injEq] at h
  obtain ⟨-, rfl⟩ := h
  refine .of_put (H.slot_running hp hz) ?_ fun n hn => slot_modify H.pids (fun _ => rfl)
    fun _ _ _ h => absurd h hn
  have hok := H.pcbs p hp
  have hthread : p.main_thread ≠ none := fun h => hz (hok.zombie h)
  have hmem : p.exit exit_status ∈
      (s.procs.modify p.pid fun pcb => pcb.exit exit_status).proc_list :=
    mem_modify.mpr ⟨p, hp, .inl ⟨rfl, rfl⟩⟩
  exact H'.slot_zombie hmem rfl (by simpa [Pcb.exit] using hthread)

theorem Invariant.slot_fork (H : Invariant s) {pgtable : Word} {pages : List Word}
    (h : do_fork s p pgtable pages = some s') :
    s'.slot = s.slot ∧ s'.procs.proc_list.map Pcb.pid =
      s.procs.proc_list.map Pcb.pid ++ [s.procs.pid_current] := by
  have H' := H.fork h
  simp only [do_fork, new_process, Option.bind_eq_bind, Option.bind_eq_some_iff, Option.pure_def,
    Option.some.injEq] at h
  obtain ⟨name, -, rfl⟩ := h
  have hP' := H'.pids
  rw [modify_append fun q hq => ne_of_lt (H.fresh q hq)] at hP' ⊢
  refine ⟨funext fun n => System.slot_congr H.pids hP' Iff.rfl (fun q hq hqn => ?_)
    fun q hq hqn => ?_, by rw [List.map_append]; rfl⟩
  · exact ⟨q, List.mem_append_left _ hq, hqn, rfl⟩
  · rcases List.mem_append.mp hq with hq | hq
    · exact .inr ⟨q, hq, hqn⟩
    · left
      rw [List.mem_singleton.mp hq]
      rfl

/-- The end of a call on a zombie. -/
theorem Invariant.slot_leave (H : Invariant s) (hc : child ∈ s.procs.proc_list)
    (hz : child.state = .ZOMBIE) (hthread : child.main_thread ≠ none)
    (hw : ∀ w ∈ s.waits, w.child ≠ child.pid) {wstatus flags : Bool} {r : Ret}
    (h : do_waitpid_leave (thread_join s child) child wstatus flags = (r, s')) :
    r = { value := child.pid, wstatus := if wstatus then some (exitStatus child) else none } ∧
      Mailbox.Step s.slot (.take child.pid r.wstatus) s'.slot ∧
      s'.procs.proc_list.map Pcb.pid ⊆ s.procs.proc_list.map Pcb.pid := by
  have H' := H.leave hc hz hthread hw wstatus flags
  rw [h] at H'
  have htrace := (H.pcbs child hc).untraced
  simp only [do_waitpid_leave, hz, htrace, decide_true, Bool.and_self, if_true,
    Prod.mk.injEq] at h
  obtain ⟨rfl, rfl⟩ := h
  have hsub : ∀ q ∈ (clean_proc (thread_join s child) child).procs.proc_list,
      q ∈ (thread_join s child).procs.proc_list := by
    intro q hq
    rw [clean_proc] at hq
    split at hq
    · exact remove_proc_sublist.subset hq
    · exact hq
  have hkeep : ∀ q ∈ s.procs.proc_list, q.pid ≠ child.pid →
      q ∈ (clean_proc (thread_join s child) child).procs.proc_list := by
    intro q hq hne
    have hjoin : q ∈ (thread_join s child).procs.proc_list :=
      mem_modify.mpr ⟨q, hq, .inr ⟨hne, rfl⟩⟩
    rw [clean_proc]
    split
    · exact (List.mem_eraseP_of_neg (by simpa using hne)).mpr hjoin
    · exact hjoin
  refine ⟨rfl, .of_take (H.slot_zombie hc hz hthread) ?_ ?_ fun n hn => ?_, fun i hi => ?_⟩
  · simp
  · exact System.slot_of_reaped (by simp [System.reaped, clean_proc])
  · refine System.slot_congr H.pids H'.pids ?_ (fun p hp hpn => ?_) fun q hq hqn => ?_
    · simp [System.reaped, clean_proc, hn]
    · exact ⟨p, hkeep p hp (hpn ▸ hn), hpn, rfl⟩
    · obtain ⟨p, hp, ⟨hpid, rfl⟩ | ⟨-, rfl⟩⟩ := mem_modify.mp (hsub q hq)
      · exact absurd (hqn.symm.trans hpid) hn
      · exact .inr ⟨_, hp, hqn⟩
  · obtain ⟨q, hq, rfl⟩ := List.mem_map.mp hi
    rw [← thread_join_pids s child]
    exact List.mem_map_of_mem (hsub q hq)

/-- A call of `do_waitpid` in a step: it answers with the pid of a zombie, or nothing happens to
any slot. -/
def Collects (s : System) (r : Option Ret) (s' : System) : Prop :=
  Mailbox.Run s.slot (r.bind Ret.event).toList s'.slot ∧
    s'.procs.proc_list.map Pcb.pid ⊆ s.procs.proc_list.map Pcb.pid

/-- Nothing happens to the slots. -/
theorem Collects.of_procs {r : Option Ret} (hr : r.bind Ret.event = none)
    (hprocs : s'.procs = s.procs) (hteardowns : s'.teardowns = s.teardowns) : Collects s r s' := by
  have hslot : s'.slot = s.slot := by
    funext n
    rw [System.slot, System.slot, System.reaped, System.reaped, hprocs, hteardowns]
  rw [Collects, hr, hslot, hprocs]
  exact ⟨.nil _, List.Subset.refl _⟩

theorem Invariant.collects_leave (H : Invariant s) (hpos : s.Positive)
    (hc : child ∈ s.procs.proc_list) (hz : child.state = .ZOMBIE)
    (hthread : child.main_thread ≠ none) (hw : ∀ w ∈ s.waits, w.child ≠ child.pid)
    {wstatus flags : Bool} {r : Ret}
    (h : do_waitpid_leave (thread_join s child) child wstatus flags = (r, s')) :
    Collects s (some r) s' := by
  obtain ⟨rfl, hstep, hpids⟩ := H.slot_leave hc hz hthread hw h
  have hchild : 0 < (child.pid : Int) := by
    exact_mod_cast hpos _ (List.mem_map_of_mem hc)
  refine ⟨?_, hpids⟩
  rw [Option.bind_some, Ret.event, if_pos hchild]
  exact .cons hstep (.nil _)

section
variable {caller : Nat} {i : Int} {wstatus nohang : Bool}

theorem Invariant.collects_waitpid (H : Invariant s) (hpos : s.Positive)
    (hc : Careful s (.waitpid caller i wstatus nohang)) :
    Collects s (do_waitpid s caller i wstatus nohang).1
      (do_waitpid s caller i wstatus nohang).2 := by
  cases ht : s.target i with
  | none =>
    obtain ⟨r, b, hr, hvalue, -⟩ := do_waitpid_of_none caller wstatus nohang ht
    rw [hr]
    refine .of_procs ?_ rfl rfl
    rw [Option.bind_some, Ret.event, hvalue, if_neg (by decide)]
  | some child =>
    have hmem := System.target_mem ht
    have htrace := (H.pcbs child hmem).untraced
    by_cases hn : nohang = true ∧ child.state ≠ .ZOMBIE
    · obtain ⟨rfl, hz⟩ := hn
      rw [do_waitpid_of_nohang caller wstatus ht hz]
      exact .of_procs rfl rfl rfl
    · obtain ⟨hwait, hthread, hw⟩ := (hc child ht).resolve_left hn
      have hj := do_waitpid_child_eq_joins { s with irqs := false } htrace hwait
        fun h => not_not.mp fun hz => hn ⟨h, hz⟩
      by_cases hrun : child.main_thread = some { finished := false }
      · rw [do_waitpid_of_running caller wstatus ht hj hrun]
        exact .of_procs rfl rfl rfl
      · rw [do_waitpid_of_finished caller wstatus ht hj hrun]
        exact (H.irqs false).collects_leave hpos hmem (H.finished hmem hthread hrun) hthread hw rfl

end

theorem Invariant.collects_resume (H : Invariant s) (hpos : s.Positive) {w : Wait} {r : Ret}
    (hw : w ∈ s.waits) (h : do_waitpid_resume s w = some (r, s')) : Collects s (some r) s' := by
  simp only [do_waitpid_resume, Option.bind_eq_bind, Option.bind_eq_some_iff,
    Option.ite_none_left_eq_some, Option.pure_def, Option.some.injEq] at h
  obtain ⟨child, hfind, hrun, h⟩ := h
  obtain ⟨hmem, hpid⟩ := find_proc_by_pid_eq_some hfind
  have hchild : child.pid = w.child := by exact_mod_cast hpid
  obtain ⟨q, hq, hqw, hthread⟩ := H.waits w hw
  cases H.eq_of_pid hq hmem (hqw.trans hchild.symm)
  have hother : ∀ v ∈ s.waits.erase w, v.child ≠ child.pid := by
    intro v hv hvc
    obtain ⟨hne, hv⟩ := (H.single.of_map _).mem_erase_iff.mp hv
    exact hne (List.inj_on_of_nodup_map H.single hv hw (hvc.trans hchild))
  exact ((H.unblock w).irqs false).collects_leave hpos hmem (H.finished hmem hthread hrun) hthread
    hother h

/-! ## Runs -/

theorem Invariant.step_events (H : Invariant s) (hpos : s.Positive) (hc : Careful s c)
    (h : Kernel.step s c = some s') :
    Mailbox.Run s.slot (event s c).toList s'.slot ∧ s'.Positive := by
  cases c with
  | fork caller pgtable pages =>
    obtain ⟨parent, hparent, h⟩ := Option.bind_eq_some_iff.mp h
    obtain ⟨hslot, hpids⟩ := H.slot_fork h
    rw [hslot]
    refine ⟨.nil _, fun i hi => ?_⟩
    rw [hpids] at hi
    rcases List.mem_append.mp hi with hi | hi
    · exact hpos i hi
    · rw [List.mem_singleton.mp hi]
      exact (Nat.zero_le _).trans_lt (H.fresh parent (System.caller_eq_some hparent).1)
  | exit caller exit_status =>
    obtain ⟨pcb, hpcb, hexit⟩ := Option.bind_eq_some_iff.mp h
    obtain ⟨hmem, rfl, hz⟩ := System.caller_eq_some hpcb
    refine ⟨.cons (H.slot_exit hmem hz hexit) (.nil _), ?_⟩
    simp only [do_exit, Option.ite_none_left_eq_some, Option.some.injEq] at hexit
    obtain ⟨-, rfl⟩ := hexit
    have hpids : ∀ q : Pcb, (q.exit exit_status).pid = q.pid := fun _ => rfl
    exact hpos.modify hpids pcb.pid
  | waitpid caller pid wstatus nohang =>
    obtain ⟨-, -, h⟩ := Option.bind_eq_some_iff.mp h
    cases h
    obtain ⟨hrun, hsub⟩ := H.collects_waitpid hpos hc
    exact ⟨hrun, hpos.mono hsub⟩
  | resume caller =>
    obtain ⟨w, hw, h⟩ := Option.bind_eq_some_iff.mp h
    obtain ⟨⟨r, t⟩, hr, h⟩ := Option.bind_eq_some_iff.mp h
    cases h
    obtain ⟨hrun, hsub⟩ := H.collects_resume hpos (List.mem_of_find?_eq_some hw) hr
    have hanswer : answer s (.resume caller) = some r := by
      rw [answer, hw, Option.bind_some, hr]
      rfl
    change Mailbox.Run s.slot ((answer s (.resume caller)).bind Ret.event).toList s'.slot ∧ _
    rw [hanswer]
    exact ⟨hrun, hpos.mono hsub⟩
  | schedule pid state =>
    obtain ⟨pcb, hpcb, h⟩ := Option.bind_eq_some_iff.mp h
    obtain ⟨hmem, hpid⟩ := find_proc_by_pid_eq_some hpcb
    simp only [Option.pure_def, Option.ite_none_left_eq_some, not_or, Option.some.injEq] at h
    obtain ⟨⟨hz, hstate, -⟩, rfl⟩ := h
    have hpids : ∀ q : Pcb, ({ q with state } : Pcb).pid = q.pid := fun _ => rfl
    refine ⟨?_, hpos.modify hpids pid⟩
    have hslot : System.slot { s with procs := s.procs.modify pid fun pcb => { pcb with state } } =
        s.slot := by
      refine funext fun n => slot_modify H.pids (fun _ => rfl) fun q hq hqp _ => ?_
      obtain rfl := H.eq_of_pid hq hmem (hqp.trans (by exact_mod_cast hpid.symm))
      rw [Pcb.slot, Pcb.slot, if_neg hz, if_neg hstate]
    rw [hslot]
    exact .nil _

theorem Invariant.run_events (H : Invariant s) (hpos : s.Positive) (hc : CarefulRun s calls)
    (h : Kernel.run s calls = some s') :
    Mailbox.Run s.slot (events s calls) s'.slot ∧ s'.Positive := by
  induction calls generalizing s with
  | nil =>
    cases h
    exact ⟨.nil _, hpos⟩
  | cons c calls ih =>
    rw [Kernel.run, List.foldlM_cons] at h
    obtain ⟨t, ht, h⟩ := Option.bind_eq_some_iff.mp h
    obtain ⟨hstep, hpos'⟩ := H.step_events hpos hc.1 ht
    obtain ⟨hrun, hpos''⟩ := ih (H.step hc.1 ht) hpos' (hc.2 t ht) h
    rw [events, ht]
    exact ⟨hstep.append hrun, hpos''⟩

theorem slot_boot {root : Pcb} (hroot : IsRoot root) : (boot root).slot = fun _ => .empty := by
  funext n
  have H := Invariant.boot hroot
  have hz : root.state ≠ .ZOMBIE := by
    rw [hroot.state]
    decide
  by_cases hn : n = root.pid
  · subst hn
    exact H.slot_running (List.mem_singleton_self root) hz
  · cases hp : (boot root).procs.find_proc_by_pid n with
    | none =>
      rw [System.slot, hp]
      rfl
    | some p =>
      obtain ⟨hmem, hpid⟩ := find_proc_by_pid_eq_some hp
      rw [List.mem_singleton.mp hmem] at hpid
      exact absurd (by exact_mod_cast hpid.symm) hn

/-- A status that lies in a slot is what a careful call is told at once. -/
theorem Invariant.answers_full (H : Invariant s) {v : Word} (h : s.slot n = .full v) (caller : Nat)
    (nohang : Bool) (hc : Careful s (.waitpid caller n true nohang)) :
    (do_waitpid s caller n true nohang).1 = some { value := n, wstatus := some v } := by
  have hr : n ∉ s.reaped := fun hr => by
    rw [System.slot_of_reaped hr] at h
    cases h
  rw [System.slot, if_neg hr] at h
  cases hp : s.procs.find_proc_by_pid n with
  | none =>
    rw [hp] at h
    cases h
  | some child =>
    have ht : s.target n = some child := by
      rw [System.target, if_neg (by omega), hp]
    obtain ⟨hmem, hpid⟩ := find_proc_by_pid_eq_some hp
    obtain rfl : child.pid = n := by exact_mod_cast hpid
    rw [hp, Option.elim_some, Pcb.slot] at h
    split at h
    case isFalse => cases h
    case isTrue hz =>
    obtain rfl := Slot.full.inj h
    obtain ⟨hwait, hthread, hw⟩ := (hc child ht).resolve_left fun h => h.2 hz
    have hj := do_waitpid_child_eq_joins { s with irqs := false } (H.pcbs child hmem).untraced hwait
      fun _ : nohang = true => hz
    have hrun : child.main_thread ≠ some { finished := false } := fun hrun =>
      absurd (((H.pcbs child hmem).thread _ hrun).mpr hz) Bool.false_ne_true
    rw [do_waitpid_of_finished caller true ht hj hrun]
    cases hleave : do_waitpid_leave (thread_join { s with irqs := false } child) child true
      s.irqs with
    | mk r s' =>
      obtain ⟨rfl, -, -⟩ := (H.irqs false).slot_leave hmem hz hthread hw hleave
      rfl

/-- What becomes of exit statuses. -/
structure Delivered (root : Pcb) (calls : List Call) (s : System) : Prop where
  /-- Of each process there is at most one exit and, behind it, at most one answer, which is told
  the status of the exit. -/
  once : ∀ n, ∃ b : Slot Word,
    b.History n ((events (boot root) calls).filter (·.key = n))
  /-- As long as there is an exit and no answer, a careful call gets one. -/
  kept : ∀ n v, (events (boot root) calls).filter (·.key = n) = [.put n v] →
    ∀ caller nohang, Careful s (.waitpid caller n true nohang) →
      (do_waitpid s caller n true nohang).1 = some { value := n, wstatus := some v }

/-- In every run whose calls of `do_waitpid` are all careful, each exit status is told to one call,
and is not told before the exit, nor changed, nor lost. -/
theorem run_delivered (root : Pcb) (hroot : IsRoot root) (hpos : 0 < root.pid) (calls : List Call)
    (s : System) (h : run (boot root) calls = some s) (hc : CarefulRun (boot root) calls) :
    Delivered root calls s := by
  have H := Invariant.boot hroot
  have hpids : (boot root).Positive := fun i hi => by
    rw [List.mem_singleton.mp hi]
    exact hpos
  obtain ⟨hrun, -⟩ := H.run_events hpids hc h
  rw [slot_boot hroot] at hrun
  refine ⟨fun n => ⟨s.slot n, hrun.history_of_empty n⟩, fun n v hn caller nohang hcall => ?_⟩
  have hhist := hrun.history_of_empty n
  rw [hn] at hhist
  have hslot : s.slot n = .full v := by
    generalize s.slot n = b at hhist
    cases hhist
    rfl
  exact (H.run hc h).answers_full hslot caller nohang hcall

/-- The child exits with 263, of which the low byte counts, while the root process waits. -/
theorem run_delivered_blocked :
    ∃ s, run (boot rootProc) [.fork 1 0 [], .waitpid 1 2 true false, .exit 2 263, .resume 1] =
        some s ∧
      events (boot rootProc) [.fork 1 0 [], .waitpid 1 2 true false, .exit 2 263, .resume 1] =
        [.put 2 0x700, .take 2 (some 0x700)] ∧
      Delivered rootProc [.fork 1 0 [], .waitpid 1 2 true false, .exit 2 263, .resume 1] s := by
  have hc : CarefulRun (boot rootProc)
      [.fork 1 0 [], .waitpid 1 2 true false, .exit 2 263, .resume 1] := by
    refine ⟨trivial, fun s1 h1 => ⟨fun child h => .inr ?_, fun s2 h2 => ?_⟩⟩
    · obtain rfl := Option.some.inj h1
      obtain rfl := Option.some.inj h
      decide
    · exact ⟨trivial, fun s3 h3 => ⟨trivial, fun s4 h4 => trivial⟩⟩
  exact ⟨_, rfl, by decide, run_delivered rootProc ⟨rfl, rfl, rfl, rfl⟩ (by decide) _ _ rfl hc⟩

end SyeLabs.Kernel
