import SyeLabs.Kernel.Family

/-!
# Who reaps a process

`do_waitpid` looks for the child in the list of all processes and compares nobody's parent with the
caller. Processes are reaped by their parents alone exactly as long as every lookup happens to find
a child of the caller.
-/

namespace SyeLabs.Kernel
open ProcTable

/-- The process whose call of `do_waitpid` a step belongs to. -/
def Call.waiter : Call → Option Nat
  | .waitpid caller _ _ _ => some caller
  | .resume caller => some caller
  | _ => none

/-- What a call of `do_waitpid` returns in a step. -/
def System.answer (s : System) : Call → Option Ret
  | .waitpid caller pid wstatus nohang => (do_waitpid s caller pid wstatus nohang).1
  | .resume caller => do
    let w ← s.waits.find? fun w => w.caller = caller
    let (r, _) ← do_waitpid_resume s w
    return r
  | _ => none

/-- A child that the caller asks for: a zombie with its thread, or the process of that pid. -/
structure System.Matches (s : System) (caller : Nat) (pid : Int) (p : Pcb) : Prop where
  mem : p ∈ s.procs.proc_list
  parent : p.parent = some caller
  zombie : pid = -1 → p.state = .ZOMBIE ∧ p.main_thread.isSome
  pid : pid ≠ -1 → (p.pid : Int) = pid

/-- A call that matches no child of the caller fails and touches no PCB. -/
def RejectsStrangers (s : System) (c : Call) (s' : System) : Prop :=
  ∀ caller pid wstatus nohang, c = .waitpid caller pid wstatus nohang →
    (∀ p, ¬s.Matches caller pid p) →
      ∃ r, s.answer c = some r ∧ r.value = -1 ∧ r.errno = some .ECHILD ∧ s'.procs = s.procs

/-- The step releases the page tables of children of the caller only, and collects the status of
such a child only. -/
structure ReapsOwn (s : System) (c : Call) (s' : System) : Prop where
  freed : ∃ new, s'.teardowns = s.teardowns ++ new ∧
    ∀ t ∈ new, ∃ caller, c.waiter = some caller ∧ (t.pid, some caller) ∈ s.kin
  collected : ∀ r, s.answer c = some r → 0 < r.value →
    ∃ caller, ∃ i : Nat, c.waiter = some caller ∧ r.value = i ∧ (i, some caller) ∈ s.kin
  strangers : RejectsStrangers s c s'

/-- The PCB that the call finds, if any, is a child of the caller. -/
def AsksOwn (s : System) : Call → Prop
  | .waitpid caller pid _ _ => ∀ p, s.target pid = some p → p.parent = some caller
  | _ => True

/-! ## What holds in every run -/

/-- The thread of a zombie does not run, and nobody is traced. -/
structure PcbSettled (p : Pcb) : Prop where
  untraced : p.ptrace_pending_req = .NO_REQUEST
  thread : p.state = .ZOMBIE → p.main_thread ≠ some { finished := false }

structure Settled (s : System) : Prop where
  nodup : (s.procs.proc_list.map Pcb.pid).Nodup
  fresh : ∀ p ∈ s.procs.proc_list, p.pid < s.procs.pid_current
  pcbs : ∀ p ∈ s.procs.proc_list, PcbSettled p

/-- A blocked call waits for a child of its caller, as long as that is in the list. -/
structure OwnWait (s : System) (w : Wait) : Prop where
  past : w.child < s.procs.pid_current
  parent : ∀ q, (w.child, q) ∈ s.kin → q = some w.caller

/-- The invariant of a run in which everybody asks for children of its own. -/
structure OwnWaits (s : System) : Prop extends Settled s where
  own : ∀ w ∈ s.waits, OwnWait s w

section
variable {s s' u : System} {p child : Pcb} {pid caller : Nat} {f : Pcb → Pcb} {i : Int} {r : Ret}
  {w : Wait} {wstatus nohang flags : Bool}

theorem Settled.pids (S : Settled s) : s.procs.PidsOk := ⟨S.nodup, S.fresh⟩

theorem Settled.eq_of_pid (S : Settled s) {q : Pcb} (hp : p ∈ s.procs.proc_list)
    (hq : q ∈ s.procs.proc_list) (h : p.pid = q.pid) : p = q := S.pids.eq_of_pid hp hq h

/-- Only the list of processes counts. -/
theorem Settled.congr (S : Settled s) (h : s'.procs = s.procs) : Settled s' := by
  obtain ⟨hnodup, hfresh, hpcbs⟩ := S
  rw [← h] at hnodup hfresh hpcbs
  exact ⟨hnodup, hfresh, hpcbs⟩

theorem Settled.modify (S : Settled s) (hpid : ∀ q, (f q).pid = q.pid)
    (hok : ∀ q ∈ s.procs.proc_list, q.pid = pid → PcbSettled (f q)) :
    Settled { s with procs := s.procs.modify pid f } where
  nodup := (S.pids.modify hpid).nodup
  fresh := (S.pids.modify hpid).fresh
  pcbs p hp := by
    obtain ⟨q, hq, ⟨h, rfl⟩ | ⟨-, rfl⟩⟩ := mem_modify.mp hp
    · exact hok q hq h
    · exact S.pcbs p hq

theorem Settled.fork (S : Settled s) {pgtable : Word} {pages : List Word}
    (h : do_fork s p pgtable pages = some s') : Settled s' := by
  simp only [do_fork, new_process, Option.bind_eq_bind, Option.bind_eq_some_iff, Option.pure_def,
    Option.some.injEq] at h
  obtain ⟨name, -, rfl⟩ := h
  rw [modify_append fun q hq => ne_of_lt (S.fresh q hq)]
  constructor
  case nodup => exact (S.pids.append rfl).nodup
  case fresh => exact (S.pids.append rfl).fresh
  case pcbs =>
    intro q hq
    rcases List.mem_append.mp hq with hq | hq
    · exact S.pcbs q hq
    · cases List.mem_singleton.mp hq
      constructor <;> simp [Pcb.start, Pcb.inherit]

theorem Settled.thread_join (S : Settled s) (child : Pcb) : Settled (thread_join s child) :=
  S.modify (fun _ => rfl) fun q hq _ => ⟨(S.pcbs q hq).untraced, by simp [Pcb.detach]⟩

theorem Settled.clean_proc (S : Settled s) (child : Pcb) : Settled (clean_proc s child) := by
  unfold Kernel.clean_proc
  split
  · have hpids := S.pids.remove_proc child.pid
    exact ⟨hpids.nodup, hpids.fresh, fun p hp => S.pcbs p (remove_proc_sublist.subset hp)⟩
  · exact S.congr rfl

/-- What is cleaned is a part of the family. -/
theorem kin_clean_proc (s : System) (child : Pcb) : (clean_proc s child).kin ⊆ s.kin := by
  rintro x ⟨p, hp, rfl⟩
  unfold clean_proc at hp
  split at hp
  · exact ⟨p, remove_proc_sublist.subset hp, rfl⟩
  · exact ⟨p, hp, rfl⟩

theorem pid_current_clean_proc (s : System) (child : Pcb) :
    (clean_proc s child).procs.pid_current = s.procs.pid_current := by
  unfold clean_proc
  split <;> rfl

theorem Settled.parent_eq (S : Settled s) (hp : p ∈ s.procs.proc_list) {q : Option Nat}
    (hq : (p.pid, q) ∈ s.kin) : q = p.parent := by
  obtain ⟨p', hp', heq⟩ := hq
  obtain ⟨hpid, rfl⟩ := Prod.mk.inj heq
  rw [S.eq_of_pid hp hp' hpid]

/-! ## What a call of `do_waitpid` does -/

theorem do_waitpid_leave_untraced (s : System) (htrace : child.ptrace_pending_req = .NO_REQUEST)
    (wstatus flags : Bool) :
    ∃ status, do_waitpid_leave s child wstatus flags =
      ({ value := child.pid, wstatus := status }, { clean_proc s child with irqs := flags }) := by
  by_cases hz : child.state = .ZOMBIE
  · refine ⟨if wstatus then some (exitStatus child) else none, ?_⟩
    simp [do_waitpid_leave, htrace, hz]
  · refine ⟨if wstatus then some (~~~0x7f ||| exitStatus child) else none, ?_⟩
    simp [do_waitpid_leave, htrace, hz]

/-- The end of a call that reaps `child`. -/
structure Reaped (s : System) (child : Pcb) (r : Ret) (s' : System) : Prop where
  value : r.value = child.pid
  teardowns : s'.teardowns = s.teardowns ++ [⟨child.pid, child.state⟩]
  kin : s'.kin ⊆ s.kin
  waits : s'.waits ⊆ s.waits
  pid_current : s'.procs.pid_current = s.procs.pid_current
  settled : Settled s'

theorem Reaped.congr (h : Reaped u child r s') (hprocs : u.procs = s.procs)
    (hteardowns : u.teardowns = s.teardowns) (hwaits : u.waits ⊆ s.waits) :
    Reaped s child r s' where
  value := h.value
  teardowns := hteardowns ▸ h.teardowns
  kin := by
    have hkin : s.kin = u.kin := by simp only [System.kin, hprocs]
    rw [hkin]
    exact h.kin
  waits := List.Subset.trans h.waits hwaits
  pid_current := hprocs ▸ h.pid_current
  settled := h.settled

theorem Settled.leave (S : Settled s) (htrace : child.ptrace_pending_req = .NO_REQUEST)
    (wstatus flags : Bool) :
    Reaped s child (do_waitpid_leave s child wstatus flags).1
      (do_waitpid_leave s child wstatus flags).2 := by
  obtain ⟨status, h⟩ := do_waitpid_leave_untraced s htrace wstatus flags
  rw [h]
  exact ⟨rfl, rfl, kin_clean_proc s child, List.Subset.refl _, pid_current_clean_proc s child,
    (S.clean_proc child).congr rfl⟩

theorem Settled.leave_join (S : Settled s) (htrace : child.ptrace_pending_req = .NO_REQUEST)
    (wstatus flags : Bool) :
    Reaped s child (do_waitpid_leave (Kernel.thread_join s child) child wstatus flags).1
      (do_waitpid_leave (Kernel.thread_join s child) child wstatus flags).2 := by
  obtain ⟨hvalue, hteardowns, hkin, hwaits, hpid, hsettled⟩ :=
    (S.thread_join child).leave htrace wstatus flags
  exact ⟨hvalue, hteardowns, kin_thread_join s child ▸ hkin, hwaits, hpid, hsettled⟩

/-- A call that finds `child` returns 0 at once, blocks, or reaps the child. -/
inductive WaitpidCases (s : System) (caller : Nat) (child : Pcb) (out : Option Ret × System) :
    Prop where
  | nohang (hz : child.state ≠ .ZOMBIE)
    (hout : out = (some { value := 0 }, { s with irqs := false }))
  | blocks (hz : child.state ≠ .ZOMBIE) (wstatus flags irqs : Bool)
    (hout : out = (none, { s with
      waits := s.waits ++ [{ caller, child := child.pid, wstatus, flags }], irqs }))
  | reaps (r : Ret) (hr : out.1 = some r) (hreaped : Reaped s child r out.2)

theorem Settled.waitpid_cases (S : Settled s) (ht : s.target i = some child) (caller : Nat)
    (wstatus nohang : Bool) :
    WaitpidCases s caller child (do_waitpid s caller i wstatus nohang) := by
  have hp := S.pcbs child (System.target_mem ht)
  have S' : Settled { s with irqs := false } := S.congr rfl
  by_cases hn : nohang = true ∧ child.state ≠ .ZOMBIE
  · obtain ⟨rfl, hz⟩ := hn
    exact .nohang hz (do_waitpid_of_nohang caller wstatus ht hz)
  · have hz : nohang = true → child.state = .ZOMBIE := fun h => not_not.mp fun hz => hn ⟨h, hz⟩
    by_cases hwait : child.state = .WAITING
    · have hpass : do_waitpid s caller i wstatus nohang = Prod.map some id
          (do_waitpid_leave { s with irqs := false } child wstatus s.irqs) := by
        have hno : nohang = false := by
          by_contra h
          exact absurd (hwait.symm.trans (hz (by simpa using h))) (by decide)
        rw [do_waitpid, do_waitpid_enter_eq s i wstatus nohang ht]
        simp [do_waitpid_child, hno, hp.untraced, hwait, Prod.map]
      rw [hpass]
      exact .reaps _ rfl ((S'.leave hp.untraced wstatus s.irqs).congr rfl rfl (List.Subset.refl _))
    · have hj := do_waitpid_child_eq_joins { s with irqs := false } hp.untraced hwait hz
      by_cases hrun : child.main_thread = some { finished := false }
      · exact .blocks (fun hz => hp.thread hz hrun) wstatus s.irqs true
          (do_waitpid_of_running caller wstatus ht hj hrun)
      · rw [do_waitpid_of_finished caller wstatus ht hj hrun]
        exact .reaps _ rfl
          ((S'.leave_join hp.untraced wstatus s.irqs).congr rfl rfl (List.Subset.refl _))

theorem Settled.resume_reaps (S : Settled s)
    (h : do_waitpid_resume s w = some (r, s')) :
    ∃ child ∈ s.procs.proc_list, child.pid = w.child ∧ Reaped s child r s' := by
  simp only [do_waitpid_resume, Option.bind_eq_bind, Option.bind_eq_some_iff,
    Option.ite_none_left_eq_some, Option.pure_def, Option.some.injEq] at h
  obtain ⟨child, hfind, -, h⟩ := h
  obtain ⟨hmem, hpid⟩ := find_proc_by_pid_eq_some hfind
  have S' : Settled { s with waits := s.waits.erase w, irqs := false } := S.congr rfl
  have hL := S'.leave_join (S.pcbs child hmem).untraced w.wstatus w.flags
  rw [h] at hL
  exact ⟨child, hmem, by exact_mod_cast hpid, hL.congr rfl rfl List.erase_subset⟩

/-! ## The two sides of a step -/

theorem RejectsStrangers.of_waitpid
    (h : (∀ p, ¬s.Matches caller i p) → ∃ r, (do_waitpid s caller i wstatus nohang).1 = some r ∧
      r.value = -1 ∧ r.errno = some .ECHILD ∧ s'.procs = s.procs) :
    RejectsStrangers s (.waitpid caller i wstatus nohang) s' := by
  intro caller' i' wstatus' nohang' heq
  cases heq
  exact h

/-- A step outside of `do_waitpid` reaps nobody. -/
theorem ReapsOwn.of_idle {c : Call} (hc : c.waiter = none) (h : s'.teardowns = s.teardowns) :
    ReapsOwn s c s' where
  freed := ⟨[], by rw [h, List.append_nil], fun t ht => nomatch ht⟩
  collected r hr := by
    cases c with
    | waitpid | resume => exact nomatch hc
    | fork | exit | schedule => exact nomatch hr
  strangers := by
    rintro _ _ _ _ rfl
    exact nomatch hc

theorem Reaped.reapsOwn {c : Call} (R : Reaped s child r s') (hc : c.waiter = some caller)
    (hkin : (child.pid, some caller) ∈ s.kin) (hr : s.answer c = some r)
    (hstrangers : RejectsStrangers s c s') : ReapsOwn s c s' where
  freed := by
    refine ⟨_, R.teardowns, fun t ht => ?_⟩
    cases List.mem_singleton.mp ht
    exact ⟨caller, hc, hkin⟩
  collected r' hr' _ := by
    obtain rfl := Option.some.inj (hr.symm.trans hr')
    exact ⟨caller, child.pid, hc, R.value, hkin⟩
  strangers := hstrangers

/-- A child that the call finds is one that the caller asks for. -/
theorem System.matches_of_target (h : s.target i = some child) (hp : child.parent = some caller) :
    s.Matches caller i child := by
  refine ⟨target_mem h, hp, fun hi => ?_, fun hi => ?_⟩
  · rw [target, if_pos hi] at h
    exact (find_proc_zombie_to_clean_eq_some h).2
  · rw [target, if_neg hi] at h
    exact (find_proc_by_pid_eq_some h).2

/-- If a stranger that is no zombie is found, then no child matches. -/
theorem Settled.not_matches (S : Settled s) (h : s.target i = some child)
    (hz : child.state ≠ .ZOMBIE) (hp : child.parent ≠ some caller) (p : Pcb) :
    ¬s.Matches caller i p := by
  intro M
  by_cases hi : i = -1
  · rw [System.target, if_pos hi] at h
    exact hz (find_proc_zombie_to_clean_eq_some h).2.1
  · rw [System.target, if_neg hi] at h
    obtain ⟨hmem, hpid⟩ := find_proc_by_pid_eq_some h
    have heq := S.eq_of_pid M.mem hmem (by exact_mod_cast (M.pid hi).trans hpid.symm)
    exact hp (heq ▸ M.parent)

theorem Settled.reapsOwn_waitpid (S : Settled s)
    (hasks : AsksOwn s (.waitpid caller i wstatus nohang)) :
    ReapsOwn s (.waitpid caller i wstatus nohang) (do_waitpid s caller i wstatus nohang).2 := by
  cases ht : s.target i with
  | none =>
    obtain ⟨r, b, hout, hvalue, herrno, -⟩ := do_waitpid_of_none caller wstatus nohang ht
    have hanswer : (do_waitpid s caller i wstatus nohang).1 = some r := by rw [hout]
    refine ⟨⟨[], by rw [hout, List.append_nil], fun t ht => nomatch ht⟩, fun r' hr' hpos => ?_,
      .of_waitpid fun _ => ⟨r, hanswer, hvalue, herrno, by rw [hout]⟩⟩
    obtain rfl := Option.some.inj (hanswer.symm.trans hr')
    omega
  | some child =>
    have hp := hasks child ht
    have hstrangers : ∀ s', RejectsStrangers s (.waitpid caller i wstatus nohang) s' := fun s' =>
      .of_waitpid fun h => absurd (System.matches_of_target ht hp) (h child)
    cases S.waitpid_cases ht caller wstatus nohang with
    | nohang hz hout =>
      rw [hout]
      refine ⟨⟨[], by simp, fun t ht => nomatch ht⟩, fun r hr hpos => ?_, hstrangers _⟩
      obtain rfl := Option.some.inj ((congrArg Prod.fst hout).symm.trans hr)
      exact absurd hpos (by decide)
    | blocks hz wstatus' flags irqs hout =>
      rw [hout]
      refine ⟨⟨[], by simp, fun t ht => nomatch ht⟩, fun r hr hpos => ?_, hstrangers _⟩
      exact nomatch (congrArg Prod.fst hout).symm.trans hr
    | reaps r hr R =>
      exact R.reapsOwn rfl (hp ▸ System.mem_kin (System.target_mem ht)) hr (hstrangers _)

theorem Settled.asksOwn_of_reapsOwn (S : Settled s)
    (h : ReapsOwn s (.waitpid caller i wstatus nohang) (do_waitpid s caller i wstatus nohang).2) :
    AsksOwn s (.waitpid caller i wstatus nohang) := by
  intro child ht
  have hanswers : (∀ r, (do_waitpid s caller i wstatus nohang).1 = some r → r.value ≠ -1) →
      child.state ≠ .ZOMBIE → child.parent = some caller := by
    intro hr hz
    by_contra hp
    obtain ⟨r, hout, hvalue, -⟩ := h.strangers caller i wstatus nohang rfl (S.not_matches ht hz hp)
    exact hr r hout hvalue
  cases S.waitpid_cases ht caller wstatus nohang with
  | nohang hz hout =>
    refine hanswers (fun r hr => ?_) hz
    obtain rfl := Option.some.inj ((congrArg Prod.fst hout).symm.trans hr)
    decide
  | blocks hz wstatus' flags irqs hout =>
    exact hanswers (fun r hr => nomatch (congrArg Prod.fst hout).symm.trans hr) hz
  | reaps r hr R =>
    obtain ⟨new, hnew, hown⟩ := h.freed
    obtain rfl := List.append_cancel_left (R.teardowns.symm.trans hnew)
    obtain ⟨caller', hcaller, hkin⟩ := hown _ (List.mem_singleton_self _)
    obtain rfl := Option.some.inj hcaller
    exact (S.parent_eq (System.target_mem ht) hkin).symm

/-- What the steps of `do_waitpid` may do to the invariant. -/
theorem Reaped.ownWaits (R : Reaped s child r s') (O : OwnWaits s) : OwnWaits s' := by
  refine ⟨R.settled, fun w hw => ?_⟩
  obtain ⟨hpast, hparent⟩ := O.own w (R.waits hw)
  exact ⟨R.pid_current ▸ hpast, fun q hq => hparent q (R.kin hq)⟩

theorem OwnWaits.congr (O : OwnWaits s) (hsettled : Settled s') (hkin : s'.kin = s.kin)
    (hpid : s'.procs.pid_current = s.procs.pid_current) (hwaits : s'.waits ⊆ s.waits) :
    OwnWaits s' := by
  refine ⟨hsettled, fun w hw => ?_⟩
  obtain ⟨hpast, hparent⟩ := O.own w (hwaits hw)
  exact ⟨hpid ▸ hpast, hkin ▸ hparent⟩

theorem OwnWaits.waitpid (O : OwnWaits s)
    (hasks : AsksOwn s (.waitpid caller i wstatus nohang)) :
    OwnWaits (do_waitpid s caller i wstatus nohang).2 := by
  cases ht : s.target i with
  | none =>
    obtain ⟨r, b, hout, -⟩ := do_waitpid_of_none caller wstatus nohang ht
    rw [hout]
    exact O.congr (O.toSettled.congr rfl) rfl rfl (List.Subset.refl _)
  | some child =>
    cases O.waitpid_cases ht caller wstatus nohang with
    | nohang hz hout =>
      rw [hout]
      exact O.congr (O.toSettled.congr rfl) rfl rfl (List.Subset.refl _)
    | blocks hz wstatus' flags irqs hout =>
      rw [hout]
      refine ⟨O.toSettled.congr rfl, fun w hw => ?_⟩
      rcases List.mem_append.mp hw with hw | hw
      · exact ⟨(O.own w hw).past, (O.own w hw).parent⟩
      · cases List.mem_singleton.mp hw
        have hmem := System.target_mem ht
        exact ⟨O.fresh child hmem, fun q hq => (O.parent_eq hmem hq).trans (hasks child ht)⟩
    | reaps r hr R => exact R.ownWaits O

/-- The child has the next pid, and nobody waits for it yet. -/
theorem OwnWaits.fork (O : OwnWaits s) {pgtable : Word} {pages : List Word}
    (h : do_fork s p pgtable pages = some s') :
    OwnWaits s' ∧ s'.teardowns = s.teardowns := by
  have hkin := (kin_fork O.fresh h).1
  have hsettled := O.toSettled.fork h
  simp only [do_fork, new_process, Option.bind_eq_bind, Option.bind_eq_some_iff, Option.pure_def,
    Option.some.injEq] at h
  obtain ⟨name, -, rfl⟩ := h
  refine ⟨⟨hsettled, fun w hw => ?_⟩, rfl⟩
  obtain ⟨hpast, hparent⟩ := O.own w hw
  refine ⟨Nat.lt_succ_of_lt hpast, fun q hq => ?_⟩
  rw [hkin] at hq
  rcases hq with heq | hq
  · exact absurd (Prod.mk.inj heq).1 (ne_of_lt hpast)
  · exact hparent q hq

theorem OwnWaits.modify (O : OwnWaits s) (hpid : ∀ q, (f q).pid = q.pid)
    (hparent : ∀ q, (f q).parent = q.parent)
    (hok : ∀ q ∈ s.procs.proc_list, q.pid = pid → PcbSettled (f q)) :
    OwnWaits { s with procs := s.procs.modify pid f } :=
  O.congr (O.toSettled.modify hpid hok) (kin_modify hpid hparent) rfl (List.Subset.refl _)

theorem OwnWaits.step {c : Call} (O : OwnWaits s) (h : Kernel.step s c = some s') :
    (ReapsOwn s c s' ↔ AsksOwn s c) ∧ (AsksOwn s c → OwnWaits s') := by
  cases c with
  | fork caller pgtable pages =>
    obtain ⟨parent, -, h⟩ := Option.bind_eq_some_iff.mp h
    obtain ⟨O', hteardowns⟩ := O.fork h
    exact ⟨iff_of_true (.of_idle rfl hteardowns) trivial, fun _ => O'⟩
  | exit caller exit_status =>
    obtain ⟨pcb, -, h⟩ := Option.bind_eq_some_iff.mp h
    simp only [do_exit, Option.ite_none_left_eq_some, Option.some.injEq] at h
    obtain ⟨-, rfl⟩ := h
    refine ⟨iff_of_true (.of_idle rfl rfl) trivial, fun _ => O.modify (fun _ => rfl)
      (fun _ => rfl) fun q hq _ => ⟨(O.pcbs q hq).untraced, fun _ => by simp [Pcb.exit]⟩⟩
  | waitpid caller pid wstatus nohang =>
    obtain ⟨-, -, h⟩ := Option.bind_eq_some_iff.mp h
    cases h
    exact ⟨⟨O.asksOwn_of_reapsOwn, O.reapsOwn_waitpid⟩, O.waitpid⟩
  | resume caller =>
    obtain ⟨w, hfind, h⟩ := Option.bind_eq_some_iff.mp h
    obtain ⟨⟨r, t⟩, hr, h⟩ := Option.bind_eq_some_iff.mp h
    cases h
    obtain ⟨child, hmem, hpid, R⟩ := O.resume_reaps hr
    have hkin := System.mem_kin hmem
    have hw := (O.own w (List.mem_of_find?_eq_some hfind)).parent _ (hpid ▸ hkin)
    have hcaller : w.caller = caller := by simpa using List.find?_some hfind
    have hanswer : s.answer (.resume caller) = some r := by simp [System.answer, hfind, hr]
    rw [hw, hcaller] at hkin
    refine ⟨iff_of_true (R.reapsOwn rfl hkin hanswer ?_) trivial, fun _ => R.ownWaits O⟩
    exact fun _ _ _ _ heq => Call.noConfusion heq
  | schedule pid state =>
    obtain ⟨pcb, -, h⟩ := Option.bind_eq_some_iff.mp h
    simp only [Option.pure_def, Option.ite_none_left_eq_some, not_or, Option.some.injEq] at h
    obtain ⟨⟨-, hstate, -⟩, rfl⟩ := h
    exact ⟨iff_of_true (.of_idle rfl rfl) trivial, fun _ => O.modify (fun _ => rfl)
      (fun _ => rfl) fun q hq _ => ⟨(O.pcbs q hq).untraced, fun hz => absurd hz hstate⟩⟩

theorem OwnWaits.everyStep_iff {calls : List Call} (O : OwnWaits s) :
    EveryStep ReapsOwn s calls ↔ EveryStep (fun s c _ => AsksOwn s c) s calls := by
  induction calls generalizing s with
  | nil => exact Iff.rfl
  | cons c calls ih =>
    refine forall_congr' fun s' => forall_congr' fun h => ?_
    obtain ⟨hiff, hkeeps⟩ := O.step h
    exact (and_congr_left' hiff).trans (and_congr_right fun hasks => ih (hkeeps hasks))

theorem OwnWaits.boot {root : Pcb} (hroot : IsRoot root) : OwnWaits (boot root) where
  nodup := (PidsOk.single root).nodup
  fresh := (PidsOk.single root).fresh
  pcbs p hp := by
    cases List.mem_singleton.mp hp
    exact ⟨hroot.untraced, fun hz => absurd (hroot.state.symm.trans hz) (by decide)⟩
  own w hw := nomatch hw

end

/-- In every run, `do_waitpid` reaps children of its caller only, and rejects a call that matches
none of them, exactly if every lookup that finds a PCB finds a child of the caller. -/
theorem run_reapsOwn_iff (root : Pcb) (hroot : IsRoot root) (calls : List Call) :
    EveryStep ReapsOwn (boot root) calls ↔
      EveryStep (fun s c _ => AsksOwn s c) (boot root) calls :=
  (OwnWaits.boot hroot).everyStep_iff

theorem run_reapsOwn_iff_fork :
    EveryStep ReapsOwn (boot rootProc) [.fork 1 0 [], .exit 2 7, .waitpid 1 (-1) true false] := by
  refine (run_reapsOwn_iff rootProc ⟨rfl, rfl, rfl, rfl⟩ _).mpr fun s1 h1 => ⟨trivial, fun s2 h2 =>
    ⟨trivial, fun s3 _ => ⟨fun p hp => ?_, trivial⟩⟩⟩
  obtain rfl := Option.some.inj h1
  obtain rfl := Option.some.inj h2
  obtain rfl := Option.some.inj hp
  rfl

/-- A child that is reaped by its sibling. -/
theorem not_reapsOwn_stolen :
    ¬EveryStep ReapsOwn (boot rootProc)
      [.fork 1 0 [], .fork 1 0 [], .exit 2 7, .waitpid 3 (-1) true false] := by
  intro h
  have hasks := (OwnWaits.boot ⟨rfl, rfl, rfl, rfl⟩).everyStep_iff.mp h
  obtain ⟨-, h1⟩ := hasks _ rfl
  obtain ⟨-, h2⟩ := h1 _ rfl
  obtain ⟨-, h3⟩ := h2 _ rfl
  exact absurd (Option.some.inj ((h3 _ rfl).1 _ rfl)) (by decide)

end SyeLabs.Kernel
