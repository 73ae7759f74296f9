import SyeLabs.Kernel.Waitpid

/-!
# Page tables are released once, after the exit

`do_waitpid` takes the wrong branch for a child in `PROC_STATE_WAITING`, which it neither joins
nor finds to be a zombie; and it finds a zombie again that it has cleaned but kept for the sake
of its children. Away from these calls, and from two calls on one child, the page tables of a
process are released after its exit and once only.
-/

namespace SyeLabs.Kernel
open ProcTable

/-- The PCB that a call of `do_waitpid` works on. -/
def System.target (s : System) (pid : Int) : Option Pcb :=
  if pid = -1 then s.procs.find_proc_zombie_to_clean else s.procs.find_proc_by_pid pid

/-- A call that returns 0 because of `WNOHANG`, or whose child is not blocked, has not been
cleaned yet, and is not being waited for by another call. -/
def Careful (s : System) : Call → Prop
  | .waitpid _ pid _ nohang => ∀ child, s.target pid = some child →
      (nohang = true ∧ child.state ≠ .ZOMBIE) ∨
      (child.state ≠ .WAITING ∧ child.main_thread ≠ none ∧ ∀ w ∈ s.waits, w.child ≠ child.pid)
  | _ => True

def CarefulRun (s : System) : List Call → Prop
  | [] => True
  | c :: calls => Careful s c ∧ ∀ s', step s c = some s' → CarefulRun s' calls

/-- A root process as `create_root_process` leaves it. -/
structure IsRoot (root : Pcb) : Prop where
  parent : root.parent = none
  state : root.state = .READY
  main_thread : root.main_thread = some {}
  untraced : root.ptrace_pending_req = .NO_REQUEST

/-- The pids whose page tables have been released. -/
def System.reaped (s : System) : List Nat := s.teardowns.map Teardown.pid

/-- A PCB has lost its main thread exactly if it has been cleaned, and was a zombie before. -/
structure PcbOk (reaped : List Nat) (p : Pcb) : Prop where
  untraced : p.ptrace_pending_req = .NO_REQUEST
  thread : ∀ tcb, p.main_thread = some tcb → (tcb.finished = true ↔ p.state = .ZOMBIE)
  zombie : p.main_thread = none → p.state = .ZOMBIE
  reaped_iff : p.pid ∈ reaped ↔ p.main_thread = none

structure Invariant (s : System) : Prop where
  nodup : (s.procs.proc_list.map Pcb.pid).Nodup
  fresh : ∀ p ∈ s.procs.proc_list, p.pid < s.procs.pid_current
  pcbs : ∀ p ∈ s.procs.proc_list, PcbOk s.reaped p
  zombies : ∀ t ∈ s.teardowns, t.state = .ZOMBIE
  past : ∀ i ∈ s.reaped, i < s.procs.pid_current
  once : s.reaped.Nodup
  waits : ∀ w ∈ s.waits, ∃ p ∈ s.procs.proc_list, p.pid = w.child ∧ p.main_thread ≠ none
  single : (s.waits.map Wait.child).Nodup

section
variable {s s' : System} {p child : Pcb} {pid : Nat} {f : Pcb → Pcb} {r : Ret} {w : Wait}

theorem Invariant.pids (H : Invariant s) : s.procs.PidsOk := ⟨H.nodup, H.fresh⟩

theorem Invariant.eq_of_pid (H : Invariant s) {q : Pcb} (hp : p ∈ s.procs.proc_list)
    (hq : q ∈ s.procs.proc_list) (h : p.pid = q.pid) : p = q := H.pids.eq_of_pid hp hq h

/-- Only the interrupt flag is new. -/
theorem Invariant.irqs (H : Invariant s) (b : Bool) : Invariant { s with irqs := b } :=
  ⟨H.nodup, H.fresh, H.pcbs, H.zombies, H.past, H.once, H.waits, H.single⟩

/-- An assignment to a PCB that keeps its thread as it should be. -/
theorem Invariant.modify (H : Invariant s) (hpid : ∀ q, (f q).pid = q.pid)
    (hok : ∀ q ∈ s.procs.proc_list, q.pid = pid → PcbOk s.reaped (f q))
    (hthread : ∀ q ∈ s.procs.proc_list, q.pid = pid → q.main_thread ≠ none →
      (f q).main_thread ≠ none) :
    Invariant { s with procs := s.procs.modify pid f } where
  nodup := (H.pids.modify hpid).nodup
  fresh := (H.pids.modify hpid).fresh
  pcbs p hp := by
    obtain ⟨q, hq, ⟨h, rfl⟩ | ⟨-, rfl⟩⟩ := mem_modify.mp hp
    · exact hok q hq h
    · exact H.pcbs p hq
  zombies := H.zombies
  past := H.past
  once := H.once
  waits w hw := by
    obtain ⟨q, hq, hqw, hqt⟩ := H.waits w hw
    by_cases h : q.pid = pid
    · exact ⟨f q, mem_modify.mpr ⟨q, hq, .inl ⟨h, rfl⟩⟩, (hpid q).trans hqw, hthread q hq h hqt⟩
    · exact ⟨q, mem_modify.mpr ⟨q, hq, .inr ⟨h, rfl⟩⟩, hqw, hqt⟩
  single := H.single

theorem Invariant.boot {root : Pcb} (hroot : IsRoot root) : Invariant (boot root) where
  nodup := (PidsOk.single root).nodup
  fresh := (PidsOk.single root).fresh
  pcbs p hp := by
    cases List.mem_singleton.mp hp
    constructor <;>
      simp [System.reaped, Kernel.boot, hroot.state, hroot.main_thread, hroot.untraced]
  zombies t ht := nomatch ht
  past i hi := nomatch hi
  once := List.nodup_nil
  waits w hw := nomatch hw
  single := List.nodup_nil

/-! ## One lemma for each call -/

theorem System.caller_eq_some (h : s.caller pid = some p) :
    p ∈ s.procs.proc_list ∧ p.pid = pid ∧ p.state ≠ .ZOMBIE := by
  obtain ⟨hf, hp⟩ := Option.filter_eq_some_iff.mp h
  obtain ⟨hmem, hpid⟩ := find_proc_by_pid_eq_some hf
  simp only [Bool.and_eq_true, decide_eq_true_eq] at hp
  exact ⟨hmem, by exact_mod_cast hpid, hp.1⟩

/-- A PCB with the next pid at the end of the list. -/
theorem Invariant.append (H : Invariant s) (hpid : p.pid = s.procs.pid_current)
    (hok : PcbOk s.reaped p) :
    Invariant { s with
      procs :=
        { proc_list := s.procs.proc_list ++ [p], pid_current := s.procs.pid_current + 1 } } where
  nodup := (H.pids.append hpid).nodup
  fresh := (H.pids.append hpid).fresh
  pcbs q hq := by
    rcases List.mem_append.mp hq with hq | hq
    · exact H.pcbs q hq
    · exact List.mem_singleton.mp hq ▸ hok
  zombies := H.zombies
  past i hi := Nat.lt_succ_of_lt (H.past i hi)
  once := H.once
  waits w hw := by
    obtain ⟨q, hq, h⟩ := H.waits w hw
    exact ⟨q, List.mem_append_left _ hq, h⟩
  single := H.single

theorem Invariant.fork (H : Invariant s) {pgtable : Word} {pages : List Word}
    (h : do_fork s p pgtable pages = some s') : Invariant s' := by
  simp only [do_fork, new_process, Option.bind_eq_bind, Option.bind_eq_some_iff, Option.pure_def,
    Option.some.injEq] at h
  obtain ⟨name, -, rfl⟩ := h
  have hnew : s.procs.pid_current ∉ s.reaped := fun h => lt_irrefl _ (H.past _ h)
  rw [modify_append fun q hq => ne_of_lt (H.fresh q hq)]
  refine H.append rfl ?_
  constructor <;> simp [Pcb.start, Pcb.inherit, hnew]

theorem Invariant.exit (H : Invariant s) {status : Word}
    (h : do_exit s p status = some s') : Invariant s' := by
  simp only [do_exit, Option.ite_none_left_eq_some, Option.some.injEq] at h
  obtain ⟨-, rfl⟩ := h
  refine H.modify (fun q => rfl) (fun q hq hqp => ?_) (fun q hq hqp hthread => ?_)
  · have hok := H.pcbs q hq
    exact ⟨hok.untraced, by simp [Pcb.exit], by simp [Pcb.exit], by
      simpa [Pcb.exit] using hok.reaped_iff⟩
  · simpa [Pcb.exit] using hthread

theorem Invariant.schedule (H : Invariant s) {state : ProcState}
    (hz : ∀ q ∈ s.procs.proc_list, q.pid = pid → q.state ≠ .ZOMBIE) (hstate : state ≠ .ZOMBIE) :
    Invariant { s with procs := s.procs.modify pid fun pcb => { pcb with state } } := by
  refine H.modify (fun q => rfl) (fun q hq hqp => ?_) (fun q hq hqp hthread => hthread)
  have hok := H.pcbs q hq
  have hthread : q.main_thread ≠ none := fun h => hz q hq hqp (hok.zombie h)
  refine ⟨hok.untraced, fun tcb h => ?_, fun h => absurd h hthread, hok.reaped_iff⟩
  have := hok.thread tcb h
  simp_all

/-- A PCB that no call waits for can leave the list. -/
theorem Invariant.remove (H : Invariant s) (hw : ∀ w ∈ s.waits, w.child ≠ pid) :
    Invariant { s with procs := s.procs.remove_proc pid } where
  nodup := (H.pids.remove_proc pid).nodup
  fresh := (H.pids.remove_proc pid).fresh
  pcbs p hp := H.pcbs p (remove_proc_sublist.subset hp)
  zombies := H.zombies
  past := H.past
  once := H.once
  waits w hw' := by
    obtain ⟨q, hq, hqw, hthread⟩ := H.waits w hw'
    refine ⟨q, (List.mem_eraseP_of_neg ?_).mpr hq, hqw, hthread⟩
    simpa [hqw] using hw w hw'
  single := H.single

/-- The page tables of a zombie are released and its PCB loses the thread. -/
theorem Invariant.teardown (H : Invariant s) (hc : child ∈ s.procs.proc_list)
    (hz : child.state = .ZOMBIE) (hthread : child.main_thread ≠ none)
    (hw : ∀ w ∈ s.waits, w.child ≠ child.pid) :
    Invariant { thread_join s child with
      teardowns := s.teardowns ++ [⟨child.pid, child.state⟩] } := by
  have hnew : child.pid ∉ s.reaped := fun h => hthread ((H.pcbs child hc).reaped_iff.mp h)
  have hreaped : ({ thread_join s child with
      teardowns := s.teardowns ++ [⟨child.pid, child.state⟩] } : System).reaped =
      s.reaped ++ [child.pid] := by
    simp [System.reaped]
  have hpids : (thread_join s child).procs.PidsOk := H.pids.modify fun _ => rfl
  constructor
  case nodup => exact hpids.nodup
  case fresh => exact hpids.fresh
  case pcbs =>
    intro p hp
    rw [hreaped]
    obtain ⟨q, hq, ⟨hpid, rfl⟩ | ⟨hpid, rfl⟩⟩ := mem_modify.mp hp
    · cases H.eq_of_pid hq hc hpid
      exact ⟨(H.pcbs child hc).untraced, nofun, fun _ => hz, by simp [Pcb.detach]⟩
    · have hok := H.pcbs p hq
      exact ⟨hok.untraced, hok.thread, hok.zombie, by simp [hok.reaped_iff, hpid]⟩
  case zombies =>
    intro t ht
    rcases List.mem_append.mp ht with ht | ht
    · exact H.zombies t ht
    · cases List.mem_singleton.mp ht
      exact hz
  case past =>
    intro i hi
    rw [hreaped] at hi
    rcases List.mem_append.mp hi with hi | hi
    · exact H.past i hi
    · exact List.mem_singleton.mp hi ▸ H.fresh child hc
  case once =>
    rw [hreaped]
    exact List.nodup_append_comm.mp (List.nodup_cons.mpr ⟨hnew, H.once⟩)
  case waits =>
    intro w hw'
    obtain ⟨q, hq, hqw, hqt⟩ := H.waits w hw'
    exact ⟨q, mem_modify.mpr ⟨q, hq, .inr ⟨hqw ▸ hw w hw', rfl⟩⟩, hqw, hqt⟩
  case single => exact H.single

/-- The end of a call on a zombie that no other call waits for. -/
theorem Invariant.leave (H : Invariant s) (hc : child ∈ s.procs.proc_list)
    (hz : child.state = .ZOMBIE) (hthread : child.main_thread ≠ none)
    (hw : ∀ w ∈ s.waits, w.child ≠ child.pid) (wstatus flags : Bool) :
    Invariant (do_waitpid_leave (thread_join s child) child wstatus flags).2 := by
  have htrace := (H.pcbs child hc).untraced
  simp only [do_waitpid_leave, hz, htrace, decide_true, Bool.and_self, if_true]
  apply Invariant.irqs
  have ht := H.teardown hc hz hthread hw
  by_cases hp : ((thread_join s child).procs.find_proc_by_parent child.pid).isNone
  · simpa [clean_proc, hp, hz] using ht.remove hw
  · simpa [clean_proc, hp, hz] using ht

theorem Invariant.block (H : Invariant s) (hc : child ∈ s.procs.proc_list)
    (hthread : child.main_thread ≠ none) (hw : ∀ w ∈ s.waits, w.child ≠ child.pid)
    (hwait : w.child = child.pid) : Invariant { s with waits := s.waits ++ [w] } where
  nodup := H.nodup
  fresh := H.fresh
  pcbs := H.pcbs
  zombies := H.zombies
  past := H.past
  once := H.once
  waits v hv := by
    rcases List.mem_append.mp hv with hv | hv
    · exact H.waits v hv
    · cases List.mem_singleton.mp hv
      exact ⟨child, hc, hwait.symm, hthread⟩
  single := by
    rw [List.map_append, List.map_singleton]
    refine List.nodup_append_comm.mp (List.nodup_cons.mpr ⟨fun h => ?_, H.single⟩)
    obtain ⟨v, hv, hvw⟩ := List.mem_map.mp h
    exact hw v hv (hvw.trans hwait)

/-- A call that is no longer blocked. -/
theorem Invariant.unblock (H : Invariant s) (w : Wait) :
    Invariant { s with waits := s.waits.erase w } :=
  ⟨H.nodup, H.fresh, H.pcbs, H.zombies, H.past, H.once,
    fun v hv => H.waits v (List.mem_of_mem_erase hv),
    H.single.sublist (List.erase_sublist.map _)⟩

/-- A child whose thread can be joined is a zombie. -/
theorem Invariant.finished (H : Invariant s) (hc : child ∈ s.procs.proc_list)
    (hthread : child.main_thread ≠ none) (hjoin : child.main_thread ≠ some { finished := false }) :
    child.state = .ZOMBIE := by
  obtain ⟨tcb, ht⟩ := Option.ne_none_iff_exists'.mp hthread
  refine ((H.pcbs child hc).thread tcb ht).mp ?_
  cases hf : tcb.finished with
  | true => rfl
  | false =>
    rw [ht] at hjoin
    exact absurd (congrArg some (by cases tcb; simp_all)) hjoin

theorem System.target_mem {i : Int} (h : s.target i = some child) :
    child ∈ s.procs.proc_list := by
  unfold System.target at h
  split at h
  · exact (find_proc_zombie_to_clean_eq_some h).1
  · exact (find_proc_by_pid_eq_some h).1

/-! ## The paths through `do_waitpid` -/

theorem do_waitpid_enter_eq (s : System) (i : Int) (wstatus nohang : Bool)
    (h : s.target i = some child) :
    do_waitpid_enter s i wstatus nohang =
      do_waitpid_child { s with irqs := false } child nohang := by
  unfold System.target at h
  by_cases hi : i = -1 <;> simp only [hi, if_true, if_false] at h <;>
    simp [do_waitpid_enter, hi, h]

/-- An untraced child that is not blocked is joined. -/
theorem do_waitpid_child_eq_joins (s : System) {nohang : Bool}
    (htrace : child.ptrace_pending_req = .NO_REQUEST) (hwait : child.state ≠ .WAITING)
    (hz : nohang = true → child.state = .ZOMBIE) :
    do_waitpid_child s child nohang = .joins child s := by
  have hn : ¬(nohang = true ∧ ¬child.state = .ZOMBIE) := fun h => h.2 (hz h.1)
  simp [do_waitpid_child, hn, htrace, hwait]

variable {caller : Nat} {i : Int} {wstatus nohang : Bool}

/-- Without a child nothing changes but the interrupt flag. -/
theorem do_waitpid_of_none (caller : Nat) (wstatus nohang : Bool) (h : s.target i = none) :
    ∃ r b, do_waitpid s caller i wstatus nohang = (some r, { s with irqs := b }) ∧
      r.value = -1 ∧ r.errno = some .ECHILD ∧
        ∀ w ∈ r.wstatus, wstatus = true ∧ w = ~~~0x7f := by
  unfold System.target at h
  by_cases hi : i = -1 <;> simp only [hi, if_true, if_false] at h <;>
    cases wstatus <;> simp [do_waitpid, do_waitpid_enter, hi, h]

theorem do_waitpid_of_nohang (caller : Nat) (wstatus : Bool) (h : s.target i = some child)
    (hz : child.state ≠ .ZOMBIE) :
    do_waitpid s caller i wstatus true = (some { value := 0 }, { s with irqs := false }) := by
  rw [do_waitpid, do_waitpid_enter_eq s i wstatus true h]
  simp [do_waitpid_child, hz]

/-- The call blocks while the thread of the child runs. -/
theorem do_waitpid_of_running (caller : Nat) (wstatus : Bool) (h : s.target i = some child)
    (hj : do_waitpid_child { s with irqs := false } child nohang =
      .joins child { s with irqs := false })
    (hrun : child.main_thread = some { finished := false }) :
    do_waitpid s caller i wstatus nohang = (none, { s with
      waits := s.waits ++ [{ caller, child := child.pid, wstatus, flags := s.irqs }]
      irqs := true }) := by
  rw [do_waitpid, do_waitpid_enter_eq s i wstatus nohang h, hj]
  simp [hrun]

theorem do_waitpid_of_finished (caller : Nat) (wstatus : Bool) (h : s.target i = some child)
    (hj : do_waitpid_child { s with irqs := false } child nohang =
      .joins child { s with irqs := false })
    (hrun : child.main_thread ≠ some { finished := false }) :
    do_waitpid s caller i wstatus nohang =
      Prod.map some id (do_waitpid_leave (thread_join { s with irqs := false } child) child
        wstatus s.irqs) := by
  rw [do_waitpid, do_waitpid_enter_eq s i wstatus nohang h, hj]
  simp [hrun, Prod.map]

theorem Invariant.waitpid (H : Invariant s) (hc : Careful s (.waitpid caller i wstatus nohang)) :
    Invariant (do_waitpid s caller i wstatus nohang).2 := by
  cases ht : s.target i with
  | none =>
    obtain ⟨r, b, hr, -⟩ := do_waitpid_of_none caller wstatus nohang ht
    rw [hr]
    exact H.irqs b
  | some child =>
    have hmem := System.target_mem ht
    have htrace := (H.pcbs child hmem).untraced
    by_cases hn : nohang = true ∧ child.state ≠ .ZOMBIE
    · obtain ⟨rfl, hz⟩ := hn
      rw [do_waitpid_of_nohang caller wstatus ht hz]
      exact H.irqs false
    · obtain ⟨hwait, hthread, hw⟩ := (hc child ht).resolve_left hn
      have hj := do_waitpid_child_eq_joins { s with irqs := false } htrace hwait
        fun h => not_not.mp fun hz => hn ⟨h, hz⟩
      by_cases hrun : child.main_thread = some { finished := false }
      · rw [do_waitpid_of_running caller wstatus ht hj hrun]
        exact (H.block hmem hthread hw rfl).irqs true
      · rw [do_waitpid_of_finished caller wstatus ht hj hrun]
        exact (H.irqs false).leave hmem (H.finished hmem hthread hrun) hthread hw wstatus s.irqs

theorem Invariant.resume (H : Invariant s) (hw : w ∈ s.waits)
    (h : do_waitpid_resume s w = some (r, s')) : Invariant s' := by
  simp only [do_waitpid_resume, Option.bind_eq_bind, Option.bind_eq_some_iff,
    Option.ite_none_left_eq_some, Option.pure_def, Option.some.injEq] at h
  obtain ⟨child, hfind, hrun, h⟩ := h
  obtain ⟨hmem, hpid⟩ := find_proc_by_pid_eq_some hfind
  have hchild : child.pid = w.child := by exact_mod_cast hpid
  obtain ⟨q, hq, hqw, hthread⟩ := H.waits w hw
  cases H.eq_of_pid hq hmem (hqw.trans hchild.symm)
  have hother : ∀ v ∈ s.waits.erase w, v.child ≠ child.pid := by
    intro v hv hvc
    obtain ⟨hne, hv⟩ := (H.single.of_map _).mem_erase_iff.mp hv
    exact hne (List.inj_on_of_nodup_map H.single hv hw (hvc.trans hchild))
  have hleave := ((H.unblock w).irqs false).leave hmem (H.finished hmem hthread hrun) hthread
    hother w.wstatus w.flags
  rw [h] at hleave
  exact hleave

theorem Invariant.step (H : Invariant s) {c : Call} (hc : Careful s c)
    (h : step s c = some s') : Invariant s' := by
  cases c with
  | fork caller pgtable pages =>
    obtain ⟨parent, -, h⟩ := Option.bind_eq_some_iff.mp h
    exact H.fork h
  | exit caller exit_status =>
    obtain ⟨pcb, hpcb, h⟩ := Option.bind_eq_some_iff.mp h
    exact H.exit h
  | waitpid caller pid wstatus nohang =>
    obtain ⟨-, -, h⟩ := Option.bind_eq_some_iff.mp h
    cases h
    exact H.waitpid hc
  | resume caller =>
    obtain ⟨w, hw, h⟩ := Option.bind_eq_some_iff.mp h
    obtain ⟨⟨r, t⟩, hr, h⟩ := Option.bind_eq_some_iff.mp h
    cases h
    exact H.resume (List.mem_of_find?_eq_some hw) hr
  | schedule pid state =>
    obtain ⟨pcb, hpcb, h⟩ := Option.bind_eq_some_iff.mp h
    obtain ⟨hmem, hpid⟩ := find_proc_by_pid_eq_some hpcb
    simp only [Option.pure_def, Option.ite_none_left_eq_some, not_or, Option.some.injEq] at h
    obtain ⟨⟨hz, hstate, -⟩, rfl⟩ := h
    refine H.schedule (fun q hq hqp => ?_) hstate
    cases H.eq_of_pid hq hmem (hqp.trans (by exact_mod_cast hpid.symm))
    exact hz

theorem Invariant.run {calls : List Call} (H : Invariant s) (hc : CarefulRun s calls)
    (h : run s calls = some s') : Invariant s' := by
  induction calls generalizing s with
  | nil =>
    cases h
    exact H
  | cons c calls ih =>
    rw [Kernel.run, List.foldlM_cons] at h
    obtain ⟨t, ht, h⟩ := Option.bind_eq_some_iff.mp h
    exact ih (H.step hc.1 ht) (hc.2 t ht) h

/-- A cleaned zombie that is still in the list is cleaned once more and its pid returned. -/
theorem Invariant.waitpid_kept (H : Invariant s) (h : s.target i = some child)
    (hr : child.pid ∈ s.reaped) :
    (do_waitpid s caller i wstatus nohang).1.map Ret.value = some (child.pid : Int) := by
  have hok := H.pcbs child (System.target_mem h)
  have hthread := hok.reaped_iff.mp hr
  have hz := hok.zombie hthread
  have hj := do_waitpid_child_eq_joins { s with irqs := false } hok.untraced
    (hz ▸ by decide) fun _ : nohang = true => hz
  rw [do_waitpid_of_finished caller wstatus h hj (hthread ▸ nofun)]
  simp [do_waitpid_leave, hz, hok.untraced]

/-- A call answers -1 and leaves everything but the interrupt flag as it was. -/
def AnswersUnknown (s : System) (out : Option Ret × System) : Prop :=
  out.1.map Ret.value = some (-1) ∧ out.2 = { s with irqs := out.2.irqs }

theorem Invariant.answersUnknown_iff (H : Invariant s) (hr : pid ∈ s.reaped) (caller : Nat)
    (wstatus nohang : Bool) :
    AnswersUnknown s (do_waitpid s caller pid wstatus nohang) ↔
      Careful s (.waitpid caller pid wstatus nohang) := by
  have htarget : ∀ q, s.target pid = some q → q.pid = pid := by
    intro q hq
    rw [System.target, if_neg (by omega)] at hq
    exact_mod_cast (find_proc_by_pid_eq_some hq).2
  constructor
  · rintro ⟨hvalue, -⟩ q hq
    rw [H.waitpid_kept hq (htarget q hq ▸ hr), Option.some.injEq] at hvalue
    omega
  · intro hc
    cases ht : s.target pid with
    | none =>
      obtain ⟨r, b, hret, hvalue, -⟩ := do_waitpid_of_none caller wstatus nohang ht
      rw [hret]
      exact ⟨congrArg some hvalue, rfl⟩
    | some q =>
      have hok := H.pcbs q (System.target_mem ht)
      have hthread := hok.reaped_iff.mp (htarget q ht ▸ hr)
      rcases hc q ht with ⟨-, hz⟩ | ⟨-, hne, -⟩
      · exact absurd (hok.zombie hthread) hz
      · exact absurd hthread hne

end

/-- The page tables of every process are released when it is a zombie, and at most once. -/
structure TornDownOnce (s : System) : Prop where
  zombies : ∀ t ∈ s.teardowns, t.state = .ZOMBIE
  once : (s.teardowns.map Teardown.pid).Nodup

/-- In a run whose calls of `do_waitpid` are all careful, page tables are released after the exit
and once; and a further call on a pid that has been reaped is answered by -1 exactly if it is
careful too, that is, if the PCB has not been kept for its children. -/
theorem run_tornDownOnce (root : Pcb) (hroot : IsRoot root) (calls : List Call) (s : System)
    (h : run (boot root) calls = some s) (hc : CarefulRun (boot root) calls) :
    TornDownOnce s ∧ ∀ t ∈ s.teardowns, ∀ caller wstatus nohang,
      (AnswersUnknown s (do_waitpid s caller t.pid wstatus nohang) ↔
        Careful s (.waitpid caller t.pid wstatus nohang)) := by
  have H := (Invariant.boot hroot).run hc h
  exact ⟨⟨H.zombies, H.once⟩, fun t ht => H.answersUnknown_iff (List.mem_map_of_mem ht)⟩

/-- A root process as `create_root_process` leaves it. -/
def rootProc : Pcb := { pid := 1, state := .READY, main_thread := some {} }

/-- The root process forks and waits for the child, which exits; then it asks once more. -/
theorem run_tornDownOnce_fork :
    ∃ s, run (boot rootProc) [.fork 1 0 [], .waitpid 1 2 false false, .exit 2 7, .resume 1] =
        some s ∧ s.reaped = [2] ∧ TornDownOnce s ∧
      AnswersUnknown s (do_waitpid s 1 2 false false) := by
  have hc : CarefulRun (boot rootProc)
      [.fork 1 0 [], .waitpid 1 2 false false, .exit 2 7, .resume 1] := by
    refine ⟨trivial, fun s1 h1 => ⟨fun child h => .inr ?_, fun s2 h2 => ?_⟩⟩
    · obtain rfl := Option.some.inj h1
      obtain rfl := Option.some.inj h
      decide
    · exact ⟨trivial, fun s3 h3 => ⟨trivial, fun s4 h4 => trivial⟩⟩
  obtain ⟨s, hs⟩ : ∃ s, run (boot rootProc)
      [.fork 1 0 [], .waitpid 1 2 false false, .exit 2 7, .resume 1] = some s := ⟨_, rfl⟩
  obtain ⟨honce, hlate⟩ := run_tornDownOnce rootProc ⟨rfl, rfl, rfl, rfl⟩ _ s hs hc
  obtain rfl := Option.some.inj hs
  refine ⟨_, rfl, rfl, honce, (hlate ⟨2, .ZOMBIE⟩ (by decide) 1 false false).mpr fun child h => ?_⟩
  exact nomatch h

/-- A child in `PROC_STATE_WAITING` loses its page tables while it is alive. -/
theorem not_tornDownOnce_waiting :
    ∃ s, run (boot rootProc) [.fork 1 0 [], .schedule 2 .WAITING, .waitpid 1 2 false false] =
        some s ∧ ¬TornDownOnce s := by
  refine ⟨_, rfl, fun h => ?_⟩
  exact absurd (h.zombies ⟨2, .WAITING⟩ (by decide)) (by decide)

end SyeLabs.Kernel
