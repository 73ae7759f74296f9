import SyeLabs.Kernel.Reaping

/-!
# Queries of the process table

`do_renice` and `dump_proc` follow the pointer to the main thread of a PCB. A process that has been
joined but has children of its own stays in the list without a thread, and an unknown pid has no
PCB at all.
-/

namespace SyeLabs.Kernel
open ProcTable

/-- What the queries read and write of a main thread. -/
structure Thread where
  tid : Int
  prio : Word
  name : CString

/-- The main threads, by the pids of their processes. -/
abbrev Threads := Nat → Thread

/-- `none` is an access through NULL. -/
def do_renice (t : ProcTable) (threads : Threads) (pid new_prio : Word) : Option (Int × Threads) :=
  if (pid.toNat : Int) < 0 ∨ new_prio.toNat < 1 then some (-1, threads)
  else do
    let pcb ← t.find_proc_by_pid pid.toNat
    let _ ← pcb.main_thread
    return (0, Function.update threads pcb.pid { threads pcb.pid with prio := new_prio })

/-- A line of the list of processes. -/
structure DumpLine where
  pid : Nat
  state : ProcState
  main_tid : Int
  name : CString

/-- `printk` of one entry; the name is read without a look at the pointer. -/
def dumpEntry (threads : Threads) (pcb : Pcb) : Option DumpLine := do
  let main_tid := if pcb.main_thread.isSome then (threads pcb.pid).tid else -1
  let _ ← pcb.main_thread
  return { pid := pcb.pid, state := pcb.state, main_tid, name := (threads pcb.pid).name }

def dump_proc (t : ProcTable) (threads : Threads) : Option (List DumpLine) :=
  t.proc_list.mapM (dumpEntry threads)

section
variable (t : ProcTable) (threads : Threads)

/-- There is a process of that pid, with a main thread. -/
def HasThread (pid : Word) : Prop := ∃ p ∈ t.proc_list, p.pid = pid.toNat ∧ p.main_thread.isSome

instance (pid : Word) : Decidable (HasThread t pid) :=
  inferInstanceAs (Decidable (∃ p ∈ t.proc_list, p.pid = pid.toNat ∧ p.main_thread.isSome))

/-- The priority of the main thread of the process is the new one, and nothing else has changed;
where there is no such thread or no such priority, the call fails. -/
structure Renices (pid new_prio : Word) : Prop where
  fails : new_prio = 0 ∨ ¬HasThread t pid → do_renice t threads pid new_prio = some (-1, threads)
  sets : new_prio ≠ 0 → HasThread t pid → ∃ threads', do_renice t threads pid new_prio =
    some (0, threads') ∧ threads' pid.toNat = { threads pid.toNat with prio := new_prio } ∧
      ∀ i, i ≠ pid.toNat → threads' i = threads i

/-- Every entry of the list is visited. -/
def Dumps : Prop :=
  ∃ lines, dump_proc t threads = some lines ∧ lines.map DumpLine.pid = t.proc_list.map Pcb.pid

end

/-! ## The pids in every run -/

section
variable {s s' : System} {w : Wait} {r : Ret} (P : s.procs.PidsOk)
include P

theorem ProcTable.PidsOk.thread_join (child : Pcb) : (thread_join s child).procs.PidsOk :=
  P.modify fun _ => rfl

theorem ProcTable.PidsOk.leave (child : Pcb) (wstatus flags : Bool) :
    (do_waitpid_leave s child wstatus flags).2.procs.PidsOk := by
  have hclean : (clean_proc s child).procs.PidsOk := by
    unfold clean_proc
    split
    · exact P.remove_proc child.pid
    · exact P
  unfold do_waitpid_leave
  split
  · exact hclean
  · split
    · exact P.modify fun _ => rfl
    · exact hclean

theorem ProcTable.PidsOk.waitpid (caller : Nat) (pid : Int) (wstatus nohang : Bool) :
    (do_waitpid s caller pid wstatus nohang).2.procs.PidsOk := by
  cases ht : s.target pid with
  | none =>
    obtain ⟨r, b, hout, -⟩ := do_waitpid_of_none caller wstatus nohang ht
    rw [hout]
    exact P
  | some child =>
    have P' : ({ s with irqs := false } : System).procs.PidsOk := P
    rw [do_waitpid, do_waitpid_enter_eq s pid wstatus nohang ht, do_waitpid_child]
    -- WNOHANG, a traced child, a child that is joined, and one in PROC_STATE_WAITING
    split_ifs
    · exact P'
    · dsimp only
      split
      · exact P'.modify fun _ => rfl
      · refine (ProcTable.PidsOk.thread_join ?_ _).leave _ wstatus s.irqs
        exact P'.modify fun _ => rfl
    · dsimp only
      split
      · exact P'
      · exact (P'.thread_join child).leave child wstatus s.irqs
    · exact P'.leave child wstatus s.irqs

theorem ProcTable.PidsOk.resume (h : do_waitpid_resume s w = some (r, s')) :
    s'.procs.PidsOk := by
  simp only [do_waitpid_resume, Option.bind_eq_bind, Option.bind_eq_some_iff,
    Option.ite_none_left_eq_some, Option.pure_def, Option.some.injEq] at h
  obtain ⟨child, -, -, h⟩ := h
  have P' : ({ s with waits := s.waits.erase w, irqs := false } : System).procs.PidsOk := P
  have hs : (do_waitpid_leave (Kernel.thread_join _ child) child w.wstatus w.flags).2 = s' :=
    congrArg Prod.snd h
  exact hs ▸ (P'.thread_join child).leave child w.wstatus w.flags

theorem ProcTable.PidsOk.fork {parent : Pcb} {pgtable : Word} {pages : List Word}
    (h : do_fork s parent pgtable pages = some s') : s'.procs.PidsOk := by
  simp only [do_fork, new_process, Option.bind_eq_bind, Option.bind_eq_some_iff, Option.pure_def,
    Option.some.injEq] at h
  obtain ⟨name, -, rfl⟩ := h
  exact (P.append rfl).modify fun _ => rfl

theorem ProcTable.PidsOk.step {c : Call} (h : Kernel.step s c = some s') :
    s'.procs.PidsOk := by
  cases c with
  | fork caller pgtable pages =>
    obtain ⟨parent, -, h⟩ := Option.bind_eq_some_iff.mp h
    exact P.fork h
  | exit caller exit_status =>
    obtain ⟨pcb, -, h⟩ := Option.bind_eq_some_iff.mp h
    simp only [do_exit, Option.ite_none_left_eq_some, Option.some.injEq] at h
    obtain ⟨-, rfl⟩ := h
    exact P.modify fun _ => rfl
  | waitpid caller pid wstatus nohang =>
    obtain ⟨-, -, h⟩ := Option.bind_eq_some_iff.mp h
    cases h
    exact P.waitpid caller pid wstatus nohang
  | resume caller =>
    obtain ⟨w, -, h⟩ := Option.bind_eq_some_iff.mp h
    obtain ⟨⟨r, t⟩, hr, h⟩ := Option.bind_eq_some_iff.mp h
    cases h
    exact P.resume hr
  | schedule pid state =>
    obtain ⟨pcb, -, h⟩ := Option.bind_eq_some_iff.mp h
    simp only [Option.pure_def, Option.ite_none_left_eq_some, Option.some.injEq] at h
    obtain ⟨-, rfl⟩ := h
    exact P.modify fun _ => rfl

theorem ProcTable.PidsOk.run {calls : List Call} (h : Kernel.run s calls = some s') :
    s'.procs.PidsOk := by
  induction calls generalizing s with
  | nil =>
    cases h
    exact P
  | cons c calls ih =>
    obtain ⟨s1, h1, h⟩ := Option.bind_eq_some_iff.mp h
    exact ih (P.step h1) h

end

/-! ## When the queries are safe -/

section
variable {t : ProcTable} {threads : Threads} {pid new_prio : Word} {p : Pcb}

theorem do_renice_zero (t : ProcTable) (threads : Threads) (pid : Word) :
    do_renice t threads pid 0 = some (-1, threads) := if_pos (.inr (by decide))

theorem do_renice_of_ne_zero (t : ProcTable) (threads : Threads) (pid : Word)
    (h : new_prio ≠ 0) :
    do_renice t threads pid new_prio = (t.find_proc_by_pid pid.toNat).bind fun pcb =>
      pcb.main_thread.map fun _ =>
        (0, Function.update threads pcb.pid { threads pcb.pid with prio := new_prio }) := by
  have hpos : ¬((pid.toNat : Int) < 0 ∨ new_prio.toNat < 1) := by
    rintro (h0 | h0)
    · omega
    · exact h (BitVec.eq_of_toNat_eq (by simpa using h0))
  rw [do_renice, if_neg hpos]
  cases t.find_proc_by_pid pid.toNat with
  | none => rfl
  | some pcb => cases h : pcb.main_thread <;> simp [h]

/-- The search finds the process, if its pid is nobody else's. -/
theorem ProcTable.PidsOk.find_proc_by_pid (P : t.PidsOk) (hp : p ∈ t.proc_list) :
    t.find_proc_by_pid p.pid = some p := by
  cases hfind : t.find_proc_by_pid p.pid with
  | none =>
    have hno := List.find?_eq_none.mp hfind p hp
    simp at hno
  | some q =>
    obtain ⟨hq, hpid⟩ := find_proc_by_pid_eq_some hfind
    rw [P.eq_of_pid hq hp (by exact_mod_cast hpid)]

theorem ProcTable.PidsOk.renices_iff (P : t.PidsOk) (threads : Threads) (pid new_prio : Word) :
    Renices t threads pid new_prio ↔ new_prio = 0 ∨ HasThread t pid := by
  constructor
  · intro R
    by_contra hno
    obtain ⟨h0, hthread⟩ := not_or.mp hno
    have hfail := R.fails (.inr hthread)
    rw [do_renice_of_ne_zero t threads pid h0] at hfail
    obtain ⟨pcb, hfind, hmap⟩ := Option.bind_eq_some_iff.mp hfail
    obtain ⟨tcb, htcb, -⟩ := Option.map_eq_some_iff.mp hmap
    obtain ⟨hmem, hpid⟩ := find_proc_by_pid_eq_some hfind
    exact hthread ⟨pcb, hmem, by exact_mod_cast hpid, by simp [htcb]⟩
  · intro h
    constructor
    case fails =>
      intro hfail
      have h0 : new_prio = 0 := hfail.elim id h.resolve_right
      rw [h0]
      exact do_renice_zero t threads pid
    case sets =>
      rintro h0 ⟨p, hp, hpid, hthread⟩
      obtain ⟨tcb, htcb⟩ := Option.isSome_iff_exists.mp hthread
      refine ⟨Function.update threads p.pid { threads p.pid with prio := new_prio }, ?_, ?_, ?_⟩
      · rw [do_renice_of_ne_zero t threads pid h0, ← hpid, P.find_proc_by_pid hp]
        simp [htcb]
      · rw [← hpid, Function.update_self]
      · intro i hi
        exact Function.update_of_ne (hpid ▸ hi) _ _

theorem dumpEntry_eq_some {line : DumpLine} (h : dumpEntry threads p = some line) :
    line.pid = p.pid ∧ p.main_thread.isSome := by
  simp only [dumpEntry, Option.bind_eq_bind, Option.pure_def, Option.bind_eq_some_iff,
    Option.some.injEq] at h
  obtain ⟨tcb, htcb, rfl⟩ := h
  exact ⟨rfl, by simp [htcb]⟩

theorem exists_dumpEntry (threads : Threads) (h : p.main_thread.isSome) :
    ∃ line, dumpEntry threads p = some line := by
  obtain ⟨tcb, htcb⟩ := Option.isSome_iff_exists.mp h
  exact ⟨_, by simp only [dumpEntry, htcb]; rfl⟩

/-- The walk gets to the end of the list exactly if it meets no NULL. -/
theorem dumps_iff (t : ProcTable) (threads : Threads) :
    Dumps t threads ↔ ∀ p ∈ t.proc_list, p.main_thread.isSome := by
  unfold Dumps dump_proc
  induction t.proc_list with
  | nil => exact iff_of_true ⟨[], rfl, rfl⟩ fun _ h => absurd h List.not_mem_nil
  | cons p l ih =>
    rw [List.forall_mem_cons, ← ih, List.mapM_cons]
    constructor
    · rintro ⟨lines, hlines, hpids⟩
      obtain ⟨line, hline, hrest⟩ := Option.bind_eq_some_iff.mp hlines
      obtain ⟨lines', hlines', heq⟩ := Option.bind_eq_some_iff.mp hrest
      cases heq
      exact ⟨(dumpEntry_eq_some hline).2, lines', hlines', (List.cons.inj hpids).2⟩
    · rintro ⟨hthread, lines, hlines, hpids⟩
      obtain ⟨line, hline⟩ := exists_dumpEntry threads hthread
      refine ⟨line :: lines, by rw [hline, hlines]; rfl, ?_⟩
      rw [List.map_cons, List.map_cons, hpids, (dumpEntry_eq_some hline).1]

end

/-- In every run, `do_renice` does what it should exactly if the priority is 0 or there is a process
of that pid with a main thread; and `dump_proc` exactly if all processes have one. -/
theorem run_queries_iff (root : Pcb) (calls : List Call) (s : System)
    (hrun : run (boot root) calls = some s) (threads : Threads) :
    (∀ pid new_prio, Renices s.procs threads pid new_prio ↔
      new_prio = 0 ∨ HasThread s.procs pid) ∧
    (Dumps s.procs threads ↔ ∀ p ∈ s.procs.proc_list, p.main_thread.isSome) := by
  have P : s.procs.PidsOk := (PidsOk.single root).run hrun
  exact ⟨P.renices_iff threads, dumps_iff s.procs threads⟩

/-- The root process forks, and runs on. -/
theorem run_queries_iff_fork : ∃ s, run (boot rootProc) [.fork 1 0 []] = some s ∧
    ∀ threads, Renices s.procs threads 2 5 ∧ Dumps s.procs threads := by
  obtain ⟨s, hs⟩ : ∃ s, run (boot rootProc) [.fork 1 0 []] = some s := ⟨_, rfl⟩
  have h := run_queries_iff rootProc _ s hs
  obtain rfl := Option.some.inj hs
  refine ⟨_, rfl, fun threads => ?_⟩
  obtain ⟨hrenice, hdump⟩ := h threads
  exact ⟨(hrenice 2 5).mpr (.inr (by decide)), hdump.mpr (by decide)⟩

/-- Process 2 has been reaped and stays for the sake of process 3; there has never been a process
77. -/
theorem not_renices_cleaned : ∃ s, run (boot rootProc)
    [.fork 1 0 [], .fork 2 0 [], .exit 2 0, .waitpid 1 2 false false] = some s ∧
    ∀ threads, do_renice s.procs threads 2 5 = none ∧ ¬Renices s.procs threads 2 5 ∧
      do_renice s.procs threads 77 5 = none ∧ ¬Renices s.procs threads 77 5 ∧
      dump_proc s.procs threads = none ∧ ¬Dumps s.procs threads := by
  refine ⟨_, rfl, fun threads => ⟨rfl, fun R => ?_, rfl, fun R => ?_, rfl, ?_⟩⟩
  · exact absurd (R.fails (.inr (by decide))) (Option.some_ne_none _).symm
  · exact absurd (R.fails (.inr (by decide))) (Option.some_ne_none _).symm
  · rintro ⟨lines, hlines, -⟩
    exact absurd hlines.symm (Option.some_ne_none _)

/-- Where no call has gone wrong, the processes without a thread are those that have been reaped and
are kept. -/
theorem run_dumps_iff (root : Pcb) (hroot : IsRoot root) (calls : List Call) (s : System)
    (hrun : run (boot root) calls = some s) (hc : CarefulRun (boot root) calls)
    (threads : Threads) :
    Dumps s.procs threads ↔ ∀ p ∈ s.procs.proc_list, p.pid ∉ s.reaped := by
  have H := (Invariant.boot hroot).run hc hrun
  rw [dumps_iff]
  refine forall_congr' fun p => forall_congr' fun hp => ?_
  rw [(H.pcbs p hp).reaped_iff, Option.isSome_iff_ne_none]

end SyeLabs.Kernel
