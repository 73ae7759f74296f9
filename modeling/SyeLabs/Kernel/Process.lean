import Mathlib.Data.List.Basic
import Mathlib.Tactic.Common
import SyeLabs.Theory.Bytes

/-!
# Process control blocks and the process list

The part of `process.c` that works on `proc_list` alone. A PCB is named by its pid, which no
other PCB ever gets: the source assumes that `pid_current` does not wrap. Pointers between PCBs
are pids, with `none` for NULL.
-/

namespace SyeLabs.Kernel

def PROC_NAME_LEN : Nat := 80

inductive Errno where
  | ECHILD
  | EINVAL
  | ENOENT
  | ENOMEM
  deriving DecidableEq, Repr

/-- A NUL-terminated string, without its terminator. -/
abbrev CString := {s : List Byte // (0 : Byte) ∉ s}

/-- The contents of the field `name`, with room for the terminator. -/
abbrev ProcName := {s : List Byte // (0 : Byte) ∉ s ∧ s.length < PROC_NAME_LEN}

/-- The field before anything is written to it. -/
def ProcName.empty : ProcName := ⟨[], by decide⟩

/-- `strcpy` or `sprintf` into the field `name`; `none` if it runs into the following fields. -/
def ProcName.ofString (s : CString) : Option ProcName :=
  if h : s.val.length < PROC_NAME_LEN then some ⟨s, s.property, h⟩ else none

inductive ProcState where
  | NEW
  | READY
  | RUNNING
  | WAITING
  | ZOMBIE
  deriving DecidableEq, Repr

/-- The requests that `do_waitpid` tells apart. -/
inductive PtraceRequest where
  | NO_REQUEST
  | TRACEME
  | other
  deriving DecidableEq, Repr

/-- The main thread, as long as its PCB refers to it. -/
structure Tcb where
  /-- `thread_exit` has been called. -/
  finished : Bool := false
  deriving DecidableEq, Repr

structure Pcb where
  pid : Nat
  name : ProcName := .empty
  bin_image_entry : Word := 0
  stack_top : Word := 0
  heap_base : Word := 0
  heap_pointer : Word := 0
  page_count : Word := 0
  page_list : List Word := []
  pgtable : Word := 0
  exit_status : Word := 0
  parent : Option Nat := none
  main_thread : Option Tcb := none
  state : ProcState := .NEW
  ptrace_pending_req : PtraceRequest := .NO_REQUEST
  deriving DecidableEq

/-- `proc_list` and the counter of pids. -/
structure ProcTable where
  proc_list : List Pcb := []
  pid_current : Nat := 1
  deriving DecidableEq

namespace ProcTable

def find_proc_by_pid (t : ProcTable) (pid : Int) : Option Pcb :=
  t.proc_list.find? fun pcb => (pcb.pid : Int) = pid

def find_proc_zombie_to_clean (t : ProcTable) : Option Pcb :=
  t.proc_list.find? fun pcb => pcb.state = .ZOMBIE && pcb.main_thread.isSome

def find_proc_by_parent (t : ProcTable) (parent : Nat) : Option Pcb :=
  t.proc_list.find? fun pcb => pcb.parent = some parent

def remove_proc (t : ProcTable) (pid : Nat) : ProcTable :=
  { t with proc_list := t.proc_list.eraseP fun pcb => pcb.pid = pid }

/-- An assignment to fields of one PCB. -/
def modify (t : ProcTable) (pid : Nat) (f : Pcb → Pcb) : ProcTable :=
  { t with proc_list := t.proc_list.map fun pcb => if pcb.pid = pid then f pcb else pcb }

/-- `new_process`, once the first-level page table is there. -/
def new_process (t : ProcTable) (pgtable : Word) : Pcb × ProcTable :=
  let pcb : Pcb := { pid := t.pid_current, pgtable }
  (pcb, { proc_list := t.proc_list ++ [pcb], pid_current := t.pid_current + 1 })

end ProcTable

/-- The fields that `duplicate_process` takes over from the parent. -/
def Pcb.inherit (pcb parent : Pcb) : Pcb :=
  { pcb with
    page_count := parent.page_count
    parent := some parent.pid
    stack_top := parent.stack_top
    heap_base := parent.heap_base
    heap_pointer := parent.heap_pointer }

/-- `"%s_child_%d"`. -/
def childName (name : ProcName) (pid : Nat) : List Byte :=
  name.val ++ [95, 99, 104, 105, 108, 100, 95] ++ decimal pid

theorem zero_notMem_childName (name : ProcName) (pid : Nat) : (0 : Byte) ∉ childName name pid := by
  have hdigit : (0 : Byte) ∉ decimal pid := fun h => absurd (isDigit_decimal h) (by decide)
  simpa [childName] using ⟨name.property.1, hdigit⟩

def Pcb.childName (parent : Pcb) (pid : Nat) : CString :=
  ⟨Kernel.childName parent.name pid, zero_notMem_childName _ _⟩

/-- What is left to do for the child at the end of `do_fork`. -/
def Pcb.start (pcb : Pcb) (name : ProcName) : Pcb :=
  { pcb with
    name
    main_thread := some {}
    state := .READY }

/-- The PCB at the end of `do_exit`, whose last act is `thread_exit`. -/
def Pcb.exit (pcb : Pcb) (exit_status : Word) : Pcb :=
  { pcb with
    state := .ZOMBIE
    exit_status
    page_list := []
    main_thread := pcb.main_thread.map fun _ => { finished := true } }

/-! ## The list after an update -/

namespace ProcTable
variable {t : ProcTable} {pid : Nat} {f : Pcb → Pcb} {p : Pcb}

theorem mem_modify :
    p ∈ (t.modify pid f).proc_list ↔
      ∃ q ∈ t.proc_list, (q.pid = pid ∧ p = f q) ∨ (q.pid ≠ pid ∧ p = q) := by
  simp only [modify, List.mem_map]
  refine exists_congr fun q => and_congr_right fun _ => ?_
  by_cases h : q.pid = pid <;> simp [h, eq_comm]

theorem pids_modify (hf : ∀ q, (f q).pid = q.pid) :
    (t.modify pid f).proc_list.map Pcb.pid = t.proc_list.map Pcb.pid := by
  simp only [modify, List.map_map]
  refine List.map_congr_left fun q _ => ?_
  by_cases h : q.pid = pid <;> simp [h, hf]

/-- The assignments to a PCB that has just been put at the end of the list. -/
theorem modify_append {l : List Pcb} {n : Nat} (h : ∀ q ∈ l, q.pid ≠ p.pid) :
    ({ proc_list := l ++ [p], pid_current := n } : ProcTable).modify p.pid f =
      { proc_list := l ++ [f p], pid_current := n } := by
  have hl : (l.map fun q => if q.pid = p.pid then f q else q) = l := by
    rw [List.map_congr_left fun q hq => if_neg (h q hq), List.map_id']
  simp [modify, hl]

theorem find_proc_by_pid_eq_some {i : Int} (h : t.find_proc_by_pid i = some p) :
    p ∈ t.proc_list ∧ (p.pid : Int) = i :=
  ⟨List.mem_of_find?_eq_some h, by simpa using List.find?_some h⟩

theorem find_proc_zombie_to_clean_eq_some (h : t.find_proc_zombie_to_clean = some p) :
    p ∈ t.proc_list ∧ p.state = .ZOMBIE ∧ p.main_thread.isSome := by
  refine ⟨List.mem_of_find?_eq_some h, ?_⟩
  simpa [find_proc_zombie_to_clean] using List.find?_some h

theorem remove_proc_sublist : (t.remove_proc pid).proc_list.Sublist t.proc_list :=
  List.eraseP_sublist

/-- No pid is taken twice, and the next one is new. -/
structure PidsOk (t : ProcTable) : Prop where
  nodup : (t.proc_list.map Pcb.pid).Nodup
  fresh : ∀ p ∈ t.proc_list, p.pid < t.pid_current

theorem PidsOk.single (p : Pcb) :
    PidsOk { proc_list := [p], pid_current := p.pid + 1 } where
  nodup := List.nodup_singleton _
  fresh q hq := by
    rw [List.mem_singleton.mp hq]
    exact Nat.lt_succ_self _

section
variable (P : t.PidsOk)
include P

theorem PidsOk.eq_of_pid {q : Pcb} (hp : p ∈ t.proc_list) (hq : q ∈ t.proc_list)
    (h : p.pid = q.pid) : p = q := List.inj_on_of_nodup_map P.nodup hp hq h

theorem PidsOk.modify (hpid : ∀ q, (f q).pid = q.pid) : (t.modify pid f).PidsOk where
  nodup := by
    rw [pids_modify hpid]
    exact P.nodup
  fresh p hp := by
    obtain ⟨q, hq, ⟨-, rfl⟩ | ⟨-, rfl⟩⟩ := mem_modify.mp hp
    · rw [hpid]
      exact P.fresh q hq
    · exact P.fresh p hq

theorem PidsOk.append (hpid : p.pid = t.pid_current) :
    PidsOk { proc_list := t.proc_list ++ [p], pid_current := t.pid_current + 1 } where
  nodup := by
    rw [List.map_append, List.nodup_append]
    refine ⟨P.nodup, List.nodup_singleton _, fun a ha b hb => ?_⟩
    obtain ⟨q, hq, rfl⟩ := List.mem_map.mp ha
    cases List.mem_singleton.mp hb
    exact hpid ▸ ne_of_lt (P.fresh q hq)
  fresh q hq := by
    rcases List.mem_append.mp hq with hq | hq
    · exact Nat.lt_succ_of_lt (P.fresh q hq)
    · cases List.mem_singleton.mp hq
      exact hpid ▸ Nat.lt_succ_self _

theorem PidsOk.remove_proc (pid : Nat) : (t.remove_proc pid).PidsOk where
  nodup := P.nodup.sublist (remove_proc_sublist.map _)
  fresh p hp := P.fresh p (remove_proc_sublist.subset hp)

end

end ProcTable
end SyeLabs.Kernel
