import SyeLabs.Kernel.Process

/-!
# Reaping a child: `do_waitpid`

A call of `do_waitpid` is atomic up to `thread_join`, which blocks until the thread has
finished, and from there to its end. Between the two halves the other processes run. The release
of the page tables of a child is recorded with the state the child is in.
-/

namespace SyeLabs.Kernel

/-- The result of a call, the word written through `wstatus`, and `errno`. -/
structure Ret where
  value : Int
  wstatus : Option Word := none
  errno : Option Errno := none
  deriving DecidableEq

/-- A call of `do_waitpid` that is blocked in `thread_join`. -/
structure Wait where
  caller : Nat
  child : Nat
  wstatus : Bool
  flags : Bool
  deriving DecidableEq

/-- A call of `reset_root_pgtable(child->pgtable, true)`, with the state of the child. -/
structure Teardown where
  pid : Nat
  state : ProcState
  deriving DecidableEq

structure System where
  procs : ProcTable
  waits : List Wait := []
  teardowns : List Teardown := []
  /-- Local interrupts are enabled. -/
  irqs : Bool := true
  deriving DecidableEq

/-- How a call of `do_waitpid` goes on at `thread_join`. -/
inductive Entry where
  | returns (r : Ret) (s : System)
  | joins (child : Pcb) (s : System)
  | passes (child : Pcb) (s : System)

/-- From the choice of the child to `thread_join`. -/
def do_waitpid_child (s : System) (child : Pcb) (nohang : Bool) : Entry :=
  if nohang && child.state ≠ .ZOMBIE then .returns { value := 0 } s
  else if child.ptrace_pending_req ≠ .NO_REQUEST && child.ptrace_pending_req ≠ .TRACEME then
    .joins { child with state := .READY }
      { s with procs := s.procs.modify child.pid fun pcb => { pcb with state := .READY } }
  else if child.state ≠ .WAITING then .joins child s
  else .passes child s

/-- The first half; `wstatus` tells whether that pointer is not NULL, `nohang` whether `options`
has `WNOHANG`. The interrupts stay off on the path of an unknown pid. -/
def do_waitpid_enter (s : System) (pid : Int) (wstatus nohang : Bool) : Entry :=
  let flags := s.irqs
  let s := { s with irqs := false }
  if pid = -1 then
    match s.procs.find_proc_zombie_to_clean with
    | none => .returns { value := -1, errno := some .ECHILD } { s with irqs := flags }
    | some child => do_waitpid_child s child nohang
  else
    match s.procs.find_proc_by_pid pid with
    | none =>
      .returns
        { value := -1, wstatus := if wstatus then some (~~~0x7f) else none, errno := some .ECHILD }
        s
    | some child => do_waitpid_child s child nohang

def Pcb.detach (pcb : Pcb) : Pcb := { pcb with main_thread := none }

/-- The thread has finished, and its PCB loses it. -/
def thread_join (s : System) (child : Pcb) : System :=
  { s with procs := s.procs.modify child.pid Pcb.detach }

@[simp] theorem thread_join_waits (s : System) (child : Pcb) :
    (thread_join s child).waits = s.waits := rfl

@[simp] theorem thread_join_teardowns (s : System) (child : Pcb) :
    (thread_join s child).teardowns = s.teardowns := rfl

theorem thread_join_pids (s : System) (child : Pcb) :
    (thread_join s child).procs.proc_list.map Pcb.pid = s.procs.proc_list.map Pcb.pid :=
  ProcTable.pids_modify fun _ => rfl

/-- `reset_root_pgtable(child->pgtable, true)` and the removal of a PCB without children. -/
def clean_proc (s : System) (child : Pcb) : System :=
  { s with
    procs :=
      if (s.procs.find_proc_by_parent child.pid).isNone then s.procs.remove_proc child.pid
      else s.procs
    teardowns := s.teardowns ++ [⟨child.pid, child.state⟩] }

/-- `((char) child->exit_status) << 8`, with the unsigned `char` of ARM. -/
def exitStatus (child : Pcb) : Word := (child.exit_status &&& 0xff) <<< 8

/-- The second half, after the join or without one. -/
def do_waitpid_leave (s : System) (child : Pcb) (wstatus flags : Bool) : Ret × System :=
  if child.state = .ZOMBIE && child.ptrace_pending_req = .NO_REQUEST then
    let s := clean_proc s child
    ({ value := child.pid, wstatus := if wstatus then some (exitStatus child) else none },
      { s with irqs := flags })
  else if child.ptrace_pending_req ≠ .NO_REQUEST then
    let s :=
      { s with
        procs := s.procs.modify child.pid fun pcb =>
          { pcb with ptrace_pending_req := .NO_REQUEST } }
    ({ value := child.pid, wstatus := if wstatus then some (0x17f ||| exitStatus child) else none },
      { s with irqs := flags })
  else
    let s := clean_proc s child
    ({ value := child.pid
       wstatus := if wstatus then some (~~~0x7f ||| exitStatus child) else none },
      { s with irqs := flags })

/-! ## Runs -/

inductive Call where
  /-- `do_fork`, with the page table and the frames that the child gets. -/
  | fork (caller : Nat) (pgtable : Word) (pages : List Word)
  | exit (caller : Nat) (exit_status : Word)
  | waitpid (caller : Nat) (pid : Int) (wstatus nohang : Bool)
  /-- The child's thread has finished and a blocked `do_waitpid` goes on. -/
  | resume (caller : Nat)
  /-- The scheduler or a blocking call sets the state of a process that has not exited. -/
  | schedule (pid : Nat) (state : ProcState)

/-- The caller of a system call: it has not exited and is in no other call. -/
def System.caller (s : System) (pid : Nat) : Option Pcb :=
  (s.procs.find_proc_by_pid pid).filter fun pcb =>
    pcb.state ≠ .ZOMBIE && s.waits.all fun w => w.caller ≠ pid

/-- `do_fork` by the main thread; `none` if the child's name does not fit its field. -/
def do_fork (s : System) (parent : Pcb) (pgtable : Word) (pages : List Word) : Option System := do
  let (pcb, procs) := s.procs.new_process pgtable
  let name ← ProcName.ofString (parent.childName pcb.pid)
  return { s with
    procs := procs.modify pcb.pid fun pcb =>
      { (pcb.inherit parent).start name with page_list := pages } }

/-- `do_exit`; `none` for the root process, which panics. -/
def do_exit (s : System) (pcb : Pcb) (exit_status : Word) : Option System :=
  if pcb.parent.isNone then none
  else some { s with procs := s.procs.modify pcb.pid fun pcb => pcb.exit exit_status }

/-- `do_waitpid` up to its end, or until it blocks. -/
def do_waitpid (s : System) (caller : Nat) (pid : Int) (wstatus nohang : Bool) :
    Option Ret × System :=
  match do_waitpid_enter s pid wstatus nohang with
  | .returns r s' => (some r, s')
  | .passes child s' =>
    let (r, s') := do_waitpid_leave s' child wstatus s.irqs
    (some r, s')
  | .joins child s' =>
    if child.main_thread = some { finished := false } then
      let wait : Wait := { caller, child := child.pid, wstatus, flags := s.irqs }
      (none, { s' with waits := s'.waits ++ [wait], irqs := true })
    else
      let (r, s') := do_waitpid_leave (thread_join s' child) child wstatus s.irqs
      (some r, s')

/-- A blocked call goes on; `none` while the thread runs, or if the PCB has been freed. -/
def do_waitpid_resume (s : System) (w : Wait) : Option (Ret × System) := do
  let child ← s.procs.find_proc_by_pid w.child
  if child.main_thread = some { finished := false } then none
  else
    let s := { s with waits := s.waits.erase w, irqs := false }
    return do_waitpid_leave (thread_join s child) child w.wstatus w.flags

def step (s : System) : Call → Option System
  | .fork caller pgtable pages => do
    let parent ← s.caller caller
    do_fork s parent pgtable pages
  | .exit caller exit_status => do
    let pcb ← s.caller caller
    do_exit s pcb exit_status
  | .waitpid caller pid wstatus nohang => do
    let _ ← s.caller caller
    return (do_waitpid s caller pid wstatus nohang).2
  | .resume caller => do
    let w ← s.waits.find? fun w => w.caller = caller
    let (_, s) ← do_waitpid_resume s w
    return s
  | .schedule pid state => do
    let pcb ← s.procs.find_proc_by_pid pid
    if pcb.state = .ZOMBIE ∨ state = .ZOMBIE ∨ state = .NEW then none
    else return { s with procs := s.procs.modify pid fun pcb => { pcb with state } }

/-- The root process, alone. -/
def boot (root : Pcb) : System := { procs := { proc_list := [root], pid_current := root.pid + 1 } }

def run (s : System) (calls : List Call) : Option System := calls.foldlM step s

end SyeLabs.Kernel
