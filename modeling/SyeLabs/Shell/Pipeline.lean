import SyeLabs.Kernel.Files
import SyeLabs.Shell.Splitting

/-!
# Pipelines

What becomes of the children of `process_cmd`, beside programs that do what they like with their
own descriptors. `fork` and `pipe` succeed; the pipes are those of POSIX.
-/

namespace SyeLabs.Shell
open Libc Descriptors Kernel

inductive File where
  | reader (pipe : ℕ)
  | writer (pipe : ℕ)
  /-- The console, or a file that a program has opened. -/
  | other (gfd : ℕ)
  deriving DecidableEq

/-- The statements that a child still has in front of it. Without an image there is no name to copy,
or it does not fit. -/
inductive Script where
  | pipe (next : Fin FD_MAX → Fin FD_MAX → Script)
  | fork (child parent : Script)
  | close (fd : Fin FD_MAX) (next : Script)
  | dup2 (oldfd newfd : Fin FD_MAX) (next : Script)
  | execv (image : Option Exec)
  | printf (message : List Byte) (next : Script)
  | exit

/-- The child with a pipe. -/
def pipeline (left right : Option Exec) : Script :=
  .pipe fun pipe_fd0 pipe_fd1 => .fork
    (.close pipe_fd0 (.dup2 pipe_fd1 STDOUT (.execv left)))
    (.close pipe_fd1 (.dup2 pipe_fd0 STDIN (.execv right)))

theorem ARGS_MAX_pos : 0 < ARGS_MAX := by decide

/-- What is done when `execv` returns. -/
def Exec.failed (image : Exec) : Script :=
  match image.argv.get ⟨0, ARGS_MAX_pos⟩ with
  | .arg token => .printf (token ++ ascii ": exec failed.\n") .exit
  | _ => .exit

inductive Code where
  /-- The shell reads a line, or waits for a child. -/
  | shell (waiting : Option ℕ)
  | script (s : Script)
  | program
  | gone

/-- The side of a pipe that a process has been made for. -/
inductive Role where
  | alone
  | left (pipe : ℕ)
  | right (pipe : ℕ)
  deriving DecidableEq

structure Proc where
  fd_array : Files File
  code : Code
  role : Role := .alone

structure System where
  procs : List Proc
  pipes : List (Pipe Byte) := []

/-- What a program may ask for, as far as descriptors go. -/
inductive Syscall where
  | open (gfd : ℕ)
  | close (fd : Fin FD_MAX)
  | dup (fd : Fin FD_MAX)
  | dup2 (oldfd newfd : Fin FD_MAX)
  | read (fd : Fin FD_MAX) (count : ℕ)
  | write (fd : Fin FD_MAX) (bytes : List Byte)
  | fork
  | exit

inductive Event where
  | line (user_input : Line)
  /-- `waitpid` returns. -/
  | wait
  /-- The next statement of a child; `found` is for `execv`. -/
  | script (pid : ℕ) (found : Bool)
  | call (pid : ℕ) (c : Syscall)

namespace System

/-- Some process has the file open. -/
def Open (s : System) (f : File) : Prop := ∃ p ∈ s.procs, p.fd_array.Holds f

instance (s : System) : DecidablePred s.Open := fun _ => List.decidableBEx _ _

/-- Without a reader nothing is written. -/
def write (s : System) (fd_array : Files File) (fd : Fin FD_MAX) (bytes : List Byte) :
    List (Pipe Byte) :=
  match fd_array fd with
  | some (.writer i) => if s.Open (.reader i) then s.pipes.modify i (·.write bytes) else s.pipes
  | _ => s.pipes

/-- A read of an empty pipe that can still be written to has to wait. -/
def read (s : System) (fd_array : Files File) (fd : Fin FD_MAX) (count : ℕ) :
    Option (List (Pipe Byte)) :=
  match fd_array fd with
  | some (.reader i) =>
    match s.pipes[i]? with
    | none => none
    | some pipe =>
      if pipe.buffer ≠ [] then some (s.pipes.modify i (·.take count))
      else if s.Open (.writer i) then none
      else some (s.pipes.modify i Pipe.finish)
  | _ => some s.pipes

/-- A process goes on as `q`. -/
def become (s : System) (pid : ℕ) (q : Proc) : System := { s with procs := s.procs.set pid q }

/-- A process goes on as `q`, beside its new child. -/
def spawn (s : System) (pid : ℕ) (q child : Proc) : System :=
  { s with procs := s.procs.set pid q ++ [child] }

/-- The next statement of a child. -/
def statement (s : System) (pid : ℕ) (p : Proc) (found : Bool) : Script → Option System
  | .pipe next => do
    let (pipe_fd0, fd_array) ← proc_register_fd p.fd_array (.reader s.pipes.length)
    let (pipe_fd1, fd_array) ← proc_register_fd fd_array (.writer s.pipes.length)
    return { (s.become pid { fd_array, code := .script (next pipe_fd0 pipe_fd1),
                             role := .right s.pipes.length }) with pipes := s.pipes ++ [{}] }
  | .fork child parent =>
    some (s.spawn pid { p with code := .script parent } { p with
      code := .script child
      role := match p.role with
        | .right i => .left i
        | role => role })
  | .close fd next =>
    some (s.become pid { p with fd_array := p.fd_array.close fd, code := .script next })
  | .dup2 oldfd newfd next =>
    some (s.become pid { p with fd_array := p.fd_array.dup2 oldfd newfd, code := .script next })
  | .execv image => do
    let image ← image
    return s.become pid { p with code := if found then .program else .script image.failed }
  | .printf message next =>
    some { (s.become pid { p with code := .script next }) with
      pipes := s.write p.fd_array STDOUT message }
  | .exit => some (s.become pid { p with fd_array := exitFiles p.fd_array, code := .gone })

/-- A call of a program. `execv` leaves its descriptors alone. -/
def call (s : System) (pid : ℕ) (p : Proc) : Syscall → Option System
  | .open gfd => do
    let (_, fd_array) ← proc_register_fd p.fd_array (.other gfd)
    return s.become pid { p with fd_array }
  | .close fd => some (s.become pid { p with fd_array := p.fd_array.close fd })
  | .dup fd => do
    let (_, fd_array) ← proc_register_fd p.fd_array (← p.fd_array fd)
    return s.become pid { p with fd_array }
  | .dup2 oldfd newfd => some (s.become pid { p with fd_array := p.fd_array.dup2 oldfd newfd })
  | .read fd count => do return { s with pipes := ← s.read p.fd_array fd count }
  | .write fd bytes => some { s with pipes := s.write p.fd_array fd bytes }
  | .fork => some (s.spawn pid p p)
  | .exit => some (s.become pid { p with fd_array := exitFiles p.fd_array, code := .gone })

/-- The shell forks; the child has the script in front of it. -/
def launch (s : System) (p : Proc) (script : Script) (background : Bool) : System :=
  s.spawn 0 { p with code := .shell (if background then none else some s.procs.length) }
    { p with code := .script script }

def step (s : System) : Event → Option System
  | .line user_input => do
    let p ← s.procs[0]?
    let .shell none := p.code | none
    match ← round user_input with
    | .idle | .builtin _ => return s
    | .single child background => return s.launch p (.execv child) background
    | .piped left right background => return s.launch p (pipeline left right) background
  | .wait => do
    let p ← s.procs[0]?
    let .shell (some pid_child) := p.code | none
    let .gone := (← s.procs[pid_child]?).code | none
    return s.become 0 { p with code := .shell none }
  | .script pid found => do
    let p ← s.procs[pid]?
    let .script script := p.code | none
    s.statement pid p found script
  | .call pid c => do
    let p ← s.procs[pid]?
    let .program := p.code | none
    s.call pid p c

def run (s : System) (events : List Event) : Option System := events.foldlM step s

end System

/-- The descriptors of the shell, which is the root process. -/
def shellFiles : Files File := rootFiles fun fd => .other fd

/-- The shell with its prompt. -/
def boot : System where
  procs := [{ fd_array := shellFiles, code := .shell none }]

end SyeLabs.Shell
