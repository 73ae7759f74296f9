import SyeLabs.Libc
import SyeLabs.Theory.Arrays

/-!
# The shell: `sh.c`

A line is split into `tokens`, and `process_cmd` either does the command itself or builds the
arguments of one program, or of two with a pipe. An access outside `tokens`, `argv` or `argv2` has
no outcome, and nothing is known of a child that has written over the end of `filename`. Calls of
`fork` and `pipe` succeed here.
-/

namespace SyeLabs.Shell
open Libc Arrays

def TOKEN_NR : ℕ := 10
def ARGS_MAX : ℕ := 16

/-- A row of `tokens` has this many bytes. -/
def ROW_SIZE : ℕ := 80

/-- `filename` has this many bytes. -/
def FILENAME_SIZE : ℕ := 30

/-- The strings in the rows; the empty one where the first byte is NUL. -/
abbrev Tokens := Vector (List Byte) TOKEN_NR

/-- `strcpy(tokens[i], next_token)`. -/
def Tokens.strcpy (tokens : Tokens) (i : ℕ) (next_token : List Byte) : Option Tokens :=
  if next_token.length < ROW_SIZE then assign tokens i next_token else none

/-- The calls of `strtok` from token `i` on. -/
def parseLoop (str : List Byte) (i : ℕ) (tokens : Tokens) : Option Tokens :=
  match _h : strtok [32] str with
  | none => some tokens
  | some (next_token, rest) => do parseLoop rest (i + 1) (← tokens.strcpy i next_token)
termination_by str.length
decreasing_by exact (strtok_eq_some _h).2.2

def parse_token (str : List Byte) (tokens : Tokens) : Option Tokens := parseLoop str 0 tokens

/-! ## The commands of the shell itself -/

inductive Signal where
  | SIGTERM
  | SIGUSR1
  | SIGKILL

inductive Builtin where
  | sys_info (val1 : ℕ)
  /-- The shell ends, unless it is the root process. -/
  | exit
  | setenv (name value : List Byte)
  | unsetenv (name : List Byte)
  /-- `setenv` without a name. -/
  | nothing
  | env
  /-- Without a signal, 0 is sent to a `pid` that has not been set. -/
  | kill (signal : Option (Signal × Int))

def setenvCall (tokens : Tokens) : Builtin :=
  if tokens[1] ≠ [] then
    if tokens[2] ≠ [] then .setenv tokens[1] tokens[2] else .unsetenv tokens[1]
  else .nothing

def killCall (tokens : Tokens) : Builtin :=
  if tokens[2] = [] then .kill (some (.SIGTERM, atoi tokens[1]))
  else if tokens[1] = ascii "-USR1" then .kill (some (.SIGUSR1, atoi tokens[2]))
  else if tokens[1] = ascii "-9" then .kill (some (.SIGKILL, atoi tokens[2]))
  else .kill none

def builtin (tokens : Tokens) : Option Builtin :=
  if tokens[0] = ascii "dumpsched" then some (.sys_info 1)
  else if tokens[0] = ascii "dumpproc" then some (.sys_info 4)
  else if tokens[0] = ascii "exit" then some .exit
  else if tokens[0] = ascii "setenv" then some (setenvCall tokens)
  else if tokens[0] = ascii "env" then some .env
  else if tokens[0] = ascii "kill" then some (killCall tokens)
  else none

/-! ## The arguments of a program -/

def bar : List Byte := ascii "|"
def ampersand : List Byte := ascii "&"

/-- A pointer in `argv`. -/
inductive Slot where
  | uninitialised
  | null
  | arg (token : List Byte)

abbrev Argv := Vector Slot ARGS_MAX

structure Args where
  argv : Argv := .replicate ARGS_MAX .uninitialised
  argv2 : Argv := .replicate ARGS_MAX .uninitialised
  arg_pos : ℕ := 0
  arg_pos2 : ℕ := 0
  pipe_on : Bool := false
  background : Bool := false

/-- A token that is no `&`. -/
def Args.add (a : Args) (token : List Byte) : Option Args :=
  if token = bar then do
    return { a with
      pipe_on := true, argv := ← assign a.argv a.arg_pos .null, arg_pos := a.arg_pos + 1 }
  else if a.pipe_on then do
    return { a with
      argv2 := ← assign a.argv2 a.arg_pos2 (.arg token), arg_pos2 := a.arg_pos2 + 1
      arg_pos := a.arg_pos + 1 }
  else do
    return { a with
      argv := ← assign a.argv a.arg_pos (.arg token), arg_pos := a.arg_pos + 1 }

/-- The loop; the list has the rows of `tokens` from `arg_pos` on. Behind the last one the index is
out of range. -/
def argLoop : List (List Byte) → Args → Option Args
  | [], _ => none
  | token :: rows, a =>
    if token = [] then some a
    else if token = ampersand then some { a with background := true }
    else do argLoop rows (← a.add token)

def Args.terminate (a : Args) : Option Args :=
  if a.pipe_on then do return { a with argv2 := ← assign a.argv2 a.arg_pos2 .null }
  else do return { a with argv := ← assign a.argv a.arg_pos .null }

/-! ## The launch -/

/-- What a child gives to `execv`. -/
structure Exec where
  filename : List Byte
  argv : Argv

/-- `strcpy` and `strcat`; `none` if the name does not fit in `filename`. -/
def filenameOf (token : List Byte) : Option (List Byte) :=
  if (token ++ ascii ".elf").length < FILENAME_SIZE then some (token ++ ascii ".elf") else none

/-- A child with a pipe; `none` if there is no name to copy, or it does not fit. -/
def execPiped (argv : Argv) : Option Exec :=
  match argv[0] with
  | .arg token => do return { filename := ← filenameOf token, argv }
  | _ => none

/-- The child without a pipe; `none` if the name does not fit. -/
def execSingle (tokens : Tokens) (argv : Argv) : Option Exec := do
  let filename ← filenameOf tokens[0]
  return { filename, argv := ← assign argv 0 (.arg tokens[0]) }

inductive Outcome where
  | idle
  | builtin (call : Builtin)
  | single (child : Option Exec) (background : Bool)
  | piped (left right : Option Exec) (background : Bool)

def launch (tokens : Tokens) : Option Outcome := do
  let a ← (← argLoop tokens.toList {}).terminate
  if a.pipe_on then return .piped (execPiped a.argv) (execPiped a.argv2) a.background
  else return .single (execSingle tokens a.argv) a.background

def process_cmd (tokens : Tokens) : Option Outcome :=
  match builtin tokens with
  | some call => some (.builtin call)
  | none => launch tokens

/-- What `gets` has put in `user_input`. -/
abbrev Line := {l : List Byte // l.length ≤ 79 ∧ (0 : Byte) ∉ l}

/-- One round of the loop of `main`. -/
def round (user_input : Line) : Option Outcome := do
  let tokens : Tokens := .replicate TOKEN_NR []
  let tokens ← if user_input.val ≠ [] then parse_token user_input.val tokens else some tokens
  if tokens[0] ≠ [] then process_cmd tokens else return .idle

end SyeLabs.Shell
