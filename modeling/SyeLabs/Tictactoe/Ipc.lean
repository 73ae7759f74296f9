import Mathlib.Data.Fin.VecNotation
import SyeLabs.Theory.Fifo
import SyeLabs.Libc

/-!
# The pipe library `tictactoe_ipc.c`

The game manager creates two pipes and starts the player with two descriptors in its
arguments; each side keeps a `sye_ipc_t` of its own. Pipes are byte streams: a write to a write
end appends, a read from a read end takes the oldest bytes and blocks while there are none, and
either call on the other kind of end fails with -1.
-/

namespace SyeLabs.Tictactoe
open SyeLabs.Libc SyeLabs.Fifo

def READ_SIDE : Fin 2 := 0
def WRITE_SIDE : Fin 2 := 1

/-- `sizeof(int)`. -/
def CMD_SIZE : Nat := 4

/-- The shared structure `sye_ipc_t`. -/
structure SyeIpc where
  pipe1 : Fin 2 → Int := fun _ => 0
  pipe2 : Fin 2 → Int := fun _ => 0
  player_recv : Int := 0
  player_send : Int := 0
  gm_recv : Int := 0
  gm_send : Int := 0

/-- The descriptors that two successful calls of `pipe` give. -/
structure PipeFds where
  pipe1 : Fin 2 → Int
  pipe2 : Fin 2 → Int
  nodup : [pipe1 0, pipe1 1, pipe2 0, pipe2 1].Nodup
  range : ∀ fd ∈ [pipe1 0, pipe1 1, pipe2 0, pipe2 1], 0 ≤ fd ∧ fd ≤ INT_MAX

def ipc_init (fds : PipeFds) (ipc : SyeIpc) : SyeIpc :=
  { ipc with
    pipe1 := fds.pipe1
    pipe2 := fds.pipe2
    player_recv := fds.pipe2 READ_SIDE
    player_send := fds.pipe1 WRITE_SIDE
    gm_recv := fds.pipe1 READ_SIDE
    gm_send := fds.pipe2 WRITE_SIDE }

def ipc_init_child (argv : List (List Byte)) (ipc : SyeIpc) : SyeIpc :=
  { ipc with
    player_recv := atoi (argv.getD (READ_SIDE + 1) [])
    player_send := atoi (argv.getD (WRITE_SIDE + 1) []) }

def ipc_player_argv1 (ipc : SyeIpc) : Int := ipc.pipe2 READ_SIDE
def ipc_player_argv2 (ipc : SyeIpc) : Int := ipc.pipe1 WRITE_SIDE

/-! ## The two processes and the pipes -/

/-- The structure of the game manager after `ipc_init`. -/
def gmIpc (fds : PipeFds) : SyeIpc := ipc_init fds {}

/-- The arguments `main` passes to the player; `argv[0]` is its path. -/
def playerArgv (fds : PipeFds) (path : List Byte) : List (List Byte) :=
  [path, sprintfInt (ipc_player_argv1 (gmIpc fds)), sprintfInt (ipc_player_argv2 (gmIpc fds))]

/-- The structure of the player after `ipc_init_child`. -/
def playerIpc (fds : PipeFds) (path : List Byte) : SyeIpc :=
  ipc_init_child (playerArgv fds path) {}

/-- Bytes in the pipes, and the values passed to and returned by the four functions. -/
structure System where
  pipe1 : List Byte := []
  pipe2 : List Byte := []
  gm_sent : List Word := []
  gm_got : List Word := []
  player_sent : List Word := []
  player_got : List Word := []

/-- Outcome of `read`: it waits, it returns -1, or it delivers bytes. -/
inductive ReadResult where
  | blocks
  | fails
  | returns (buf : List Byte) (s : System)

def read (fds : PipeFds) (s : System) (fd : Int) (count : Nat) : ReadResult :=
  if fd = fds.pipe1 READ_SIDE then
    if s.pipe1 = [] then .blocks
    else .returns (s.pipe1.take count) { s with pipe1 := s.pipe1.drop count }
  else if fd = fds.pipe2 READ_SIDE then
    if s.pipe2 = [] then .blocks
    else .returns (s.pipe2.take count) { s with pipe2 := s.pipe2.drop count }
  else .fails

/-- `none` is the result -1. The pipes have room for all that is written here: a `write` that waits
for room is one that has not been called yet. -/
def write (fds : PipeFds) (s : System) (fd : Int) (buf : List Byte) : Option System :=
  if fd = fds.pipe1 WRITE_SIDE then some { s with pipe1 := s.pipe1 ++ buf }
  else if fd = fds.pipe2 WRITE_SIDE then some { s with pipe2 := s.pipe2 ++ buf }
  else none

/-- The commands as the pipes carry them. A read that returned fewer bytes than an `int` has
would leave the rest of `cmd` uninitialised; they are 0 here. -/
def cmdCodec : Codec Word Byte where
  size := CMD_SIZE
  encode := Word.bytes
  decode buf := .ofBytes (buf.getD 0 0) (buf.getD 1 0) (buf.getD 2 0) (buf.getD 3 0)
  size_pos := by decide
  length_encode := Word.bytes_length
  decode_encode := Word.ofBytes_byte

/-- The body of `gm_get_cmd` and `player_get_cmd`; `none` while the read waits. -/
def getCmd (fds : PipeFds) (s : System) (fd : Int) : Option (Word × System) :=
  match read fds s fd CMD_SIZE with
  | .blocks => none
  | .fails => some (-1, s)
  | .returns buf s => some (cmdCodec.decode buf, s)

/-- The body of `gm_send_cmd` and `player_send_cmd`, with their results 0 and -1. -/
def sendCmd (fds : PipeFds) (s : System) (fd : Int) (cmd : Word) : Int × System :=
  match write fds s fd cmd.bytes with
  | some s => (0, s)
  | none => (-1, s)

variable (fds : PipeFds) (path : List Byte)

def gm_get_cmd (s : System) : Option (Word × System) := getCmd fds s (gmIpc fds).player_send

def gm_send_cmd (s : System) (cmd : Word) : Int × System := sendCmd fds s (gmIpc fds).gm_send cmd

def player_get_cmd (s : System) : Option (Word × System) :=
  getCmd fds s (playerIpc fds path).player_recv

def player_send_cmd (s : System) (cmd : Word) : Int × System :=
  sendCmd fds s (playerIpc fds path).player_send cmd

/-- One call by one of the two processes. -/
inductive Call where
  | gmSend (cmd : Word)
  | gmGet
  | playerSend (cmd : Word)
  | playerGet

/-- A completed call, recorded in the history; `none` if the call waits. -/
def step (s : System) : Call → Option System
  | .gmSend cmd =>
    let (_, s') := gm_send_cmd fds s cmd
    some { s' with gm_sent := s'.gm_sent ++ [cmd] }
  | .gmGet => do
    let (cmd, s') ← gm_get_cmd fds s
    return { s' with gm_got := s'.gm_got ++ [cmd] }
  | .playerSend cmd =>
    let (_, s') := player_send_cmd fds path s cmd
    some { s' with player_sent := s'.player_sent ++ [cmd] }
  | .playerGet => do
    let (cmd, s') ← player_get_cmd fds path s
    return { s' with player_got := s'.player_got ++ [cmd] }

/-- An interleaving of calls, from empty pipes. -/
def run (calls : List Call) : Option System := calls.foldlM (step fds path) {}

/-- The channel from the game manager to the player. -/
def System.toPlayer (s : System) : Channel Word Byte := ⟨s.pipe2, s.gm_sent, s.player_got⟩

/-! ## What the descriptors are -/

theorem PipeFds.ne :
    fds.pipe1 0 ≠ fds.pipe1 1 ∧ fds.pipe1 0 ≠ fds.pipe2 0 ∧ fds.pipe1 0 ≠ fds.pipe2 1 ∧
      fds.pipe1 1 ≠ fds.pipe2 0 ∧ fds.pipe1 1 ≠ fds.pipe2 1 ∧ fds.pipe2 0 ≠ fds.pipe2 1 := by
  simpa [and_assoc] using fds.nodup

theorem playerIpc_recv : (playerIpc fds path).player_recv = fds.pipe2 READ_SIDE := by
  obtain ⟨h0, hmax⟩ := fds.range (fds.pipe2 READ_SIDE) (by simp [READ_SIDE])
  exact atoi_sprintfInt h0 hmax

theorem playerIpc_send : (playerIpc fds path).player_send = fds.pipe1 WRITE_SIDE := by
  obtain ⟨h0, hmax⟩ := fds.range (fds.pipe1 WRITE_SIDE) (by simp [WRITE_SIDE])
  exact atoi_sprintfInt h0 hmax

/-! ## The four functions -/

theorem gm_send_cmd_eq (s : System) (cmd : Word) :
    gm_send_cmd fds s cmd = (0, { s with pipe2 := s.pipe2 ++ cmd.bytes }) := by
  obtain ⟨-, -, -, -, hne, -⟩ := fds.ne
  simp [gm_send_cmd, sendCmd, write, gmIpc, ipc_init, WRITE_SIDE, hne.symm]

theorem player_send_cmd_eq (s : System) (cmd : Word) :
    player_send_cmd fds path s cmd = (0, { s with pipe1 := s.pipe1 ++ cmd.bytes }) := by
  simp [player_send_cmd, sendCmd, write, playerIpc_send]

/-- The game manager reads the write end of its own pipe: it fails at once, with nothing taken
from the pipes. -/
theorem gm_get_cmd_eq (s : System) : gm_get_cmd fds s = some (-1, s) := by
  obtain ⟨h1, -, -, h2, -, -⟩ := fds.ne
  simp [gm_get_cmd, getCmd, read, gmIpc, ipc_init, WRITE_SIDE, READ_SIDE, h1.symm, h2]

theorem player_get_cmd_eq (s : System) :
    player_get_cmd fds path s =
      if s.pipe2 = [] then none
      else some (cmdCodec.decode (s.pipe2.take CMD_SIZE),
        { s with pipe2 := s.pipe2.drop CMD_SIZE }) := by
  obtain ⟨-, h, -, -, -, -⟩ := fds.ne
  by_cases hq : s.pipe2 = [] <;>
    simp [player_get_cmd, getCmd, read, playerIpc_recv, READ_SIDE, h.symm, hq]

/-! ## Runs -/

/-- The values passed to `player_send_cmd`. -/
def playerSends (calls : List Call) : List Word :=
  calls.filterMap fun | .playerSend cmd => some cmd | _ => none

/-- The number of calls of `gm_get_cmd`. -/
def gmGets (calls : List Call) : Nat := calls.countP fun | .gmGet => true | _ => false

structure RunInvariant (calls : List Call) (s : System) : Prop where
  ordered : s.toPlayer.Ordered cmdCodec
  player_sent : s.player_sent = playerSends calls
  gm_got : s.gm_got = List.replicate (gmGets calls) (-1)

variable {fds path}

theorem RunInvariant.call {calls : List Call} {s s' : System} {c : Call}
    (H : RunInvariant calls s) (h : step fds path s c = some s') :
    RunInvariant (calls ++ [c]) s' := by
  obtain ⟨ho, hs, hg⟩ := H
  cases c with
  | gmSend cmd =>
    simp only [step, gm_send_cmd_eq, Option.some.injEq] at h
    subst h
    exact ⟨ho.send cmd, by simp [playerSends, hs], by simp [gmGets, hg]⟩
  | gmGet =>
    simp only [step, gm_get_cmd_eq, Option.pure_def, Option.bind_eq_bind, Option.bind_some,
      Option.some.injEq] at h
    subst h
    exact ⟨ho, by simp [playerSends, hs], by simp [gmGets, hg, List.replicate_succ']⟩
  | playerSend cmd =>
    simp only [step, player_send_cmd_eq, Option.some.injEq] at h
    subst h
    exact ⟨ho, by simp [playerSends, hs], by simp [gmGets, hg]⟩
  | playerGet =>
    simp only [step, player_get_cmd_eq, Option.pure_def, Option.bind_eq_bind] at h
    split at h
    · cases h
    · next hne =>
      simp only [Option.bind_some, Option.some.injEq] at h
      subst h
      refine ⟨ho.receive (a := cmdCodec.decode (s.pipe2.take CMD_SIZE)) ?_,
        by simp [playerSends, hs], by simp [gmGets, hg]⟩
      rw [Channel.receive, if_neg (show s.toPlayer.stream ≠ [] from hne)]
      rfl

theorem run_runInvariant {calls : List Call} {s : System} (h : run fds path calls = some s) :
    RunInvariant calls s := by
  induction calls using List.reverseRecOn generalizing s with
  | nil =>
    cases h
    exact ⟨Channel.ordered_empty, rfl, rfl⟩
  | append_singleton calls c ih =>
    rw [run, List.foldlM_append, Option.bind_eq_bind, Option.bind_eq_some_iff] at h
    obtain ⟨t, ht, h⟩ := h
    simp only [List.foldlM_cons, List.foldlM_nil, Option.bind_eq_bind, Option.pure_def,
      Option.bind_fun_some] at h
    exact (ih ht).call h

/-- In every run the player receives a prefix of what the game manager sent; the game manager
receives a prefix of what the player sent exactly if that starts with as many values -1 as
there are calls of `gm_get_cmd`. -/
theorem run_fifo_iff (fds : PipeFds) (path : List Byte) (calls : List Call) (s : System)
    (h : run fds path calls = some s) :
    s.player_got <+: s.gm_sent ∧ s.gm_got <+: s.player_sent ↔
      List.replicate (gmGets calls) (-1) <+: playerSends calls := by
  have H := run_runInvariant h
  rw [H.gm_got, H.player_sent]
  exact and_iff_right H.ordered.received_isPrefix

/-- Descriptors as `pipe` gives them to a program with the three standard ones open. -/
def standardFds : PipeFds where
  pipe1 := ![3, 4]
  pipe2 := ![5, 6]
  nodup := by decide
  range := by decide

theorem run_fifo_iff_standard :
    ∃ s, run standardFds [] [.gmSend 1, .playerGet, .playerSend 4] = some s ∧
      (s.player_got <+: s.gm_sent ∧ s.gm_got <+: s.player_sent) := by
  obtain ⟨s, hs⟩ : ∃ s, run standardFds [] [.gmSend 1, .playerGet, .playerSend 4] = some s := by
    simp [run, step, gm_send_cmd_eq, player_get_cmd_eq, player_send_cmd_eq, Word.bytes]
  exact ⟨s, hs, (run_fifo_iff standardFds [] _ s hs).mpr (by decide)⟩

/-- The player sends cell 4 and the game manager reads -1. -/
theorem run_not_fifo :
    ∃ s, run standardFds [] [.playerSend 4, .gmGet] = some s ∧
      ¬s.gm_got <+: s.player_sent := by
  obtain ⟨s, hs⟩ : ∃ s, run standardFds [] [.playerSend 4, .gmGet] = some s := by
    simp [run, step, gm_get_cmd_eq, player_send_cmd_eq]
  have H := run_runInvariant hs
  refine ⟨s, hs, ?_⟩
  rw [H.gm_got, H.player_sent]
  decide

end SyeLabs.Tictactoe
