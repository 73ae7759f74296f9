import SyeLabs.Tictactoe.Ipc
import SyeLabs.Tictactoe.Match

/-!
# The game over the pipe library

The game manager and the player with the four functions of `tictactoe_ipc.c` in between, over pipes
that have room for `capacity` bytes each. As `gm_get_cmd` returns -1 at once, the game manager
rejects one move after another, whether the player has sent any or not, until its pipe is full, and
the game never gets on.
-/

namespace SyeLabs.Tictactoe
open SyeLabs.Process

structure Piped where
  gm : Gm
  player : Player := {}
  ipc : System := {}

/-- All commands. -/
def Cmd.all : List Cmd :=
  [.GAME_START, .GAME_END, .YOU_CAN_PLAY, .MOVE_REJECTED, .NO_WINNER, .YOU_WIN, .YOU_LOSE]

/-- The case of the player's `switch`; `none` is its `default`. -/
def Cmd.ofCode (codes : Cmd → Word) (cmd : Word) : Option Cmd := Cmd.all.find? (codes · = cmd)

namespace Piped

section
variable (hd : Header) (codes : Cmd → Word) (fds : PipeFds) (path : List Byte) (capacity : ℕ)

/-- A `write` waits while the pipe has no room for the command. -/
def Room (capacity : ℕ) (pipe : List Byte) : Prop := pipe.length + CMD_SIZE ≤ capacity

instance (capacity : ℕ) (pipe : List Byte) : Decidable (Room capacity pipe) :=
  inferInstanceAs (Decidable (_ ≤ _))

def gmStep (m : Piped) : Option Piped :=
  match game_manager hd m.gm with
  | .send cmd gm =>
    if Room capacity m.ipc.pipe2 then
      some { m with gm, ipc := (gm_send_cmd fds m.ipc (codes cmd)).2 }
    else none
  | .get k => do
    let (move, ipc) ← gm_get_cmd fds m.ipc
    return { m with gm := k move.toInt, ipc }
  | .goto gm => some { m with gm }
  | .undefined | .exit => none

def playerStep (m : Piped) : Option Piped :=
  match m.player.pc with
  | .loop =>
    if m.player.game_over then none
    else do
      let (cmd, ipc) ← player_get_cmd fds path m.ipc
      return { m with player := ((Cmd.ofCode codes cmd).map m.player.handle).getD m.player, ipc }
  | .inputMove => none
  | .sendCmd =>
    if Room capacity m.ipc.pipe1 then
      some { m with
        player := { m.player with pc := .loop }
        ipc := (player_send_cmd fds path m.ipc (BitVec.ofInt 32 m.player.pending_move)).2 }
    else none

def step (m : Piped) : Event → Option Piped
  | .gm => m.gmStep hd codes fds capacity
  | .player => m.playerStep codes fds path capacity
  | .typed cell =>
    if m.player.pc = .inputMove then
      some { m with player := { m.player with pending_move := cell, pc := .sendCmd } }
    else none

def init : Piped := { gm := init_game hd }

def run (m : Piped) (events : List Event) : Option Piped :=
  events.foldlM (step hd codes fds path capacity) m

end

/-- Where the game manager is after so many steps. -/
def pcAfter : ℕ → GmPc
  | 0 => .gameStart
  | 1 => .loop
  | 2 => .youCanPlay
  | n + 3 => if n % 2 = 0 then .getCmd else .rejected

/-- And what it has sent. -/
def sentAfter : ℕ → List Cmd
  | 0 => []
  | 1 => [.GAME_START]
  | 2 => [.GAME_START]
  | n + 3 => .GAME_START :: .YOU_CAN_PLAY :: List.replicate (n / 2) .MOVE_REJECTED

/-- The commands that the player ever gets. -/
theorem mem_sentAfter {n : ℕ} {c : Cmd} (h : c ∈ sentAfter n) :
    c = .GAME_START ∨ c = .YOU_CAN_PLAY ∨ c = .MOVE_REJECTED := by
  match n with
  | 0 => cases h
  | 1 | 2 => exact .inl (List.mem_singleton.mp h)
  | n + 3 =>
    rcases List.mem_cons.mp h with h | h
    · exact .inl h
    · rcases List.mem_cons.mp h with h | h
      · exact .inr (.inl h)
      · exact .inr (.inr (List.eq_of_mem_replicate h))

theorem ofCode_code {codes : Cmd → Word} (hcodes : Function.Injective codes) (c : Cmd) :
    Cmd.ofCode codes (codes c) = some c := by
  have hmem : c ∈ Cmd.all := by cases c <;> decide
  cases hfind : Cmd.ofCode codes (codes c) with
  | none =>
    have hno := List.find?_eq_none.mp hfind c hmem
    simp at hno
  | some d =>
    have hd := List.find?_some hfind
    exact congrArg some (hcodes (by simpa using hd))

def encode (codes : Cmd → Word) (cmds : List Cmd) : List Byte :=
  cmds.flatMap fun c => (codes c).bytes

/-- The game after `n` steps of the game manager. -/
structure Stuck (hd : Header) (codes : Cmd → Word) (n : ℕ) (m : Piped) : Prop where
  gm : m.gm = { init_game hd with pc := pcAfter n }
  going : m.player.game_over = false
  sent : ∃ got flight, got ++ flight = sentAfter n ∧ m.ipc.pipe2 = encode codes flight

section
variable {hd : Header} {codes : Cmd → Word} {fds : PipeFds} {path : List Byte} {capacity : ℕ}
  {m m' : Piped} {n : ℕ}

theorem Stuck.send {c : Cmd} (S : Stuck hd codes n m) (hpc : pcAfter (n + 1) = pc)
    (hsent : sentAfter (n + 1) = sentAfter n ++ [c]) :
    Stuck hd codes (n + 1) { m with
      gm := { init_game hd with pc := pc }
      ipc := (gm_send_cmd fds m.ipc (codes c)).2 } := by
  obtain ⟨got, flight, happend, hpipe⟩ := S.sent
  refine ⟨by rw [hpc], S.going, got, flight ++ [c], ?_, ?_⟩
  · rw [hsent, ← happend, List.append_assoc]
  · rw [gm_send_cmd_eq]
    simp [encode, hpipe]

/-- The game manager waits for room in its pipe, and for nothing else. -/
theorem Stuck.gmStep (fds : PipeFds) (capacity : ℕ) (S : Stuck hd codes n m) :
    (m.gmStep hd codes fds capacity = none ∧ ¬Room capacity m.ipc.pipe2) ∨
      ∃ m', m.gmStep hd codes fds capacity = some m' ∧ Stuck hd codes (n + 1) m' := by
  have hsame : sentAfter (n + 1) = sentAfter n → ∀ pc, pcAfter (n + 1) = pc →
      Stuck hd codes (n + 1) { m with gm := { init_game hd with pc := pc } } :=
    fun h pc hpc => ⟨by rw [hpc], S.going, h ▸ S.sent⟩
  have hsend : ∀ c pc, pcAfter (n + 1) = pc → sentAfter (n + 1) = sentAfter n ++ [c] →
      game_manager hd m.gm = .send c { init_game hd with pc := pc } →
      (m.gmStep hd codes fds capacity = none ∧ ¬Room capacity m.ipc.pipe2) ∨
        ∃ m', m.gmStep hd codes fds capacity = some m' ∧ Stuck hd codes (n + 1) m' := by
    intro c pc hpc hsent hgm
    rw [Piped.gmStep, hgm]
    by_cases hroom : Room capacity m.ipc.pipe2
    · exact .inr ⟨_, if_pos hroom, S.send hpc hsent⟩
    · exact .inl ⟨if_neg hroom, hroom⟩
  match n with
  | 0 => exact hsend .GAME_START .loop rfl rfl (by rw [S.gm]; rfl)
  | 1 =>
    refine .inr ⟨_, by rw [Piped.gmStep, S.gm]; rfl, hsame rfl _ ?_⟩
    change pcAfter 2 = if false = true then _ else if hd.PLAYER_ID = hd.PLAYER_ID then _ else _
    rw [if_neg Bool.false_ne_true, if_pos rfl]
    rfl
  | 2 => exact hsend .YOU_CAN_PLAY .getCmd rfl rfl (by rw [S.gm]; rfl)
  | n + 3 =>
    rcases Nat.mod_two_eq_zero_or_one n with hn | hn
    · -- the game manager reads -1
      have hpc : pcAfter (n + 3) = .getCmd := if_pos hn
      have hnext : pcAfter (n + 4) = .rejected := if_neg (by omega)
      have hsent : sentAfter (n + 4) = sentAfter (n + 3) := by
        simp only [sentAfter, show (n + 1) / 2 = n / 2 by omega]
      refine .inr ⟨_, ?_, hsame hsent _ hnext⟩
      rw [Piped.gmStep, S.gm, hpc]
      simp only [game_manager, gm_get_cmd_eq, Option.bind_eq_bind, Option.bind_some]
      rfl
    · have hpc : pcAfter (n + 3) = .rejected := if_neg (by omega)
      have hnext : pcAfter (n + 4) = .getCmd := if_pos (by omega)
      have hsent : sentAfter (n + 4) = sentAfter (n + 3) ++ [.MOVE_REJECTED] := by
        simp only [sentAfter, show (n + 1) / 2 = n / 2 + 1 by omega, List.replicate_succ',
          List.cons_append]
      exact hsend .MOVE_REJECTED .getCmd hnext hsent (by rw [S.gm, hpc]; rfl)

theorem Stuck.playerStep (hcodes : Function.Injective codes) (S : Stuck hd codes n m)
    (h : m.playerStep codes fds path capacity = some m') : Stuck hd codes n m' := by
  obtain ⟨got, flight, happend, hpipe⟩ := S.sent
  rw [Piped.playerStep] at h
  cases hpc : m.player.pc with
  | loop =>
    rw [hpc] at h
    simp only [S.going, player_get_cmd_eq, Bool.false_eq_true, if_false] at h
    cases flight with
    | nil => simp [hpipe, encode] at h
    | cons c flight =>
      have hbytes : encode codes (c :: flight) = (codes c).bytes ++ encode codes flight := rfl
      rw [hpipe, hbytes] at h
      have hne : (codes c).bytes ++ encode codes flight ≠ [] := by simp [Word.bytes]
      have hdecode : cmdCodec.decode (codes c).bytes = codes c := cmdCodec.decode_encode _
      have htake : ((codes c).bytes ++ encode codes flight).take CMD_SIZE = (codes c).bytes :=
        List.take_left' rfl
      have hdrop : ((codes c).bytes ++ encode codes flight).drop CMD_SIZE =
          encode codes flight := List.drop_left' rfl
      rw [if_neg hne, htake, hdrop, hdecode] at h
      simp only [Option.bind_eq_bind, Option.bind_some, ofCode_code hcodes] at h
      cases h
      have hc := mem_sentAfter (happend ▸ List.mem_append_right got List.mem_cons_self)
      refine ⟨S.gm, ?_, got ++ [c], flight, ?_, rfl⟩
      · rcases hc with rfl | rfl | rfl
        · rfl
        · exact S.going
        · exact S.going
      · rw [← happend, List.append_assoc]
        rfl
  | inputMove => simp [hpc] at h
  | sendCmd =>
    rw [hpc] at h
    obtain ⟨-, h⟩ := Option.ite_none_right_eq_some.mp h
    cases h
    exact ⟨S.gm, S.going, got, flight, happend, by rw [player_send_cmd_eq]; exact hpipe⟩

theorem run_stuck (hcodes : Function.Injective codes) {events : List Event}
    (h : run hd codes fds path capacity (init hd) events = some m) :
    Stuck hd codes (events.count .gm) m := by
  induction events using List.reverseRecOn generalizing m with
  | nil =>
    cases h
    exact ⟨rfl, rfl, [], [], rfl, rfl⟩
  | append_singleton events e ih =>
    rw [run, List.foldlM_append, Option.bind_eq_bind, Option.bind_eq_some_iff] at h
    obtain ⟨t, ht, h⟩ := h
    have S := ih ht
    replace h : step hd codes fds path capacity t e = some m := by simpa using h
    cases e with
    | gm =>
      rw [List.count_append, List.count_singleton_self]
      rcases S.gmStep fds capacity with ⟨hnone, -⟩ | ⟨m', hm', S'⟩
      · exact absurd (hnone.symm.trans h) nofun
      · obtain rfl := Option.some.inj (hm'.symm.trans h)
        exact S'
    | player =>
      rw [List.count_append, List.count_singleton, if_neg (by decide), Nat.add_zero]
      exact S.playerStep hcodes h
    | typed cell =>
      rw [List.count_append, List.count_singleton, if_neg (by simp), Nat.add_zero]
      rw [step, Option.ite_none_right_eq_some] at h
      obtain ⟨-, h⟩ := h
      cases h
      exact ⟨S.gm, S.going, S.sent⟩

end

/-- Numbers for the commands. -/
def standardCodes (c : Cmd) : Word := BitVec.ofNat 32 (Cmd.all.idxOf c)

theorem standardCodes_injective : Function.Injective standardCodes := by
  intro c d
  cases c <;> cases d <;> decide

end Piped
end SyeLabs.Tictactoe
