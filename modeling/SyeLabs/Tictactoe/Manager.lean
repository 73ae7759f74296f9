import Mathlib.Data.List.Chain
import SyeLabs.Theory.Process
import SyeLabs.Tictactoe.Game

/-!
# The game manager

`game_manager` as a process: at each point it sends a command, waits for one, or computes. The
verdict is right because no line exists before a move, so that a line found after it belongs to
the participant who has just played.
-/

namespace SyeLabs.Tictactoe
open SyeLabs.Process

/-- The commands of `tictactoe.h`, which are distinct: the player's `switch` has them all. -/
inductive Cmd where
  | GAME_START
  | GAME_END
  | YOU_CAN_PLAY
  | MOVE_REJECTED
  | NO_WINNER
  | YOU_WIN
  | YOU_LOSE
  deriving DecidableEq, Repr

def Cmd.IsVerdict (c : Cmd) : Prop := c = .YOU_WIN ∨ c = .YOU_LOSE ∨ c = .NO_WINNER

instance : DecidablePred Cmd.IsVerdict := fun _ => inferInstanceAs (Decidable (_ ∨ _ ∨ _))

/-! ## The code -/

/-- Where the game manager is; the middle ones are in `get_player_move`. -/
inductive GmPc where
  | gameStart
  | loop
  | youCanPlay
  | getCmd
  | rejected
  | playersMove (move : Int)
  | computersTurn
  | checkState
  | gameEnd
  | returned
  deriving DecidableEq, Repr

structure Gm where
  grid : Grid GRID_SIZE
  game_over : Bool
  player : Int
  pc : GmPc

section
variable (hd : Header)

/-- The game manager after `init_game`. -/
def init_game : Gm :=
  { grid := fun _ => EMPTY_ID, game_over := false, player := hd.PLAYER_ID, pc := .gameStart }

/-- The test of `get_player_move` on what it received. -/
def rejects (g : Grid GRID_SIZE) (move : Int) : Bool :=
  move < 0 || move > (GRID_SIZE : Int) - 1 || g.get move ≠ some 0

/-- `check_game_state`, and the change of turns after it. -/
def check_game_state (gm : Gm) : Next Cmd Int Gm :=
  let player := if gm.player = hd.PLAYER_ID then hd.AI_ID else hd.PLAYER_ID
  match win hd gm.grid with
  | .STATE_PROGRESS => .goto { gm with player, pc := .loop }
  | .STATE_WIN =>
    .send (if gm.player = hd.PLAYER_ID then .YOU_WIN else .YOU_LOSE)
      { gm with game_over := true, player, pc := .loop }
  | .STATE_DRAW => .send .NO_WINNER { gm with game_over := true, player, pc := .loop }

def game_manager (gm : Gm) : Next Cmd Int Gm :=
  match gm.pc with
  | .gameStart => .send .GAME_START { gm with pc := .loop }
  | .loop =>
    .goto { gm with
      pc := if gm.game_over then .gameEnd
        else if gm.player = hd.PLAYER_ID then .youCanPlay
        else .computersTurn }
  | .youCanPlay => .send .YOU_CAN_PLAY { gm with pc := .getCmd }
  | .getCmd => .get fun move =>
    { gm with pc := if rejects gm.grid move then .rejected else .playersMove move }
  | .rejected => .send .MOVE_REJECTED { gm with pc := .getCmd }
  | .playersMove move =>
    match gm.grid.set move hd.PLAYER_ID with
    | some grid => .goto { gm with grid, pc := .checkState }
    | none => .undefined
  | .computersTurn =>
    let (move, grid) := computers_turn hd gm.grid
    match grid.set (move - 1) hd.AI_ID with
    | some grid => .goto { gm with grid, pc := .checkState }
    | none => .undefined
  | .checkState => check_game_state hd gm
  | .gameEnd => .send .GAME_END { gm with pc := .returned }
  | .returned => .exit

end

/-! ## Moves -/

/-- A value that names no empty cell. -/
def Illegal (g : Grid GRID_SIZE) (move : Int) : Prop :=
  move < 0 ∨ (GRID_SIZE : Int) - 1 < move ∨ ∃ i : Fin GRID_SIZE, (i : Int) = move ∧ g i ≠ EMPTY_ID

/-- What the grid is like when a participant is to play. -/
structure Board (hd : Header) (g : Grid GRID_SIZE) (player : Int) : Prop where
  turn : player = hd.PLAYER_ID ∧ g.marks hd.PLAYER_ID = g.marks hd.AI_ID ∨
    player = hd.AI_ID ∧ g.marks hd.PLAYER_ID = g.marks hd.AI_ID + 1
  room : ∃ i, g i = EMPTY_ID
  player_line : ¬HasLine g hd.PLAYER_ID
  ai_line : ¬HasLine g hd.AI_ID

/-- And when the participant has played. -/
structure Moved (hd : Header) (g : Grid GRID_SIZE) (player : Int) : Prop where
  turn : player = hd.PLAYER_ID ∧ g.marks hd.PLAYER_ID = g.marks hd.AI_ID + 1 ∨
    player = hd.AI_ID ∧ g.marks hd.PLAYER_ID = g.marks hd.AI_ID
  player_line : player = hd.AI_ID → ¬HasLine g hd.PLAYER_ID
  ai_line : player = hd.PLAYER_ID → ¬HasLine g hd.AI_ID

/-- The verdict is right about the grid. -/
structure Matches (hd : Header) (g : Grid GRID_SIZE) (v : Cmd) : Prop where
  you_win : v = .YOU_WIN ↔ HasLine g hd.PLAYER_ID
  you_lose : v = .YOU_LOSE ↔ HasLine g hd.AI_ID
  no_winner : v = .NO_WINNER ↔ g.Full ∧ ¬HasLine g hd.PLAYER_ID ∧ ¬HasLine g hd.AI_ID

section
variable {hd : Header} {g : Grid GRID_SIZE} {i : Fin GRID_SIZE} {player move : Int}

theorem Header.ai_ne_zero (hd : Header) : hd.AI_ID ≠ 0 := by
  have := hd.player_ne_zero
  have := hd.opposite
  omega

theorem Header.ai_ne_player (hd : Header) : hd.AI_ID ≠ hd.PLAYER_ID := by
  have := hd.player_ne_zero
  have := hd.opposite
  omega

/-- A value inside the range names a cell. -/
theorem exists_cell (h0 : 0 ≤ move) (hmax : move ≤ (GRID_SIZE : Int) - 1) :
    ∃ i : Fin GRID_SIZE, (i : Int) = move :=
  ⟨⟨move.toNat, by omega⟩, Int.toNat_of_nonneg h0⟩

theorem rejects_iff : rejects g move = true ↔ Illegal g move := by
  simp only [rejects, Illegal, Bool.or_eq_true, decide_eq_true_eq, or_assoc]
  constructor
  · rintro (h | h | h)
    · exact .inl h
    · exact .inr (.inl h)
    · by_cases h0 : move < 0
      · exact .inl h0
      by_cases hmax : (GRID_SIZE : Int) - 1 < move
      · exact .inr (.inl hmax)
      obtain ⟨i, rfl⟩ := exists_cell (not_lt.mp h0) (not_lt.mp hmax)
      exact .inr (.inr ⟨i, rfl, by simpa [EMPTY_ID] using h⟩)
  · rintro (h | h | ⟨i, rfl, hi⟩)
    · exact .inl h
    · exact .inr (.inl h)
    · exact .inr (.inr (by simpa [EMPTY_ID] using hi))

theorem exists_of_not_rejects (h : rejects g move = false) :
    ∃ i : Fin GRID_SIZE, (i : Int) = move ∧ g i = EMPTY_ID := by
  have hlegal := rejects_iff.not.mp (Bool.eq_false_iff.mp h)
  simp only [Illegal, not_or, not_lt] at hlegal
  obtain ⟨h0, hmax, hcell⟩ := hlegal
  obtain ⟨i, rfl⟩ := exists_cell h0 hmax
  exact ⟨i, rfl, not_not.mp fun hi => hcell ⟨i, rfl, hi⟩⟩

theorem Board.init : Board hd (init_game hd).grid hd.PLAYER_ID where
  turn := .inl ⟨rfl, (Grid.marks_empty hd.player_ne_zero).trans
    (Grid.marks_empty hd.ai_ne_zero).symm⟩
  room := ⟨0, rfl⟩
  player_line := by
    rintro ⟨l, -, h, -⟩
    exact hd.player_ne_zero h.symm
  ai_line := by
    rintro ⟨l, -, h, -⟩
    exact hd.ai_ne_zero h.symm

theorem Board.play (B : Board hd g player) (hi : g i = EMPTY_ID) :
    Moved hd (Function.update g i player) player := by
  obtain ⟨rfl, hturn⟩ | ⟨rfl, hturn⟩ := B.turn
  · refine ⟨.inl ⟨rfl, ?_⟩, fun h => absurd h hd.ai_ne_player.symm, fun _ h => ?_⟩
    · rw [Grid.marks_update_self hi hd.player_ne_zero,
        Grid.marks_update_of_ne hi hd.ai_ne_zero hd.ai_ne_player.symm, hturn]
    · exact B.ai_line (h.of_update hd.ai_ne_player.symm)
  · refine ⟨.inr ⟨rfl, ?_⟩, fun _ h => ?_, fun h => absurd h hd.ai_ne_player⟩
    · rw [Grid.marks_update_self hi hd.ai_ne_zero,
        Grid.marks_update_of_ne hi hd.player_ne_zero hd.ai_ne_player, hturn]
    · exact B.player_line (h.of_update hd.ai_ne_player)

/-- The turns change while the game goes on. -/
theorem Moved.board (M : Moved hd g player) (h : win hd g = .STATE_PROGRESS) :
    Board hd g (if player = hd.PLAYER_ID then hd.AI_ID else hd.PLAYER_ID) := by
  obtain ⟨hp, ha, hroom⟩ := win_eq_progress h
  refine ⟨?_, hroom, hp, ha⟩
  obtain ⟨rfl, hturn⟩ | ⟨rfl, hturn⟩ := M.turn
  · exact .inr ⟨if_pos rfl, hturn⟩
  · exact .inl ⟨if_neg hd.ai_ne_player, hturn⟩

theorem Moved.matches_win (M : Moved hd g player) (h : win hd g = .STATE_WIN) :
    Matches hd g (if player = hd.PLAYER_ID then .YOU_WIN else .YOU_LOSE) := by
  have hline := win_eq_win.mp h
  obtain ⟨rfl, -⟩ | ⟨rfl, -⟩ := M.turn
  · have ha := M.ai_line rfl
    have hp := hline.resolve_right ha
    rw [if_pos rfl]
    exact ⟨iff_of_true rfl hp, iff_of_false nofun ha, iff_of_false nofun fun h => h.2.1 hp⟩
  · have hp := M.player_line rfl
    have ha := hline.resolve_left hp
    rw [if_neg hd.ai_ne_player]
    exact ⟨iff_of_false nofun hp, iff_of_true rfl ha, iff_of_false nofun fun h => h.2.2 ha⟩

theorem matches_draw (h : win hd g = .STATE_DRAW) : Matches hd g .NO_WINNER := by
  obtain ⟨hp, ha, hfull⟩ := win_eq_draw h
  exact ⟨iff_of_false nofun hp, iff_of_false nofun ha, iff_of_true rfl ⟨hfull, hp, ha⟩⟩

end

/-! ## Steps -/

/-- The steps of the game manager. -/
inductive Gm.Step (hd : Header) (gm : Gm) : Label Cmd Int → Gm → Prop where
  | gameStart (hpc : gm.pc = .gameStart) : Step hd gm (.send .GAME_START) { gm with pc := .loop }
  | game_over (hpc : gm.pc = .loop) (hover : gm.game_over = true) :
    Step hd gm .tau { gm with pc := .gameEnd }
  | player (hpc : gm.pc = .loop) (hover : gm.game_over = false)
    (hplayer : gm.player = hd.PLAYER_ID) :
    Step hd gm .tau { gm with pc := .youCanPlay }
  | computer (hpc : gm.pc = .loop) (hover : gm.game_over = false)
    (hplayer : gm.player ≠ hd.PLAYER_ID) :
    Step hd gm .tau { gm with pc := .computersTurn }
  | youCanPlay (hpc : gm.pc = .youCanPlay) :
    Step hd gm (.send .YOU_CAN_PLAY) { gm with pc := .getCmd }
  | illegal (move : Int) (hpc : gm.pc = .getCmd) (hmove : Illegal gm.grid move) :
    Step hd gm (.get move) { gm with pc := .rejected }
  | legal (i : Fin GRID_SIZE) (hpc : gm.pc = .getCmd) (hi : gm.grid i = EMPTY_ID) :
    Step hd gm (.get i) { gm with pc := .playersMove i }
  | rejected (hpc : gm.pc = .rejected) :
    Step hd gm (.send .MOVE_REJECTED) { gm with pc := .getCmd }
  | playersMove (i : Fin GRID_SIZE) (hpc : gm.pc = .playersMove i) :
    Step hd gm .tau
      { gm with grid := Function.update gm.grid i hd.PLAYER_ID, pc := .checkState }
  | computersTurn (i : Fin GRID_SIZE) (hpc : gm.pc = .computersTurn) (hi : gm.grid i = EMPTY_ID) :
    Step hd gm .tau { gm with grid := Function.update gm.grid i hd.AI_ID, pc := .checkState }
  | progress (hpc : gm.pc = .checkState) (hwin : win hd gm.grid = .STATE_PROGRESS) :
    Step hd gm .tau { gm with
      player := if gm.player = hd.PLAYER_ID then hd.AI_ID else hd.PLAYER_ID
      pc := .loop }
  | verdict (v : Cmd) (player : Int) (hpc : gm.pc = .checkState) (hv : v.IsVerdict)
    (hmatches : Moved hd gm.grid gm.player → Matches hd gm.grid v) :
    Step hd gm (.send v) { gm with game_over := true, player, pc := .loop }
  | gameEnd (hpc : gm.pc = .gameEnd) : Step hd gm (.send .GAME_END) { gm with pc := .returned }

/-- The game is not over and nobody has a line. -/
structure Gm.Playing (hd : Header) (gm : Gm) : Prop where
  going : gm.game_over = false
  board : Board hd gm.grid gm.player

/-- The game is over. -/
structure Gm.Ended (hd : Header) (gm : Gm) : Prop where
  game_over : gm.game_over = true
  turn : gm.grid.marks hd.PLAYER_ID = gm.grid.marks hd.AI_ID ∨
    gm.grid.marks hd.PLAYER_ID = gm.grid.marks hd.AI_ID + 1

/-- What holds at each point of the game manager. -/
def Gm.Ok (hd : Header) (gm : Gm) : Prop :=
  match gm.pc with
  | .gameStart => gm.Playing hd
  | .loop => gm.Playing hd ∨ gm.Ended hd
  | .youCanPlay | .getCmd | .rejected => gm.Playing hd ∧ gm.player = hd.PLAYER_ID
  | .playersMove move =>
    gm.Playing hd ∧ gm.player = hd.PLAYER_ID ∧
      ∃ i : Fin GRID_SIZE, (i : Int) = move ∧ gm.grid i = EMPTY_ID
  | .computersTurn => gm.Playing hd ∧ gm.player = hd.AI_ID
  | .checkState => gm.game_over = false ∧ Moved hd gm.grid gm.player
  | .gameEnd | .returned => gm.Ended hd

section
variable {hd : Header} {gm gm' : Gm} {l : Label Cmd Int}

theorem init_game_ok (hd : Header) : (init_game hd).Ok hd := ⟨rfl, .init⟩

theorem check_game_state_step (hpc : gm.pc = .checkState)
    (h : (check_game_state hd gm).take l = some gm') : Gm.Step hd gm l gm' := by
  rw [check_game_state] at h
  cases hwin : win hd gm.grid with
  | STATE_PROGRESS =>
    rw [hwin] at h
    obtain ⟨rfl, rfl⟩ := Next.take_goto.mp h
    exact .progress hpc hwin
  | STATE_WIN =>
    rw [hwin] at h
    obtain ⟨rfl, rfl⟩ := Next.take_send.mp h
    refine .verdict _ _ hpc ?_ fun M => M.matches_win hwin
    split_ifs
    · exact .inl rfl
    · exact .inr (.inl rfl)
  | STATE_DRAW =>
    rw [hwin] at h
    obtain ⟨rfl, rfl⟩ := Next.take_send.mp h
    exact .verdict _ _ hpc (.inr (.inr rfl)) fun _ => matches_draw hwin

theorem Gm.Ok.step (H : gm.Ok hd) (h : (game_manager hd gm).take l = some gm') :
    Gm.Step hd gm l gm' := by
  rw [Gm.Ok] at H
  rw [game_manager] at h
  cases hpc : gm.pc with
  | gameStart =>
    rw [hpc] at h
    obtain ⟨rfl, rfl⟩ := Next.take_send.mp h
    exact .gameStart hpc
  | loop =>
    rw [hpc] at h
    obtain ⟨rfl, rfl⟩ := Next.take_goto.mp h
    split_ifs with hover hplayer
    · exact .game_over hpc hover
    · exact .player hpc (Bool.eq_false_iff.mpr hover) hplayer
    · exact .computer hpc (Bool.eq_false_iff.mpr hover) hplayer
  | youCanPlay =>
    rw [hpc] at h
    obtain ⟨rfl, rfl⟩ := Next.take_send.mp h
    exact .youCanPlay hpc
  | getCmd =>
    rw [hpc] at h
    obtain ⟨move, rfl, rfl⟩ := Next.take_get.mp h
    cases hmove : rejects gm.grid move with
    | true => exact .illegal move hpc (rejects_iff.mp hmove)
    | false =>
      obtain ⟨i, rfl, hi⟩ := exists_of_not_rejects hmove
      exact .legal i hpc hi
  | rejected =>
    rw [hpc] at h
    obtain ⟨rfl, rfl⟩ := Next.take_send.mp h
    exact .rejected hpc
  | playersMove move =>
    rw [hpc] at h H
    obtain ⟨-, -, i, rfl, hi⟩ := H
    simp only [Grid.set_cell] at h
    obtain ⟨rfl, rfl⟩ := Next.take_goto.mp h
    exact .playersMove i hpc
  | computersTurn =>
    rw [hpc] at h H
    obtain ⟨hplaying, -⟩ := H
    obtain ⟨i, hi, hturn⟩ := computers_turn_of_exists hd hplaying.board.room
    simp only [hturn, Int.add_sub_cancel, Grid.set_cell] at h
    obtain ⟨rfl, rfl⟩ := Next.take_goto.mp h
    exact .computersTurn i hpc hi
  | checkState =>
    rw [hpc] at h
    exact check_game_state_step hpc h
  | gameEnd =>
    rw [hpc] at h
    obtain ⟨rfl, rfl⟩ := Next.take_send.mp h
    exact .gameEnd hpc
  | returned =>
    rw [hpc] at h
    exact absurd (Next.take_exit.symm.trans h) (Option.some_ne_none _).symm

/-- What holds where the turn is the player's or the computer's own. -/
theorem Gm.Playing.turn_ai (H : gm.Playing hd) (hplayer : gm.player ≠ hd.PLAYER_ID) :
    gm.player = hd.AI_ID :=
  H.board.turn.elim (fun h => absurd h.1 hplayer) And.left

theorem Gm.Playing.of_loop (H : gm.Ok hd) (hpc : gm.pc = .loop) (hover : gm.game_over = false) :
    gm.Playing hd := by
  rw [Gm.Ok, hpc] at H
  exact H.resolve_right fun E => absurd E.game_over (hover ▸ nofun)

theorem Moved.marks {g : Grid GRID_SIZE} {player : Int} (M : Moved hd g player) :
    g.marks hd.PLAYER_ID = g.marks hd.AI_ID ∨ g.marks hd.PLAYER_ID = g.marks hd.AI_ID + 1 :=
  M.turn.elim (fun h => .inr h.2) fun h => .inl h.2

theorem Gm.Step.ok (h : Gm.Step hd gm l gm') (H : gm.Ok hd) : gm'.Ok hd := by
  cases h with
  | gameStart hpc =>
    rw [Gm.Ok, hpc] at H
    exact .inl ⟨H.going, H.board⟩
  | game_over hpc hover =>
    rw [Gm.Ok, hpc] at H
    have E := H.resolve_left fun P => absurd hover (P.going ▸ nofun)
    exact ⟨E.game_over, E.turn⟩
  | player hpc hover hplayer =>
    have P := Gm.Playing.of_loop H hpc hover
    exact ⟨⟨P.going, P.board⟩, hplayer⟩
  | computer hpc hover hplayer =>
    have P := Gm.Playing.of_loop H hpc hover
    exact ⟨⟨P.going, P.board⟩, P.turn_ai hplayer⟩
  | youCanPlay hpc =>
    rw [Gm.Ok, hpc] at H
    exact ⟨⟨H.1.going, H.1.board⟩, H.2⟩
  | illegal move hpc hmove =>
    rw [Gm.Ok, hpc] at H
    exact ⟨⟨H.1.going, H.1.board⟩, H.2⟩
  | legal i hpc hi =>
    rw [Gm.Ok, hpc] at H
    exact ⟨⟨H.1.going, H.1.board⟩, H.2, i, rfl, hi⟩
  | rejected hpc =>
    rw [Gm.Ok, hpc] at H
    exact ⟨⟨H.1.going, H.1.board⟩, H.2⟩
  | playersMove i hpc =>
    rw [Gm.Ok, hpc] at H
    obtain ⟨P, hplayer, j, hji, hj⟩ := H
    obtain rfl : j = i := Fin.ext (by exact_mod_cast hji)
    exact ⟨P.going, hplayer ▸ P.board.play hj⟩
  | computersTurn i hpc hi =>
    rw [Gm.Ok, hpc] at H
    obtain ⟨P, hplayer⟩ := H
    exact ⟨P.going, hplayer ▸ P.board.play hi⟩
  | progress hpc hwin =>
    rw [Gm.Ok, hpc] at H
    exact .inl ⟨H.1, H.2.board hwin⟩
  | verdict v player hpc hv hmatches =>
    rw [Gm.Ok, hpc] at H
    exact .inr ⟨rfl, H.2.marks⟩
  | gameEnd hpc =>
    rw [Gm.Ok, hpc] at H
    exact ⟨H.game_over, H.turn⟩

theorem Board.marks {g : Grid GRID_SIZE} {player : Int} (B : Board hd g player) :
    g.marks hd.PLAYER_ID = g.marks hd.AI_ID ∨ g.marks hd.PLAYER_ID = g.marks hd.AI_ID + 1 :=
  B.turn.elim (fun h => .inl h.2) fun h => .inr h.2

theorem Gm.Ok.marks (H : gm.Ok hd) :
    gm.grid.marks hd.PLAYER_ID = gm.grid.marks hd.AI_ID ∨
      gm.grid.marks hd.PLAYER_ID = gm.grid.marks hd.AI_ID + 1 := by
  rw [Gm.Ok] at H
  cases hpc : gm.pc <;> rw [hpc] at H
  case gameStart => exact H.board.marks
  case loop => exact H.elim (fun P => P.board.marks) Gm.Ended.turn
  case checkState => exact H.2.marks
  case gameEnd => exact H.turn
  case returned => exact H.turn
  all_goals exact H.1.board.marks

/-- No access outside of the grid. -/
theorem Gm.Ok.defined (H : gm.Ok hd) : game_manager hd gm ≠ .undefined := by
  rw [Gm.Ok] at H
  rw [game_manager]
  cases hpc : gm.pc <;> rw [hpc] at H
  case playersMove move =>
    obtain ⟨-, -, i, rfl, -⟩ := H
    simp
  case computersTurn =>
    obtain ⟨i, -, hturn⟩ := computers_turn_of_exists hd H.1.board.room
    simp [hturn]
  case checkState =>
    rw [check_game_state]
    cases win hd gm.grid <;> nofun
  all_goals nofun

/-- Marks are never changed. -/
theorem Gm.Step.grid (h : Gm.Step hd gm l gm') (H : gm.Ok hd) (i : Fin GRID_SIZE)
    (hi : gm.grid i ≠ EMPTY_ID) : gm'.grid i = gm.grid i := by
  cases h with
  | playersMove j hpc =>
    rw [Gm.Ok, hpc] at H
    obtain ⟨-, -, k, hkj, hk⟩ := H
    obtain rfl : k = j := Fin.ext (by exact_mod_cast hkj)
    have hik : i ≠ k := by
      rintro rfl
      exact hi hk
    exact Function.update_of_ne hik _ _
  | computersTurn j hpc hj =>
    have hij : i ≠ j := by
      rintro rfl
      exact hi hj
    exact Function.update_of_ne hij _ _
  | _ => rfl

/-- `MOVE_REJECTED` is sent from one place. -/
theorem Gm.Step.rejected_iff (h : Gm.Step hd gm l gm') :
    l = .send .MOVE_REJECTED ↔ gm.pc = .rejected := by
  cases h with
  | verdict v player hpc hv hmatches =>
    rw [hpc]
    refine iff_of_false ?_ nofun
    rintro ⟨⟩
    exact absurd hv (by decide)
  | rejected hpc => exact iff_of_true rfl hpc
  | _ => simp_all

/-- It is reached when an illegal value has been received. -/
theorem Gm.Step.pc_eq_rejected_iff (h : Gm.Step hd gm l gm') :
    gm'.pc = .rejected ↔ ∃ move, l = .get move ∧ Illegal gm.grid move := by
  cases h with
  | illegal move hpc hmove => exact iff_of_true rfl ⟨move, rfl, hmove⟩
  | legal i hpc hi =>
    refine iff_of_false nofun ?_
    rintro ⟨move, heq, h | h | ⟨j, hj, hne⟩⟩
    · cases heq
      omega
    · cases heq
      omega
    · cases heq
      obtain rfl : j = i := Fin.ext (by exact_mod_cast hj)
      exact hne hi
  | _ => simp

end

theorem Gm.Step.not_isVerdict (h : Gm.Step hd gm l gm') (hover : gm'.game_over = false) (v : Cmd)
    (hl : l = .send v) : ¬v.IsVerdict := by
  cases h with
  | verdict => cases hover
  | _ => cases hl <;> decide

/-- The game is over with the verdict. -/
theorem Gm.Step.eq_verdict (h : Gm.Step hd gm l gm') (hgoing : gm.game_over = false)
    (hover : gm'.game_over = true) (H : gm.Ok hd) :
    ∃ v, l = .send v ∧ v.IsVerdict ∧ Matches hd gm'.grid v := by
  cases h with
  | verdict v player hpc hv hmatches =>
    rw [Gm.Ok, hpc] at H
    exact ⟨v, rfl, hv, hmatches H.2⟩
  | _ => exact absurd (hgoing.symm.trans hover) nofun

/-- Then the manager sends `GAME_END` and returns. -/
theorem Gm.Step.of_over (h : Gm.Step hd gm l gm') (hover : gm.game_over = true) (H : gm.Ok hd) :
    l = .tau ∧ gm' = { gm with pc := .gameEnd } ∧ gm.pc = .loop ∨
      l = .send .GAME_END ∧ gm' = { gm with pc := .returned } ∧ gm.pc = .gameEnd := by
  cases h with
  | game_over hpc => exact .inl ⟨rfl, rfl, hpc⟩
  | gameEnd hpc => exact .inr ⟨rfl, rfl, hpc⟩
  | player _ hgoing | computer _ hgoing => exact absurd (hgoing.symm.trans hover) nofun
  | gameStart hpc =>
    rw [Gm.Ok, hpc] at H
    exact absurd (H.going.symm.trans hover) nofun
  | youCanPlay hpc | illegal _ hpc | legal _ hpc | rejected hpc | playersMove _ hpc
  | computersTurn _ hpc =>
    rw [Gm.Ok, hpc] at H
    exact absurd (H.1.going.symm.trans hover) nofun
  | progress hpc | verdict _ _ hpc =>
    rw [Gm.Ok, hpc] at H
    exact absurd (H.1.symm.trans hover) nofun

theorem Gm.Step.over_mono (h : Gm.Step hd gm l gm') (hover : gm'.game_over = false) :
    gm.game_over = false := by
  cases h with
  | verdict => cases hover
  | _ => exact hover

/-! ## Runs -/

/-- Something that the game manager sent or received, and the grid at that time. -/
structure Entry where
  label : Label Cmd Int
  grid : Grid GRID_SIZE

structure Run where
  gm : Gm
  history : List Entry := []

def Run.record (s : Run) (l : Label Cmd Int) : List Entry :=
  if l = .tau then s.history else s.history ++ [⟨l, s.gm.grid⟩]

section
variable (hd : Header)

def Run.step (s : Run) (l : Label Cmd Int) : Option Run := do
  let gm ← (game_manager hd s.gm).take l
  return { gm, history := s.record l }

/-- A game with the values of the labels `get` as those that `gm_get_cmd` returns. -/
def Run.run (s : Run) (labels : List (Label Cmd Int)) : Option Run := labels.foldlM (Run.step hd) s

end

/-- An illegal value has been received. -/
def Entry.Illegal (e : Entry) : Prop := ∃ move, e.label = .get move ∧ Tictactoe.Illegal e.grid move

/-- The rejections are those entries that follow an illegal value. -/
structure Rejections (history : List Entry) : Prop where
  answers : history.IsChain fun e e' => e.Illegal ↔ e'.label = .send .MOVE_REJECTED
  first : ∀ e ∈ history.head?, e.label ≠ .send .MOVE_REJECTED

def NoVerdict (history : List Entry) : Prop :=
  ∀ e ∈ history, ∀ v, e.label = .send v → ¬v.IsVerdict

/-- The last entry is the only verdict, and it is right. -/
def Decided (hd : Header) (g : Grid GRID_SIZE) (history : List Entry) : Prop :=
  ∃ before e v, history = before ++ [e] ∧ NoVerdict before ∧ e.label = .send v ∧ v.IsVerdict ∧
    Matches hd g v

/-- `GAME_END` follows the verdict. -/
def Finished (hd : Header) (g : Grid GRID_SIZE) (history : List Entry) : Prop :=
  ∃ before e, history = before ++ [e] ∧ Decided hd g before ∧ e.label = .send .GAME_END

structure Run.Ok (hd : Header) (s : Run) : Prop where
  gm : s.gm.Ok hd
  rejections : Rejections s.history
  pending : (∃ e ∈ s.history.getLast?, e.Illegal) ↔ s.gm.pc = .rejected
  going : s.gm.game_over = false → NoVerdict s.history
  decided : s.gm.game_over = true → s.gm.pc ≠ .returned → Decided hd s.gm.grid s.history
  finished : s.gm.pc = .returned → Finished hd s.gm.grid s.history

section
variable {hd : Header} {s s' : Run} {l : Label Cmd Int} {gm' : Gm}

theorem Run.Ok.init (hd : Header) : Run.Ok hd { gm := init_game hd } where
  gm := init_game_ok hd
  rejections := ⟨.nil, nofun⟩
  pending := iff_of_false nofun nofun
  going _ := nofun
  decided := nofun
  finished := nofun

theorem Run.record_of_ne (hl : l ≠ .tau) : s.record l = s.history ++ [⟨l, s.gm.grid⟩] :=
  if_neg hl

theorem Run.Ok.rejections_record (H : s.Ok hd) (h : Gm.Step hd s.gm l gm') :
    Rejections (s.record l) := by
  by_cases hl : l = .tau
  · rw [Run.record, if_pos hl]
    exact H.rejections
  rw [Run.record_of_ne hl]
  refine ⟨List.isChain_append.mpr ⟨H.rejections.answers, .singleton _, ?_⟩, ?_⟩
  · intro e he e' he'
    obtain rfl := Option.mem_some.mp he'
    rw [h.rejected_iff, ← H.pending]
    exact ⟨fun hill => ⟨e, he, hill⟩, fun ⟨a, ha, hill⟩ => Option.mem_unique ha he ▸ hill⟩
  · intro e he
    cases hh : s.history with
    | nil =>
      rw [hh] at he
      obtain rfl := Option.mem_some.mp he
      rw [Ne, h.rejected_iff, ← H.pending, hh]
      nofun
    | cons a history =>
      rw [hh] at he
      refine H.rejections.first e ?_
      rw [hh]
      exact he

theorem Run.Ok.pending_record (H : s.Ok hd) (h : Gm.Step hd s.gm l gm') :
    (∃ e ∈ (s.record l).getLast?, e.Illegal) ↔ gm'.pc = .rejected := by
  rw [h.pc_eq_rejected_iff]
  by_cases hl : l = .tau
  · have hpc : s.gm.pc ≠ .rejected := h.rejected_iff.not.mp (hl ▸ nofun)
    rw [Run.record, if_pos hl, H.pending, hl]
    exact iff_of_false hpc nofun
  · rw [Run.record_of_ne hl, List.getLast?_append]
    simp [Entry.Illegal]

theorem Run.Ok.going_record (H : s.Ok hd) (h : Gm.Step hd s.gm l gm')
    (hover : gm'.game_over = false) : NoVerdict (s.record l) := by
  have hgoing := H.going (h.over_mono hover)
  intro e he
  rw [Run.record] at he
  split_ifs at he
  · exact hgoing e he
  · rcases List.mem_append.mp he with he | he
    · exact hgoing e he
    · cases List.mem_singleton.mp he
      exact h.not_isVerdict hover

theorem Run.Ok.decided_record (H : s.Ok hd) (h : Gm.Step hd s.gm l gm')
    (hover : gm'.game_over = true) (hpc : gm'.pc ≠ .returned) :
    Decided hd gm'.grid (s.record l) := by
  cases hgoing : s.gm.game_over with
  | false =>
    obtain ⟨v, rfl, hv, hmatches⟩ := h.eq_verdict hgoing hover H.gm
    exact ⟨s.history, _, v, Run.record_of_ne nofun, H.going hgoing, rfl, hv, hmatches⟩
  | true =>
    obtain ⟨rfl, rfl, hloop⟩ | ⟨rfl, rfl, -⟩ := h.of_over hgoing H.gm
    · exact H.decided hgoing (hloop ▸ nofun)
    · exact absurd rfl hpc

theorem Run.Ok.finished_record (H : s.Ok hd) (h : Gm.Step hd s.gm l gm')
    (hpc : gm'.pc = .returned) : Finished hd gm'.grid (s.record l) := by
  cases h with
  | gameEnd hend =>
    have hover : s.gm.game_over = true := by
      have hgm := H.gm
      rw [Gm.Ok, hend] at hgm
      exact hgm.game_over
    exact ⟨s.history, _, Run.record_of_ne nofun, H.decided hover (hend ▸ nofun), rfl⟩
  | _ => exact absurd hpc (by simp_all)

theorem Run.Ok.step (H : s.Ok hd) (h : Run.step hd s l = some s') :
    s'.Ok hd ∧ ∀ i, s.gm.grid i ≠ EMPTY_ID → s'.gm.grid i = s.gm.grid i := by
  obtain ⟨gm', ht, h⟩ := Option.bind_eq_some_iff.mp h
  cases h
  have hstep := H.gm.step ht
  exact ⟨⟨hstep.ok H.gm, H.rejections_record hstep, H.pending_record hstep,
    H.going_record hstep, H.decided_record hstep, H.finished_record hstep⟩,
    hstep.grid H.gm⟩

theorem Run.Ok.run {labels : List (Label Cmd Int)} (H : s.Ok hd)
    (h : Run.run hd s labels = some s') :
    s'.Ok hd ∧ ∀ i, s.gm.grid i ≠ EMPTY_ID → s'.gm.grid i = s.gm.grid i := by
  induction labels generalizing s with
  | nil =>
    cases h
    exact ⟨H, fun _ _ => rfl⟩
  | cons l labels ih =>
    rw [Run.run, List.foldlM_cons] at h
    obtain ⟨t, ht, h⟩ := Option.bind_eq_some_iff.mp h
    obtain ⟨Ht, hkept⟩ := H.step ht
    obtain ⟨H', hkept'⟩ := ih Ht h
    refine ⟨H', fun i hi => ?_⟩
    have hti := hkept i hi
    exact (hkept' i (hti ▸ hi)).trans hti

end

/-- What the game manager guarantees in every state of a game. -/
structure Run.Sound (hd : Header) (s : Run) : Prop where
  marks : s.gm.grid.marks hd.PLAYER_ID = s.gm.grid.marks hd.AI_ID ∨
    s.gm.grid.marks hd.PLAYER_ID = s.gm.grid.marks hd.AI_ID + 1
  room : s.gm.pc = .computersTurn → ∃ i, s.gm.grid i = EMPTY_ID
  defined : game_manager hd s.gm ≠ .undefined
  rejections : Rejections s.history
  pending : (∃ e ∈ s.history.getLast?, e.Illegal) ↔ s.gm.pc = .rejected
  decided : s.gm.pc = .gameEnd → Decided hd s.gm.grid s.history
  finished : s.gm.pc = .returned → Finished hd s.gm.grid s.history

/-- Whatever `gm_get_cmd` returns, the verdict of the game manager is the right one, the turns
alternate, illegal values and no others are rejected, and marks stay. -/
theorem run_sound (hd : Header) (labels : List (Label Cmd Int)) (s : Run)
    (h : Run.run hd { gm := init_game hd } labels = some s) :
    s.Sound hd ∧ ∀ more s', Run.run hd s more = some s' →
      ∀ i, s.gm.grid i ≠ EMPTY_ID → s'.gm.grid i = s.gm.grid i := by
  have H := ((Run.Ok.init hd).run h).1
  refine ⟨⟨H.gm.marks, fun hpc => ?_, H.gm.defined, H.rejections, H.pending, fun hpc => ?_,
    H.finished⟩, fun more s' h' => (H.run h').2⟩
  · have hgm := H.gm
    rw [Gm.Ok, hpc] at hgm
    exact hgm.1.board.room
  · have hgm := H.gm
    rw [Gm.Ok, hpc] at hgm
    exact H.decided hgm.game_over (hpc ▸ nofun)

def standardHeader : Header where
  PLAYER_ID := 1
  AI_ID := -1
  MAX_DEPTH := 2
  player_ne_zero := by decide
  opposite := rfl

/-- The player takes a diagonal, with an illegal value on the way. -/
def diagonal : List (Label Cmd Int) :=
  [.send .GAME_START, .tau, .send .YOU_CAN_PLAY, .get 9, .send .MOVE_REJECTED, .get 2, .tau, .tau,
    .tau, .tau, .tau, .tau, .send .YOU_CAN_PLAY, .get 4, .tau, .tau, .tau, .tau, .tau, .tau,
    .send .YOU_CAN_PLAY, .get 6, .tau, .send .YOU_WIN, .tau, .send .GAME_END]

theorem run_sound_diagonal :
    ∃ s, Run.run standardHeader { gm := init_game standardHeader } diagonal = some s ∧
      s.gm.pc = .returned ∧ s.Sound standardHeader := by
  have hrun : (Run.run standardHeader { gm := init_game standardHeader } diagonal).map
      (fun s => s.gm.pc) = some .returned := by decide +kernel
  obtain ⟨s, hs, hpc⟩ := Option.map_eq_some_iff.mp hrun
  exact ⟨s, hs, hpc, (run_sound standardHeader diagonal s hs).1⟩

end SyeLabs.Tictactoe
