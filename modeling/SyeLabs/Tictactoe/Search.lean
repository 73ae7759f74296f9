import SyeLabs.Theory.Negamax
import SyeLabs.Theory.Scan
import SyeLabs.Tictactoe.Game

/-!
# What the search of the computer finds

`minmax` counts a move as good if it is bad for the opponent, but no position is ever lost: the
search does not look at the lines. It leaves the grid as it was, and the computer takes the first
empty cell. That is a best move as long as nobody can force anything.
-/

namespace SyeLabs.Tictactoe
open Negamax Scan

/-! ## The grid after the search -/

section
variable {n : Nat} {g : Grid n} {hd : Header}

/-- The marks are taken back wherever the loop is left. -/
theorem minmaxLoop_grid {search : Int → Grid n → Int × Grid n}
    (hsearch : ∀ p g, (search p g).2 = g) (player : Int) (cells : List (Fin n)) (move score : Int)
    (g : Grid n) : (minmaxLoop search player cells move score g).2 = g := by
  induction cells generalizing move score with
  | nil => rfl
  | cons i cells ih =>
    rw [minmaxLoop]
    by_cases hi : g i = EMPTY_ID
    · simp only [if_pos hi, hsearch, update_revert hi]
      -- the early return, and the next cell
      split_ifs
      · rfl
      · exact ih _ _
      · rfl
      · exact ih _ _
    · rw [if_neg hi]
      exact ih move score

theorem minmax_grid (depth : Nat) (player : Int) (g : Grid n) :
    (minmax depth player g).2 = g := by
  induction depth generalizing player g with
  | zero => rfl
  | succ depth ih => exact minmaxLoop_grid ih player _ _ _ g

theorem computersLoop_grid (hd : Header) (cells : List (Fin n)) (move score : Int) (g : Grid n) :
    (computersLoop hd cells move score g).2 = g := by
  induction cells generalizing move score with
  | nil => rfl
  | cons i cells ih =>
    rw [computersLoop]
    by_cases hi : g i = EMPTY_ID
    · simp only [if_pos hi, minmax_grid, update_revert hi]
      exact ih _ _
    · rw [if_neg hi]
      exact ih move score

/-- The search leaves no mark behind, and the computer chooses an empty cell if there is one. -/
theorem search_leaves_grid (hd : Header) (g : Grid n) :
    (∀ player depth, (minmax depth player g).2 = g) ∧ (computers_turn hd g).2 = g ∧
      ((∀ i, g i ≠ EMPTY_ID) ∧ (computers_turn hd g).1 = 0 ∨
        ∃ i, g i = EMPTY_ID ∧ (computers_turn hd g).1 = (i : Int) + 1) := by
  refine ⟨fun player depth => minmax_grid depth player g, computersLoop_grid hd _ _ _ g, ?_⟩
  by_cases h : ∃ i, g i = EMPTY_ID
  · obtain ⟨i, hi, hturn⟩ := computers_turn_of_exists hd h
    exact .inr ⟨i, hi, congrArg Prod.fst hturn⟩
  · have hnone : (List.finRange n).find? (fun i => g i = EMPTY_ID) = none :=
      List.find?_eq_none.mpr fun i _ hi => h ⟨i, of_decide_eq_true hi⟩
    refine .inl ⟨not_exists.mp h, ?_⟩
    rw [computers_turn, computersLoop_eq, hnone]
    rfl

theorem computers_turn_of_isFirst {i : Fin n} (hi : IsFirst (fun i => g i = EMPTY_ID) i) :
    (computers_turn hd g).1 = (i : Int) + 1 := by
  have hfind : (List.finRange n).find? (fun i => g i = EMPTY_ID) = some i :=
    find?_finRange.mpr ((IsFirst.congr fun _ => decide_eq_true_iff).mpr hi)
  rw [computers_turn, computersLoop_eq, hfind]
  rfl

end

/-! ## The game -/

/-- A position is the side to move with the grid. It is lost if there is a line. -/
def Header.game (hd : Header) : Game (Int × Grid GRID_SIZE) (Fin GRID_SIZE) where
  moves s := (List.finRange GRID_SIZE).filter fun i => s.2 i = EMPTY_ID
  play s i := (-s.1, Function.update s.2 i s.1)
  lost s := win hd s.2 = .STATE_WIN

section
variable (hd : Header) (g : Grid GRID_SIZE)

/-- The position after a mark of the computer in cell `i`. -/
def afterTurn (i : Fin GRID_SIZE) : Int × Grid GRID_SIZE := hd.game.play (hd.AI_ID, g) i

/-- No mark of the computer is worth more, and it completes a line if one can be completed. -/
structure BestMove (i : Fin GRID_SIZE) : Prop where
  empty : g i = EMPTY_ID
  max : ∀ j, g j = EMPTY_ID → -hd.game.value (hd.MAX_DEPTH - 1).toNat (afterTurn hd g j) ≤
    -hd.game.value (hd.MAX_DEPTH - 1).toNat (afterTurn hd g i)
  completes : (∃ j, g j = EMPTY_ID ∧ HasLine (Function.update g j hd.AI_ID) hd.AI_ID) →
    HasLine (Function.update g i hd.AI_ID) hd.AI_ID

/-- The search finds the value of the grid, whoever is to move, and the computer a best move. -/
structure PlaysBest : Prop where
  search : ∀ player, player = hd.PLAYER_ID ∨ player = hd.AI_ID →
    ∀ depth, (minmax depth player g).1 = hd.game.value depth (player, g)
  turn : ∃ i, BestMove hd g i ∧ (computers_turn hd g).1 = (i : Int) + 1

/-- Nobody who is to move in this grid can force a line or is forced to allow one; and the computer
does not let the player force one when it takes the first empty cell. -/
structure Quiet : Prop where
  level : ∀ player, player = hd.PLAYER_ID ∨ player = hd.AI_ID →
    ∀ depth, ¬hd.game.Wins depth (player, g) ∧ ¬hd.game.Loses depth (player, g)
  first : ∀ i, IsFirst (fun i => g i = EMPTY_ID) i →
    ¬hd.game.Wins (hd.MAX_DEPTH - 1).toNat (afterTurn hd g i)

end

section
variable {hd : Header} {g : Grid GRID_SIZE} {player : Int} {i : Fin GRID_SIZE}

theorem Header.mem_moves : i ∈ hd.game.moves (player, g) ↔ g i = EMPTY_ID := by
  simp [Header.game]

theorem minmax_eq_value_iff (hd : Header) (depth : Nat) (player : Int) (g : Grid GRID_SIZE) :
    (minmax depth player g).1 = hd.game.value depth (player, g) ↔
      ¬hd.game.Wins depth (player, g) ∧ ¬hd.game.Loses depth (player, g) := by
  rw [minmax_eq, ← Game.value_eq_zero_iff, eq_comm]

/-- The opponent of a side that completes a line has lost. -/
theorem Header.wins_of_line (hline : win hd g ≠ .STATE_WIN) (hi : g i = EMPTY_ID)
    (h : HasLine (Function.update g i hd.AI_ID) hd.AI_ID) : hd.game.Wins 1 (hd.AI_ID, g) := by
  refine ⟨decide_eq_false hline, i, Header.mem_moves.mpr hi, ?_⟩
  exact decide_eq_true (win_eq_win.mpr (.inr h))

/-- Nobody wins a full grid without a line. -/
theorem Header.level_of_draw (h : win hd g = .STATE_DRAW) (player : Int) (depth : Nat) :
    ¬hd.game.Wins depth (player, g) ∧ ¬hd.game.Loses depth (player, g) := by
  have hlost : hd.game.lost (player, g) = false := decide_eq_false (h ▸ nofun)
  have hmoves : ∀ i, i ∉ hd.game.moves (player, g) :=
    fun i hi => (win_eq_draw h).2.2 i (Header.mem_moves.mp hi)
  cases depth with
  | zero => exact ⟨id, Bool.eq_false_iff.mp hlost⟩
  | succ depth =>
    constructor
    · rintro ⟨-, i, hi, -⟩
      exact hmoves i hi
    · rintro (h | ⟨hne, -⟩)
      · exact Bool.eq_false_iff.mp hlost h
      · exact hne (List.eq_nil_iff_forall_not_mem.mpr hmoves)

theorem Quiet.bestMove (Q : Quiet hd g) (hi : IsFirst (fun i => g i = EMPTY_ID) i) :
    BestMove hd g i := by
  have hlevel := Q.level hd.AI_ID (.inr rfl)
  have hline : hd.game.lost (hd.AI_ID, g) = false := Bool.eq_false_iff.mpr (hlevel 0).2
  constructor
  case empty => exact hi.1
  case max =>
    intro j hj
    refine Game.neg_value_le_iff.mpr ⟨fun hloses => ?_, fun hwins => absurd hwins (Q.first i hi)⟩
    exact absurd ⟨hline, j, Header.mem_moves.mpr hj, hloses⟩
      (hlevel ((hd.MAX_DEPTH - 1).toNat + 1)).1
  case completes =>
    rintro ⟨j, hj, h⟩
    exact absurd (Header.wins_of_line (of_decide_eq_false hline) hj h) (hlevel 1).1

theorem PlaysBest.quiet (P : PlaysBest hd g) : Quiet hd g := by
  have hlevel : ∀ player, player = hd.PLAYER_ID ∨ player = hd.AI_ID →
      ∀ depth, ¬hd.game.Wins depth (player, g) ∧ ¬hd.game.Loses depth (player, g) :=
    fun player hp depth => (minmax_eq_value_iff hd depth player g).mp (P.search player hp depth)
  refine ⟨hlevel, fun i hi hwins => ?_⟩
  obtain ⟨k, B, hk⟩ := P.turn
  obtain rfl : k = i := by
    have hturn : (computers_turn hd g).1 = (i : Int) + 1 := computers_turn_of_isFirst hi
    exact Fin.ext (by omega)
  -- if the first cell loses, so do all others
  refine (hlevel hd.AI_ID (.inr rfl) ((hd.MAX_DEPTH - 1).toNat + 1)).2 (.inr ⟨?_, fun j hj => ?_⟩)
  · exact List.ne_nil_of_mem (Header.mem_moves.mpr B.empty)
  · exact (Game.neg_value_le_iff.mp (B.max j (Header.mem_moves.mp hj))).2 hwins

end

/-- The search returns the value of the grid and the computer makes a best move exactly if the grid
is quiet. -/
theorem playsBest_iff (hd : Header) (g : Grid GRID_SIZE) (hex : ∃ i, g i = EMPTY_ID) :
    PlaysBest hd g ↔ Quiet hd g := by
  refine ⟨PlaysBest.quiet, fun Q => ⟨fun player hp depth => ?_, ?_⟩⟩
  · exact (minmax_eq_value_iff hd depth player g).mpr (Q.level player hp depth)
  · obtain ⟨i, hi⟩ := exists_isFirst hex
    exact ⟨i, Q.bestMove hi, computers_turn_of_isFirst hi⟩

/-- The marks -1 of the player and 1 of the computer, and a search of nine moves. -/
def plainHeader : Header := ⟨-1, 1, 9, by decide, rfl⟩

/-- One cell is left, and completes no line. -/
def lastCell : Grid GRID_SIZE := [-1, 1, -1, -1, 1, 1, 1, -1, 0].get

theorem lastCell_quiet : Quiet plainHeader lastCell := by
  have hcell : ∀ i, lastCell i = EMPTY_ID → i = 8 := by decide
  have hdraw : ∀ player, player = plainHeader.PLAYER_ID ∨ player = plainHeader.AI_ID →
      win plainHeader (Function.update lastCell 8 player) = .STATE_DRAW := by
    rintro player (rfl | rfl) <;> decide
  constructor
  case level =>
    intro player hp depth
    have hlost : plainHeader.game.lost (player, lastCell) = false := by
      change decide (win plainHeader lastCell = .STATE_WIN) = false
      decide
    cases depth with
    | zero => exact ⟨id, Bool.eq_false_iff.mp hlost⟩
    | succ depth =>
      have hover := Header.level_of_draw (hdraw player hp) (-player) depth
      constructor
      · rintro ⟨-, i, hi, hloses⟩
        cases hcell i (Header.mem_moves.mp hi)
        exact hover.2 hloses
      · rintro (h | ⟨-, hwins⟩)
        · exact Bool.eq_false_iff.mp hlost h
        · exact hover.1 (hwins 8 (Header.mem_moves.mpr (by decide)))
  case first =>
    intro i hi
    cases hcell i hi.1
    exact (Header.level_of_draw (hdraw _ (.inr rfl)) _ _).1

theorem playsBest_iff_lastCell : PlaysBest plainHeader lastCell :=
  (playsBest_iff plainHeader lastCell ⟨8, by decide⟩).mpr lastCell_quiet

/-- After the moves 1, 0, 2, 3 and 5, the player's the first, third and fifth. -/
def openLine : Grid GRID_SIZE := [1, -1, -1, 1, 0, -1, 0, 0, 0].get

/-- The computer could complete its line in cell 6, and takes cell 4. -/
theorem not_playsBest_line : win plainHeader openLine = .STATE_PROGRESS ∧
    HasLine (Function.update openLine 6 plainHeader.AI_ID) plainHeader.AI_ID ∧
    (computers_turn plainHeader openLine).1 = 5 ∧ ¬PlaysBest plainHeader openLine := by
  have hline : HasLine (Function.update openLine 6 plainHeader.AI_ID) plainHeader.AI_ID := by
    unfold HasLine
    decide
  have hfirst : IsFirst (fun i => openLine i = EMPTY_ID) 4 := ⟨by decide, by decide⟩
  have hturn : (computers_turn plainHeader openLine).1 = ((4 : Fin GRID_SIZE) : Int) + 1 :=
    computers_turn_of_isFirst hfirst
  refine ⟨by decide, hline, hturn, fun P => ?_⟩
  obtain ⟨i, B, hi⟩ := P.turn
  obtain rfl : i = 4 := by
    rw [hturn] at hi
    exact Fin.ext (by omega)
  have hno := B.completes ⟨6, by decide, hline⟩
  unfold HasLine at hno
  revert hno
  decide

end SyeLabs.Tictactoe
