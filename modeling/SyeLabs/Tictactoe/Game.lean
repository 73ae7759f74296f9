import Mathlib.Data.Fintype.Card
import Mathlib.Data.Int.Basic
import Mathlib.Logic.Function.Basic
import Mathlib.Tactic.Common

/-!
# The grid of `tictactoe_gm.c`

The moves of the computer and the test for the end of the game. The search works on the grid of
the game itself, so it takes the grid and returns it.
-/

namespace SyeLabs.Tictactoe

def EMPTY_ID : Int := 0
abbrev GRID_SIZE : Nat := 9

/-- Constants of `tictactoe.h`. -/
structure Header where
  PLAYER_ID : Int
  AI_ID : Int
  MAX_DEPTH : Int
  player_ne_zero : PLAYER_ID ≠ 0
  opposite : AI_ID = -PLAYER_ID

/-- `game.grid`. -/
abbrev Grid (n : Nat) := Fin n → Int

section
variable {n : Nat}

/-- `game.grid[i]`; `none` outside the array. -/
def Grid.get (g : Grid n) (i : Int) : Option Int :=
  if h : 0 ≤ i ∧ i < n then some (g ⟨i.toNat, by omega⟩) else none

/-- `game.grid[i] = id`. -/
def Grid.set (g : Grid n) (i : Int) (id : Int) : Option (Grid n) :=
  if h : 0 ≤ i ∧ i < n then some (Function.update g ⟨i.toNat, by omega⟩ id) else none

/-! ## The search -/

/-- The loop of `minmax`, with the recursive call as an argument. -/
def minmaxLoop (search : Int → Grid n → Int × Grid n) (player : Int) :
    List (Fin n) → Int → Int → Grid n → Int × Grid n
  | [], move, score, g => (if move = -1 then 0 else score, g)
  | i :: cells, move, score, g =>
    if g i = EMPTY_ID then
      let (s, g) := search (-player) (Function.update g i player)
      let next_score := -s
      let (score, move) := if next_score > score then (next_score, (i : Int)) else (score, move)
      let g := Function.update g i 0
      if score > 0 then (score, g) else minmaxLoop search player cells move score g
    else minmaxLoop search player cells move score g

def minmax : Nat → Int → Grid n → Int × Grid n
  | 0, _, g => (0, g)
  | depth + 1, player, g => minmaxLoop (minmax depth) player (List.finRange n) (-1) (-2) g

variable (hd : Header)

/-- The argument `depth - 1`, converted to `unsigned int`. -/
def Header.searchDepth : Nat := (BitVec.ofInt 32 (hd.MAX_DEPTH - 1)).toNat

def computersLoop : List (Fin n) → Int → Int → Grid n → Int × Grid n
  | [], move, _, g => (move, g)
  | i :: cells, move, score, g =>
    if g i = EMPTY_ID then
      let (s, g) := minmax hd.searchDepth hd.AI_ID (Function.update g i hd.AI_ID)
      let tempScore := -s
      let (score, move) := if tempScore > score then (tempScore, (i : Int)) else (score, move)
      computersLoop cells move score (Function.update g i 0)
    else computersLoop cells move score g

def computers_turn (g : Grid n) : Int × Grid n :=
  let (move, g) := computersLoop hd (List.finRange n) (-1) (-2) g
  (move + 1, g)

end

/-! ## The end of the game -/

inductive GameState where
  | STATE_PROGRESS
  | STATE_WIN
  | STATE_DRAW
  deriving DecidableEq, Repr

/-- The triples of cells in the order of the tests in `win`. -/
def lines : List (Fin GRID_SIZE × Fin GRID_SIZE × Fin GRID_SIZE) :=
  [(0, 1, 2), (3, 4, 5), (6, 7, 8), (0, 3, 6), (1, 4, 7), (2, 5, 8), (0, 4, 8), (2, 4, 6)]

def win (hd : Header) (g : Grid GRID_SIZE) : GameState :=
  if lines.any fun (a, b, c) =>
      (g a = hd.PLAYER_ID || g a = hd.AI_ID) && g a = g b && g b = g c then
    .STATE_WIN
  else if (List.finRange GRID_SIZE).any fun i => g i = EMPTY_ID then .STATE_PROGRESS
  else .STATE_DRAW

/-! ## The search leaves the grid as it was and never sees a winner -/

section
variable {n : Nat} {g : Grid n} {i : Fin n} {hd : Header}

theorem update_revert (hi : g i = EMPTY_ID) (id : Int) :
    Function.update (Function.update g i id) i 0 = g := by
  rw [Function.update_idem]
  exact Function.update_eq_self_iff.mpr hi.symm

/-- No score but 0 is ever found: the best one stays below it until a cell has been tried. -/
theorem minmaxLoop_eq {search : Int → Grid n → Int × Grid n} (hsearch : ∀ p g, search p g = (0, g))
    (player : Int) (cells : List (Fin n)) (move score : Int)
    (hscore : move = -1 ∧ score = -2 ∨ score = 0) :
    minmaxLoop search player cells move score g = (0, g) := by
  induction cells generalizing move score with
  | nil =>
    rcases hscore with ⟨rfl, rfl⟩ | rfl
    · rfl
    · simp [minmaxLoop]
  | cons i cells ih =>
    rw [minmaxLoop]
    by_cases hi : g i = EMPTY_ID
    · rcases hscore with ⟨rfl, rfl⟩ | rfl
      · simpa [hi, hsearch, update_revert hi] using ih _ _ (.inr rfl)
      · simpa [hi, hsearch, update_revert hi] using ih _ _ (.inr rfl)
    · rw [if_neg hi]
      exact ih move score hscore

theorem minmax_eq (depth : Nat) (player : Int) (g : Grid n) : minmax depth player g = (0, g) := by
  induction depth generalizing player g with
  | zero => rfl
  | succ depth ih => exact minmaxLoop_eq ih player _ _ _ (.inl ⟨rfl, rfl⟩)

/-- Once a cell has been found, no other is better. -/
theorem computersLoop_found (cells : List (Fin n)) (move : Int) :
    computersLoop hd cells move 0 g = (move, g) := by
  induction cells with
  | nil => rfl
  | cons i cells ih =>
    rw [computersLoop]
    split_ifs with hi
    · simpa [minmax_eq, update_revert hi] using ih
    · exact ih

/-- The computer takes the first empty cell. -/
theorem computersLoop_eq (cells : List (Fin n)) :
    computersLoop hd cells (-1) (-2) g =
      ((cells.find? fun i => g i = EMPTY_ID).elim (-1) fun i => (i : Int), g) := by
  induction cells with
  | nil => rfl
  | cons i cells ih =>
    rw [computersLoop]
    by_cases hi : g i = EMPTY_ID
    · simp [hi, minmax_eq, update_revert hi, computersLoop_found]
    · simpa [hi] using ih

theorem computers_turn_of_exists (hd : Header) (h : ∃ i, g i = EMPTY_ID) :
    ∃ i, g i = EMPTY_ID ∧ computers_turn hd g = ((i : Int) + 1, g) := by
  rw [computers_turn, computersLoop_eq]
  cases hfind : (List.finRange n).find? fun i => g i = EMPTY_ID with
  | none =>
    obtain ⟨i, hi⟩ := h
    exact absurd hi (by simpa using List.find?_eq_none.mp hfind i (List.mem_finRange i))
  | some i => exact ⟨i, by simpa using List.find?_some hfind, rfl⟩

@[simp] theorem Grid.get_cell (i : Fin n) : g.get i = some (g i) := by
  simp [Grid.get]

@[simp] theorem Grid.set_cell (i : Fin n) (id : Int) :
    g.set i id = some (Function.update g i id) := by
  simp [Grid.set]

end

/-! ## Marks and lines -/

section
variable {n : Nat} {g : Grid n} {i : Fin n} {id other : Int}

/-- The number of marks of a participant. -/
def Grid.marks (g : Grid n) (id : Int) : Nat := (Finset.univ.filter fun i => g i = id).card

theorem Grid.marks_update_self (hi : g i = EMPTY_ID) (hid : id ≠ 0) :
    Grid.marks (Function.update g i id) id = g.marks id + 1 := by
  have hcells : (Finset.univ.filter fun j => Function.update g i id j = id) =
      insert i (Finset.univ.filter fun j => g j = id) := by
    ext j
    by_cases hj : j = i <;> simp [hj]
  have hnew : i ∉ Finset.univ.filter fun j => g j = id := by
    simpa [hi, EMPTY_ID] using hid.symm
  rw [marks, hcells, Finset.card_insert_of_notMem hnew, marks]

theorem Grid.marks_update_of_ne (hi : g i = EMPTY_ID) (hother : other ≠ 0) (hne : id ≠ other) :
    Grid.marks (Function.update g i id) other = g.marks other := by
  unfold marks
  congr 1
  ext j
  by_cases hj : j = i
  · simpa [hj, hne, hi, EMPTY_ID] using hother.symm
  · simp [hj]

theorem Grid.marks_empty (hid : id ≠ 0) : Grid.marks (fun _ : Fin n => EMPTY_ID) id = 0 := by
  simp [marks, EMPTY_ID, hid.symm]

end

/-- Three marks of a participant in a line. -/
def HasLine (g : Grid GRID_SIZE) (id : Int) : Prop :=
  ∃ l ∈ lines, g l.1 = id ∧ g l.2.1 = id ∧ g l.2.2 = id

def Grid.Full (g : Grid GRID_SIZE) : Prop := ∀ i, g i ≠ EMPTY_ID

section
variable {hd : Header} {g : Grid GRID_SIZE} {i : Fin GRID_SIZE} {id other : Int}

/-- A mark of one participant completes no line of the other. -/
theorem HasLine.of_update (h : HasLine (Function.update g i id) other) (hne : id ≠ other) :
    HasLine g other := by
  obtain ⟨l, hl, h1, h2, h3⟩ := h
  have hkeep : ∀ j, Function.update g i id j = other → g j = other := by
    intro j hj
    by_cases hji : j = i
    · rw [hji, Function.update_self] at hj
      exact absurd hj hne
    · rwa [Function.update_of_ne hji] at hj
  exact ⟨l, hl, hkeep _ h1, hkeep _ h2, hkeep _ h3⟩

theorem win_eq_win : win hd g = .STATE_WIN ↔ HasLine g hd.PLAYER_ID ∨ HasLine g hd.AI_ID := by
  have hany : (lines.any fun (a, b, c) =>
      (g a = hd.PLAYER_ID || g a = hd.AI_ID) && g a = g b && g b = g c) = true ↔
      HasLine g hd.PLAYER_ID ∨ HasLine g hd.AI_ID := by
    simp only [List.any_eq_true, Bool.and_eq_true, Bool.or_eq_true, decide_eq_true_eq]
    constructor
    · rintro ⟨l, hl, ⟨hp | hp, h1⟩, h2⟩
      · exact .inl ⟨l, hl, hp, h1 ▸ hp, h2 ▸ h1 ▸ hp⟩
      · exact .inr ⟨l, hl, hp, h1 ▸ hp, h2 ▸ h1 ▸ hp⟩
    · rintro (⟨l, hl, h1, h2, h3⟩ | ⟨l, hl, h1, h2, h3⟩)
      · exact ⟨l, hl, ⟨.inl h1, h1.trans h2.symm⟩, h2.trans h3.symm⟩
      · exact ⟨l, hl, ⟨.inr h1, h1.trans h2.symm⟩, h2.trans h3.symm⟩
  rw [← hany, win]
  split_ifs with h1 h2
  · exact iff_of_true rfl h1
  · exact iff_of_false nofun h1
  · exact iff_of_false nofun h1

theorem win_eq_progress (h : win hd g = .STATE_PROGRESS) :
    ¬HasLine g hd.PLAYER_ID ∧ ¬HasLine g hd.AI_ID ∧ ∃ i, g i = EMPTY_ID := by
  have hline := win_eq_win.not.mp (h ▸ nofun : win hd g ≠ .STATE_WIN)
  refine ⟨fun hp => hline (.inl hp), fun ha => hline (.inr ha), ?_⟩
  rw [win] at h
  split_ifs at h with h1 h2
  obtain ⟨i, -, hi⟩ := List.any_eq_true.mp h2
  exact ⟨i, of_decide_eq_true hi⟩

theorem win_eq_draw (h : win hd g = .STATE_DRAW) :
    ¬HasLine g hd.PLAYER_ID ∧ ¬HasLine g hd.AI_ID ∧ g.Full := by
  have hline := win_eq_win.not.mp (h ▸ nofun : win hd g ≠ .STATE_WIN)
  refine ⟨fun hp => hline (.inl hp), fun ha => hline (.inr ha), fun i hi => ?_⟩
  rw [win] at h
  split_ifs at h with h1 h2
  exact h2 (List.any_eq_true.mpr ⟨i, List.mem_finRange i, decide_eq_true hi⟩)

end
end SyeLabs.Tictactoe
