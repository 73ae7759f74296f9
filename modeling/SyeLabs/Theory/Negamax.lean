import Mathlib.Data.List.Basic
import Mathlib.Data.Int.Order.Basic
import Mathlib.Order.MinMax
import Mathlib.Tactic.Common

/-!
# Games of two players, searched to a depth

The negamax value of a position, with a depth at which the search gives up. Positions are seen from
the side to move, whose wins count 1 and whose losses count -1; whether it is one or the other comes
down to who can force a loss on whom in the moves that are left.
-/

namespace SyeLabs.Negamax

/-- The moves of a position, the position of the opponent after a move, and whether the side to move
has lost already. A position without moves that is not lost is a draw. -/
structure Game (σ μ : Type) where
  moves : σ → List μ
  play : σ → μ → σ
  lost : σ → Bool

variable {σ μ : Type} (G : Game σ μ) {s : σ} {m : μ} {d : Nat}

/-- The value of a position, as far as `d` moves show it. -/
def Game.value : Nat → σ → Int
  | 0, s => if G.lost s then -1 else 0
  | d + 1, s =>
    if G.lost s then -1 else ((G.moves s).map fun m => -Game.value d (G.play s m)).max?.getD 0

mutual

/-- The side to move can force a loss on its opponent in at most `d` moves. -/
def Game.Wins : Nat → σ → Prop
  | 0, _ => False
  | d + 1, s => G.lost s = false ∧ ∃ m ∈ G.moves s, Game.Loses d (G.play s m)

/-- The side to move has lost, or loses in at most `d` moves, whatever it does. -/
def Game.Loses : Nat → σ → Prop
  | 0, s => G.lost s = true
  | d + 1, s => G.lost s = true ∨ G.moves s ≠ [] ∧ ∀ m ∈ G.moves s, Game.Wins d (G.play s m)

end

variable {G}

theorem Game.value_of_lost (h : G.lost s = true) : G.value d s = -1 := by
  cases d <;> simp [Game.value, h]

/-- What is known of a value that is the greatest of a list. -/
theorem Game.value_succ (h : G.lost s = false) :
    G.moves s = [] ∧ G.value (d + 1) s = 0 ∨
      (∃ m ∈ G.moves s, G.value (d + 1) s = -G.value d (G.play s m)) ∧
        ∀ m ∈ G.moves s, -G.value d (G.play s m) ≤ G.value (d + 1) s := by
  have hvalue : G.value (d + 1) s =
      ((G.moves s).map fun m => -G.value d (G.play s m)).max?.getD 0 := by
    simp [Game.value, h]
  rw [hvalue]
  cases hmax : ((G.moves s).map fun m => -G.value d (G.play s m)).max? with
  | none =>
    have hnil := List.max?_eq_none_iff.mp hmax
    exact .inl ⟨List.map_eq_nil_iff.mp hnil, rfl⟩
  | some v =>
    obtain ⟨hmem, hle⟩ := List.max?_eq_some_iff.mp hmax
    obtain ⟨m, hm, rfl⟩ := List.mem_map.mp hmem
    exact .inr ⟨⟨m, hm, rfl⟩, fun m' hm' => hle _ (List.mem_map_of_mem hm')⟩

/-- There is nothing but loss, draw and win. -/
theorem Game.value_mem (G : Game σ μ) (d : Nat) (s : σ) :
    G.value d s = -1 ∨ G.value d s = 0 ∨ G.value d s = 1 := by
  induction d generalizing s with
  | zero => cases h : G.lost s <;> simp [Game.value, h]
  | succ d ih =>
    cases h : G.lost s with
    | true => exact .inl (G.value_of_lost h)
    | false =>
      obtain ⟨-, h0⟩ | ⟨⟨m, -, hm⟩, -⟩ := Game.value_succ (d := d) h
      · exact .inr (.inl h0)
      · have := ih (G.play s m)
        omega

/-- The values 1 and -1 are forced wins and losses; one is shown along with the other. -/
theorem Game.value_iff (G : Game σ μ) (d : Nat) (s : σ) :
    (G.value d s = 1 ↔ G.Wins d s) ∧ (G.value d s = -1 ↔ G.Loses d s) := by
  induction d generalizing s with
  | zero => cases h : G.lost s <;> simp [Game.value, Game.Wins, Game.Loses, h]
  | succ d ih =>
    cases h : G.lost s with
    | true => simp [Game.value_of_lost h, Game.Wins, Game.Loses, h]
    | false =>
      have hvals := G.value_mem d
      simp only [Game.Wins, Game.Loses, h, true_and, Bool.false_eq_true, false_or]
      obtain ⟨hnil, h0⟩ | ⟨⟨m, hm, heq⟩, hle⟩ := Game.value_succ (d := d) h
      · simp [hnil, h0]
      · constructor
        · constructor
          · intro h1
            exact ⟨m, hm, (ih _).2.mp (by omega)⟩
          · rintro ⟨m', hm', hlost⟩
            have hv := (ih _).2.mpr hlost
            have := hle m' hm'
            have := hvals (G.play s m)
            omega
        · constructor
          · intro h1
            refine ⟨List.ne_nil_of_mem hm, fun m' hm' => (ih _).1.mp ?_⟩
            have := hle m' hm'
            have := hvals (G.play s m')
            omega
          · rintro ⟨-, hwins⟩
            have hv := (ih _).1.mpr (hwins m hm)
            omega

theorem Game.value_eq_zero_iff (G : Game σ μ) (d : Nat) (s : σ) :
    G.value d s = 0 ↔ ¬G.Wins d s ∧ ¬G.Loses d s := by
  obtain ⟨h1, h2⟩ := G.value_iff d s
  have := G.value_mem d s
  rw [← h1, ← h2]
  omega

/-- A move is as good as all others if it forces a loss whenever some move does, and gives the
opponent no win unless all of them do. -/
theorem Game.neg_value_le_iff {t t' : σ} : -G.value d t ≤ -G.value d t' ↔
    (G.Loses d t → G.Loses d t') ∧ (G.Wins d t' → G.Wins d t) := by
  rw [← (G.value_iff d t).1, ← (G.value_iff d t).2, ← (G.value_iff d t').1,
    ← (G.value_iff d t').2]
  have := G.value_mem d t
  have := G.value_mem d t'
  omega

end SyeLabs.Negamax
