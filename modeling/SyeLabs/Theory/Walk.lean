import Mathlib.Order.Interval.Set.Basic
import Mathlib.Data.Set.Lattice
import Mathlib.Order.CompletePartialOrder
import Mathlib.Data.Nat.Init
import Mathlib.Tactic.Common

/-!
# A boundary that moves up and down

What lies below the boundary is taken. A step up takes the interval that it passes over, and a step
down gives one back. What a step has taken and no later one has given back belongs to that step
alone.
-/

namespace SyeLabs

variable {α : Type*} [LinearOrder α] {x : ℕ → α} {a lo hi : α} {i j k n : ℕ}

/-- What the step from `x i` to `x (i + 1)` takes. -/
def gained (x : ℕ → α) (i : ℕ) : Set α := Set.Ico (x i) (x (i + 1))

/-- What the step gives back. -/
def givenBack (x : ℕ → α) (i : ℕ) : Set α := Set.Ico (x (i + 1)) (x i)

/-- What is left of step `i` before step `n`. -/
def held (x : ℕ → α) (n i : ℕ) : Set α :=
  {a | a ∈ gained x i ∧ ∀ j, i < j → j < n → a ∉ givenBack x j}

/-- The boundary does not get below a place without a step that passes over it. -/
theorem exists_givenBack (h : i ≤ k) (hi : a < x i) (hk : x k ≤ a) :
    ∃ j, i ≤ j ∧ j < k ∧ a ∈ givenBack x j := by
  induction k, h using Nat.le_induction with
  | base => exact absurd hi (not_lt.mpr hk)
  | succ k hik ih =>
    rcases lt_or_ge a (x k) with h | h
    · exact ⟨k, hik, Nat.lt_succ_self k, hk, h⟩
    · obtain ⟨j, hij, hjk, ha⟩ := ih h
      exact ⟨j, hij, Nat.lt_succ_of_lt hjk, ha⟩

/-- A place below the boundary after a step that takes it stays there until it is given back. -/
theorem held_disjoint (hik : i < k) (hkn : k < n) : Disjoint (held x n i) (held x n k) := by
  rw [Set.disjoint_left]
  rintro a ⟨ha, hkept⟩ ⟨hak, -⟩
  obtain ⟨j, hij, hjk, hj⟩ := exists_givenBack hik ha.2 hak.1
  exact hkept j hij (hjk.trans hkn) hj

theorem gained_subset (hlo : ∀ i, lo ≤ x i) (hhi : ∀ i, x i ≤ hi) (i : ℕ) :
    gained x i ⊆ Set.Ico lo hi := Set.Ico_subset_Ico (hlo i) (hhi (i + 1))

end SyeLabs
