import Mathlib.Data.List.Induction
import Mathlib.Data.List.FinRange
import Mathlib.Order.Basic
import Mathlib.Order.Fin.Basic
import Mathlib.Tactic.Common

/-!
# Scans of an index range

Two searches that C programs write as one loop over `0..n-1`: the first index with a property,
and the index with the least key among those with a property, where the first of several equal
keys wins (a loop that replaces its candidate only on a strictly smaller key).
-/

namespace SyeLabs.Scan

/-- `v` is the lowest index with the property `P`. -/
def IsFirst {n : Nat} (P : Fin n → Prop) (v : Fin n) : Prop := P v ∧ ∀ j < v, ¬P j

theorem IsFirst.unique {n : Nat} {P : Fin n → Prop} {v w : Fin n} (hv : IsFirst P v)
    (hw : IsFirst P w) : v = w := by
  rcases lt_trichotomy v w with h | h | h
  · exact absurd hv.1 (hw.2 v h)
  · exact h
  · exact absurd hw.1 (hv.2 w h)

theorem IsFirst.congr {n : Nat} {P Q : Fin n → Prop} {v : Fin n} (h : ∀ i, P i ↔ Q i) :
    IsFirst P v ↔ IsFirst Q v := by
  simp only [IsFirst, h]

/-- The first index with `P` is also the first with a stronger property `Q` exactly if it has
`Q` itself. -/
theorem IsFirst.eq_iff {n : Nat} {P Q : Fin n → Prop} {v w : Fin n} (hw : IsFirst P w)
    (hv : IsFirst Q v) (h : ∀ i, Q i → P i) : w = v ↔ Q w := by
  constructor
  · rintro rfl
    exact hv.1
  · exact fun hq => IsFirst.unique ⟨hq, fun j hj hqj => hw.2 j hj (h j hqj)⟩ hv

theorem find?_finRange {n : Nat} {p : Fin n → Bool} {v : Fin n} :
    (List.finRange n).find? p = some v ↔ IsFirst (fun i => p i = true) v := by
  have hlt := List.pairwise_lt_finRange n
  constructor
  · intro h
    obtain ⟨hv, as, bs, hsplit, has⟩ := List.find?_eq_some_iff_append.mp h
    refine ⟨hv, fun j hj hp => ?_⟩
    have hmem : j ∈ as ++ v :: bs := hsplit ▸ List.mem_finRange j
    rcases List.mem_append.mp hmem with hj' | hj'
    · have := has j hj'
      simp [hp] at this
    · rw [hsplit] at hlt
      rcases List.mem_cons.mp hj' with rfl | hj'
      · exact lt_irrefl _ hj
      · have := (List.pairwise_cons.mp (List.pairwise_append.mp hlt).2.1).1 j hj'
        exact lt_asymm hj this
  · rintro ⟨hv, hfirst⟩
    cases hf : (List.finRange n).find? p with
    | none => exact absurd hv (List.find?_eq_none.mp hf v (List.mem_finRange v))
    | some w =>
      obtain ⟨hw, as, bs, hsplit, has⟩ := List.find?_eq_some_iff_append.mp hf
      have hmem : v ∈ as ++ w :: bs := hsplit ▸ List.mem_finRange v
      rcases List.mem_append.mp hmem with hv' | hv'
      · have := has v hv'
        simp [hv] at this
      · rcases List.mem_cons.mp hv' with rfl | hv'
        · rfl
        · rw [hsplit] at hlt
          have := (List.pairwise_cons.mp (List.pairwise_append.mp hlt).2.1).1 v hv'
          exact absurd hw (hfirst w this)

theorem exists_isFirst {n : Nat} {P : Fin n → Prop} (h : ∃ i, P i) : ∃ v, IsFirst P v := by
  classical
  cases hf : (List.finRange n).find? fun i => decide (P i) with
  | none =>
    obtain ⟨i, hi⟩ := h
    exact absurd (by simpa using hi) (List.find?_eq_none.mp hf i (List.mem_finRange i))
  | some v => exact ⟨v, (IsFirst.congr (by simp)).mp (find?_finRange.mp hf)⟩

/-! ## The least key -/

variable {α κ : Type*} [LinearOrder κ]

/-- One round of a minimum search: `i` replaces the candidate if it has the property and there
is no candidate yet, or the candidate's key is strictly greater. -/
def selectMin (p : α → Bool) (key : α → κ) (best : Option α) (i : α) : Option α :=
  if p i && (best.all fun b => key b > key i) then some i else best

/-- `v` has the least key among the indices with the property `p`, and the lowest index among
those with that key. -/
def IsLeast [LT α] (p : α → Bool) (key : α → κ) (v : α) : Prop :=
  p v = true ∧ ∀ j, p j = true → j ≠ v → key v < key j ∨ key v = key j ∧ v < j

private theorem foldl_selectMin [Preorder α] (p : α → Bool) (key : α → κ) (l : List α)
    (hl : l.Pairwise (· < ·)) :
    match l.foldl (selectMin p key) none with
    | none => ∀ j ∈ l, p j = false
    | some v => v ∈ l ∧ p v = true ∧
        ∀ j ∈ l, p j = true → j ≠ v → key v < key j ∨ key v = key j ∧ v < j := by
  induction l using List.reverseRecOn with
  | nil => simp
  | append_singleton l i ih =>
    obtain ⟨hl', -, hi⟩ := List.pairwise_append.mp hl
    replace hi : ∀ a ∈ l, a < i := fun a ha => hi a ha i (List.mem_singleton_self i)
    replace ih := ih hl'
    rw [List.foldl_append, List.foldl_cons, List.foldl_nil]
    cases hb : l.foldl (selectMin p key) none with
    | none =>
      rw [hb] at ih
      cases hp : p i with
      | false =>
        simp only [selectMin, hp, Bool.false_and, Bool.false_eq_true, if_false]
        intro j hj
        rcases List.mem_append.mp hj with hj | hj
        · exact ih j hj
        · exact List.mem_singleton.mp hj ▸ hp
      | true =>
        have hnew : selectMin p key none i = some i := by simp [selectMin, hp]
        rw [hnew]
        refine ⟨by simp, hp, fun j hj hpj hne => ?_⟩
        rcases List.mem_append.mp hj with hj | hj
        · simp [ih j hj] at hpj
        · exact absurd (List.mem_singleton.mp hj) hne
    | some b =>
      rw [hb] at ih
      obtain ⟨hbl, hpb, hmin⟩ := ih
      by_cases hsel : p i = true ∧ key i < key b
      · have hnew : selectMin p key (some b) i = some i := by simp [selectMin, hsel]
        rw [hnew]
        refine ⟨by simp, hsel.1, fun j hj hpj hne => ?_⟩
        rcases List.mem_append.mp hj with hj | hj
        · by_cases hjb : j = b
          · exact .inl (hjb ▸ hsel.2)
          · rcases hmin j hj hpj hjb with h | h
            · exact .inl (hsel.2.trans h)
            · exact .inl (h.1 ▸ hsel.2)
        · exact absurd (List.mem_singleton.mp hj) hne
      · have hkeep : selectMin p key (some b) i = some b := by
          simp only [selectMin, Option.all_some]
          rw [if_neg (by simpa using hsel)]
        rw [hkeep]
        refine ⟨List.mem_append_left _ hbl, hpb, fun j hj hpj hne => ?_⟩
        rcases List.mem_append.mp hj with hj | hj
        · exact hmin j hj hpj hne
        · cases List.mem_singleton.mp hj
          rcases lt_or_eq_of_le (not_lt.mp fun h => hsel ⟨hpj, h⟩) with h | h
          · exact .inl h
          · exact .inr ⟨h, hi b hbl⟩

/-- The loop finds the least key; it finds nothing only if no index has the property. -/
theorem foldl_selectMin_finRange {n : Nat} (p : Fin n → Bool) (key : Fin n → κ) :
    match (List.finRange n).foldl (selectMin p key) none with
    | none => ∀ j, p j = false
    | some v => IsLeast p key v := by
  have h := foldl_selectMin p key _ (List.pairwise_lt_finRange n)
  split <;> simp_all [IsLeast]

theorem IsLeast.unique {n : Nat} {p : Fin n → Bool} {key : Fin n → κ} {v w : Fin n}
    (hv : IsLeast p key v) (hw : IsLeast p key w) : v = w := by
  by_contra hne
  rcases hv.2 w hw.1 (Ne.symm hne) with h | ⟨h, h'⟩ <;>
    rcases hw.2 v hv.1 hne with g | ⟨g, g'⟩
  · exact lt_asymm h g
  · exact absurd g (ne_of_gt h)
  · exact absurd h (ne_of_gt g)
  · exact lt_asymm h' g'

theorem foldl_selectMin_eq_some {n : Nat} {p : Fin n → Bool} {key : Fin n → κ} {v : Fin n} :
    (List.finRange n).foldl (selectMin p key) none = some v ↔ IsLeast p key v := by
  have h := foldl_selectMin_finRange p key
  constructor
  · intro hv
    rwa [hv] at h
  · intro hv
    cases hf : (List.finRange n).foldl (selectMin p key) none with
    | none =>
      rw [hf] at h
      exact absurd hv.1 (by simp [h v])
    | some w =>
      rw [hf] at h
      rw [h.unique hv]

end SyeLabs.Scan
