import Mathlib.Data.List.TakeDrop
import Mathlib.Tactic.Common

/-!
# Arrays that are filled from the front

An assignment outside an array has no outcome. `Starts` says what an array starts with; the rest of
it may be anything.
-/

namespace SyeLabs.Arrays

variable {α : Type*} {n i : ℕ} {v : Vector α n} {s t : List α} {x : α}

/-- `v[i] = x`; `none` outside the array. -/
def assign (v : Vector α n) (i : ℕ) (x : α) : Option (Vector α n) :=
  if h : i < n then some (v.set i x) else none

theorem assign_eq (h : i < n) (v : Vector α n) (x : α) : assign v i x = some (v.set i x) :=
  dif_pos h

theorem assign_eq_none (h : n ≤ i) (v : Vector α n) (x : α) : assign v i x = none :=
  dif_neg (Nat.not_lt.mpr h)

def Starts (v : Vector α n) (s : List α) : Prop := v.toList.take s.length = s

theorem Starts.nil (v : Vector α n) : Starts v [] := rfl

theorem Starts.eq_append (H : Starts v s) : v.toList = s ++ v.toList.drop s.length := by
  conv_lhs => rw [← List.take_append_drop s.length v.toList, H]

theorem Starts.left (H : Starts v (s ++ t)) : Starts v s := by
  rw [Starts, H.eq_append, List.append_assoc, List.take_left]

/-- What is behind the start may change. -/
theorem Starts.set_of_le (H : Starts v s) (hs : s.length ≤ i) (hi : i < n) (x : α) :
    Starts (v.set i x) s := by
  rw [Starts, Vector.toList_set, List.take_set_of_le hs, H]

/-- The next element is written. -/
theorem Starts.snoc (H : Starts v s) (hs : i = s.length) (hi : i < n) (x : α) :
    Starts (v.set i x) (s ++ [x]) := by
  subst hs
  have hlen : s.length < (v.set s.length x).toList.length := by simpa using hi
  have hset : (v.set s.length x).toList[s.length] = x := by simp
  have hkept := H.set_of_le (Nat.le_refl _) hi x
  rw [Starts, List.length_append, List.length_singleton, List.take_succ_eq_append_getElem hlen,
    hkept, hset]

/-- An element may be written again. -/
theorem Starts.set_head (H : Starts v (x :: s)) (hn : 0 < n) : Starts (v.set 0 x) (x :: s) := by
  rw [Starts, Vector.toList_set, H.eq_append]
  simp

/-- The first element. -/
theorem Starts.getElem_zero (H : Starts v (x :: s)) (hn : 0 < n) : v[0] = x := by
  rw [← Vector.getElem_toList (by simpa using hn), List.getElem_of_eq H.eq_append]
  rfl

end SyeLabs.Arrays
