import Mathlib.Data.Set.Lattice
import Mathlib.Order.CompletePartialOrder
import Mathlib.Tactic.Common

/-!
# Arcs of a circle

Ranges of places that are counted modulo `N`: an arc has a start and a length, and may go around
the end. Two arcs are disjoint if each ends before the other one starts.
-/

namespace SyeLabs

variable {N a b m n : Int}

/-- The places from `a` on, `n` of them. -/
def arc (N a n : Int) : Set Int := {p | (p - a) % N < n}

theorem mem_arc {p : Int} : p ∈ arc N a n ↔ (p - a) % N < n := Iff.rfl

theorem start_mem_arc (hn : 0 < n) : a ∈ arc N a n := by
  rw [mem_arc, Int.sub_self, Int.zero_emod]
  exact hn

/-- An arc in two parts. -/
theorem arc_add (hm : 0 ≤ m) (hn : 0 ≤ n) (hN : 0 < N) :
    arc N a (m + n) = arc N a m ∪ arc N (a + m) n := by
  ext p
  have hx := Int.emod_nonneg (p - a) (ne_of_gt hN)
  have hx' := Int.emod_lt_of_pos (p - a) hN
  have hsub : (p - (a + m)) % N = ((p - a) % N - m) % N := by
    rw [Int.emod_sub_emod, Int.sub_sub]
  rw [Set.mem_union, mem_arc, mem_arc, mem_arc]
  rcases lt_or_ge ((p - a) % N) m with h | h
  · omega
  · have hrest : ((p - a) % N - m) % N = (p - a) % N - m :=
      Int.emod_eq_of_lt (by omega) (by omega)
    omega

/-- The starts of two arcs with a place in common. -/
theorem start_mem_of_mem {p : Int} (hN : 0 < N) (ha : p ∈ arc N a m) (hb : p ∈ arc N b n) :
    (b - a) % N < m ∨ (a - b) % N < n := by
  rw [mem_arc] at ha hb
  have hax := Int.emod_nonneg (p - a) (ne_of_gt hN)
  have hbx := Int.emod_nonneg (p - b) (ne_of_gt hN)
  have hax' := Int.emod_lt_of_pos (p - a) hN
  have hbx' := Int.emod_lt_of_pos (p - b) hN
  have hba : b - a = (p - a) - (p - b) := by omega
  have hab : a - b = (p - b) - (p - a) := by omega
  rcases le_total ((p - b) % N) ((p - a) % N) with h | h
  · left
    rw [hba, Int.sub_emod, Int.emod_eq_of_lt (by omega) (by omega)]
    omega
  · right
    rw [hab, Int.sub_emod, Int.emod_eq_of_lt (by omega) (by omega)]
    omega

theorem arc_disjoint_iff (hN : 0 < N) : Disjoint (arc N a m) (arc N b n) ↔
    m ≤ 0 ∨ n ≤ 0 ∨ m ≤ (b - a) % N ∧ n ≤ (a - b) % N := by
  constructor
  · intro h
    refine or_iff_not_imp_left.mpr fun hm => or_iff_not_imp_left.mpr fun hn => ⟨?_, ?_⟩
    · have hb := Set.disjoint_right.mp h (start_mem_arc (not_le.mp hn))
      exact not_lt.mp hb
    · have ha := Set.disjoint_left.mp h (start_mem_arc (not_le.mp hm))
      exact not_lt.mp ha
  · intro h
    refine Set.disjoint_left.mpr fun p ha hb => ?_
    have hax := Int.emod_nonneg (p - a) (ne_of_gt hN)
    have hbx := Int.emod_nonneg (p - b) (ne_of_gt hN)
    have hstart := start_mem_of_mem hN ha hb
    rw [mem_arc] at ha hb
    omega

end SyeLabs
