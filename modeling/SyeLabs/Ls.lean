import Mathlib.Algebra.Order.Floor.Semifield
import Mathlib.Data.Nat.Log
import Mathlib.Data.Rat.Floor
import Mathlib.Tactic.NormNum

/-!
# The sizes `ls` prints

`human_readable_size` divides until the size is below 1024, and takes the unit from a table that
ends with the tera. The divisions are exact here.
-/

namespace SyeLabs.Ls

def BYTES_PER_KILO : ℕ := 1024

/-- The table `prefix`. -/
def prefixes : List String := ["", "K", "M", "G", "T"]

/-- The loop; an `unsigned long` gets below 1024. -/
def scaleLoop (final_size : ℚ) (prefixIdx : ℕ) : ℚ × ℕ :=
  if BYTES_PER_KILO ≤ final_size then scaleLoop (final_size / BYTES_PER_KILO) (prefixIdx + 1)
  else (final_size, prefixIdx)
termination_by ⌊final_size⌋₊
decreasing_by
  rename_i h
  have hpos : 0 < ⌊final_size⌋₊ := Nat.floor_pos.mpr (le_trans (by norm_num [BYTES_PER_KILO]) h)
  rw [Nat.floor_div_natCast]
  exact Nat.div_lt_self hpos (by decide)

section
variable {w : ℕ} (size : BitVec w)

/-- `final_size` and the index of the unit, for an `unsigned long`. -/
def scaled : ℚ × ℕ := scaleLoop size.toNat 0

/-- The number and the unit that are printed; `none` outside the table. -/
def human_readable_size : Option (ℚ × String) := do
  let (final_size, prefixIdx) := scaled size
  return (final_size, ← prefixes[prefixIdx]?)

/-- The unit is in the table, and number and unit make up the size. -/
structure FindsUnit : Prop where
  unit : (scaled size).2 ≤ 4
  lt : (scaled size).1 < 1024
  eq : (size.toNat : ℚ) = (scaled size).1 * 1024 ^ (scaled size).2
  one_le : size ≠ 0 → 1 ≤ (scaled size).1

end

section
variable {w : ℕ} {size : BitVec w} {x : ℚ} {k : ℕ}

theorem scaleLoop_lt (x : ℚ) (k : ℕ) : (scaleLoop x k).1 < BYTES_PER_KILO := by
  fun_induction scaleLoop x k with
  | case1 x k h ih => exact ih
  | case2 x k h => exact not_le.mp h

theorem scaleLoop_eq (x : ℚ) (k : ℕ) :
    x * BYTES_PER_KILO ^ k = (scaleLoop x k).1 * BYTES_PER_KILO ^ (scaleLoop x k).2 := by
  fun_induction scaleLoop x k with
  | case1 x k h ih =>
    rw [← ih, pow_succ', ← mul_assoc, div_mul_cancel₀ _ (by norm_num [BYTES_PER_KILO])]
  | case2 x k h => rfl

theorem one_le_scaleLoop (hx : 1 ≤ x) (k : ℕ) : 1 ≤ (scaleLoop x k).1 := by
  fun_induction scaleLoop x k with
  | case1 x k h ih => exact ih ((one_le_div₀ (by norm_num [BYTES_PER_KILO])).mpr h)
  | case2 x k h => exact hx

/-- The unit is the logarithm. -/
theorem scaleLoop_snd (n : ℕ) : (scaleLoop n 0).2 = Nat.log BYTES_PER_KILO n := by
  have heq := scaleLoop_eq n 0
  have hlt := scaleLoop_lt n 0
  rw [pow_zero, mul_one] at heq
  rcases Nat.eq_zero_or_pos n with rfl | hn
  · rw [Nat.log_zero_right, scaleLoop, if_neg (by norm_num [BYTES_PER_KILO])]
  · have hone := one_le_scaleLoop (Nat.one_le_cast.mpr hn) 0
    have hpow : (0 : ℚ) < BYTES_PER_KILO ^ (scaleLoop n 0).2 :=
      pow_pos (by norm_num [BYTES_PER_KILO]) _
    refine (Nat.log_eq_of_pow_le_of_lt_pow ?_ ?_).symm
    · have hle := (le_mul_of_one_le_left hpow.le hone).trans_eq heq.symm
      exact_mod_cast hle
    · have hlt : (n : ℚ) < BYTES_PER_KILO ^ ((scaleLoop n 0).2 + 1) := by
        rw [pow_succ']
        exact heq.trans_lt (mul_lt_mul_of_pos_right hlt hpow)
      exact_mod_cast hlt

/-- The table is long enough for what is below 1024 tera. -/
theorem unit_lt_iff (n : ℕ) :
    (scaleLoop n 0).2 < prefixes.length ↔ n < BYTES_PER_KILO ^ prefixes.length := by
  rw [scaleLoop_snd]
  rcases Nat.eq_zero_or_pos n with rfl | hn
  · rw [Nat.log_zero_right]
    decide
  · exact Nat.log_lt_iff_lt_pow (by decide) hn.ne'

/-- Behind the table. -/
theorem human_readable_size_eq_none (size : BitVec w) :
    human_readable_size size = none ↔ ¬size.toNat < BYTES_PER_KILO ^ prefixes.length := by
  rw [← unit_lt_iff, Nat.not_lt, ← List.getElem?_eq_none_iff]
  change (prefixes[(scaled size).2]?.bind fun unit => some ((scaled size).1, unit)) = none ↔ _
  rw [Option.bind_eq_none_iff]
  constructor
  · exact fun h => Option.eq_none_iff_forall_ne_some.mpr fun unit hu =>
      Option.some_ne_none _ (h unit hu)
  · exact fun h unit hu => absurd (hu.symm.trans h) (Option.some_ne_none _)

theorem findsUnit_of_lt (hlt : size.toNat < BYTES_PER_KILO ^ prefixes.length) :
    FindsUnit size := by
  have heq := scaleLoop_eq size.toNat 0
  rw [pow_zero, mul_one] at heq
  refine ⟨Nat.le_of_lt_succ ((unit_lt_iff _).mpr hlt), scaleLoop_lt _ _, heq, fun hne => ?_⟩
  have hpos : 1 ≤ size.toNat :=
    Nat.one_le_iff_ne_zero.mpr fun h => hne (BitVec.eq_of_toNat_eq h)
  exact one_le_scaleLoop (Nat.one_le_cast.mpr hpos) 0

theorem FindsUnit.lt_pow (F : FindsUnit size) :
    size.toNat < BYTES_PER_KILO ^ prefixes.length :=
  (unit_lt_iff _).mp (Nat.lt_succ_of_le F.unit)

/-- The unit is found exactly for the sizes below 1024 tera. -/
theorem findsUnit_iff (size : BitVec w) : FindsUnit size ↔ size.toNat < 1024 ^ 5 :=
  ⟨FindsUnit.lt_pow, findsUnit_of_lt⟩

/-- A size of 1024 tera, in 64 bits. -/
theorem not_findsUnit_peta :
    human_readable_size 1125899906842624#64 = none ∧ ¬FindsUnit 1125899906842624#64 := by
  have hlarge : ¬(1125899906842624#64).toNat < BYTES_PER_KILO ^ prefixes.length := by decide
  exact ⟨(human_readable_size_eq_none _).mpr hlarge, fun F => hlarge F.lt_pow⟩

end
end SyeLabs.Ls
