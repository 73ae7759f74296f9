import Mathlib.Data.Nat.Bitwise
import Mathlib.Tactic.Common
import SyeLabs.Theory.Bytes

/-!
# Masks

The masks that split a word into its upper bits and its `k` lower ones, in terms of division
with remainder by `2 ^ k`.
-/

namespace SyeLabs.Word

/-- The mask of all bits but the `k` lower ones. -/
def highMask (k : Nat) : Word := BitVec.ofNat 32 (2 ^ 32 - 2 ^ k)

/-- The mask of the `k` lower bits. -/
def lowMask (k : Nat) : Word := BitVec.ofNat 32 (2 ^ k - 1)

theorem and_lowMask_toNat (w : Word) {k : Nat} (hk : k ≤ 32) :
    (w &&& lowMask k).toNat = w.toNat % 2 ^ k := by
  have hpow : 2 ^ k ≤ 2 ^ 32 := Nat.pow_le_pow_right (by decide) hk
  have hpos : 0 < 2 ^ k := Nat.two_pow_pos k
  rw [lowMask, BitVec.toNat_and, BitVec.toNat_ofNat, Nat.mod_eq_of_lt (by omega),
    Nat.and_two_pow_sub_one_eq_mod]

theorem and_highMask_toNat (w : Word) {k : Nat} (hk : k ≤ 32) :
    (w &&& highMask k).toNat = w.toNat / 2 ^ k * 2 ^ k := by
  have hpow : 2 ^ k ≤ 2 ^ 32 := Nat.pow_le_pow_right (by decide) hk
  have hpos : 0 < 2 ^ k := Nat.two_pow_pos k
  rw [highMask, BitVec.toNat_and, BitVec.toNat_ofNat, Nat.mod_eq_of_lt (by omega)]
  apply Nat.eq_of_testBit_eq
  intro i
  have hmask : (2 ^ 32 - 2 ^ k).testBit i = (decide (i < 32) && !decide (i < k)) := by
    have h := Nat.testBit_two_pow_sub_succ (n := 32) (x := 2 ^ k - 1) (by omega) i
    rwa [Nat.sub_add_cancel hpos, Nat.testBit_two_pow_sub_one] at h
  rw [Nat.testBit_and, hmask, Nat.testBit_mul_two_pow, Nat.testBit_div_two_pow]
  by_cases hik : i < k
  · simp [hik, Nat.not_le.mpr hik]
  · rw [Nat.sub_add_cancel (by omega)]
    by_cases hi : i < 32
    · simp [hi, hik, Nat.not_lt.mp hik]
    · rw [Nat.testBit_lt_two_pow (lt_of_lt_of_le w.isLt (Nat.pow_le_pow_right (by decide)
        (by omega)))]
      simp

/-- The upper bits of one word joined with the lower bits of another. -/
theorem or_toNat (a b : Word) {k : Nat} (hk : k ≤ 32) :
    ((a &&& highMask k) ||| (b &&& lowMask k)).toNat =
      a.toNat / 2 ^ k * 2 ^ k + b.toNat % 2 ^ k := by
  rw [BitVec.toNat_or, and_highMask_toNat a hk, and_lowMask_toNat b hk, Nat.mul_comm,
    ← Nat.two_pow_add_eq_or_of_lt (Nat.mod_lt _ (Nat.two_pow_pos k))]

theorem or_and_eq_zero (a b c : Word) : (a ||| b) &&& c = 0 ↔ a &&& c = 0 ∧ b &&& c = 0 := by
  rw [BitVec.and_or_distrib_right]
  exact BitVec.or_eq_zero_iff

/-- A word without its `k` lower bits. -/
theorem and_lowMask_eq_zero (w : Word) {k : Nat} (hk : k ≤ 32) :
    w &&& lowMask k = 0 ↔ 2 ^ k ∣ w.toNat := by
  rw [Nat.dvd_iff_mod_eq_zero, ← and_lowMask_toNat w hk]
  exact BitVec.toNat_inj.symm

end SyeLabs.Word
