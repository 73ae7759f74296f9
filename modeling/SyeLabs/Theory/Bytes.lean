import Mathlib.Data.Nat.Digits.Defs
import Mathlib.Data.Nat.Digits.Lemmas
import Mathlib.Data.List.Induction
import Mathlib.Tactic.Common

/-!
# Bytes, words and decimal numerals

The little-endian bytes of a 32-bit word, and decimal numerals with the value a digit-by-digit
accumulation gives them.
-/

namespace SyeLabs

abbrev Byte := BitVec 8
abbrev Word := BitVec 32

/-- Byte `i` of a word, counted from the least significant one. -/
def Word.byte (w : Word) (i : Nat) : Byte := BitVec.ofNat 8 (w.toNat / 256 ^ i)

/-- The four bytes of a word in memory order. -/
def Word.bytes (w : Word) : List Byte := [w.byte 0, w.byte 1, w.byte 2, w.byte 3]

/-- The word with the given bytes in memory order. -/
def Word.ofBytes (b0 b1 b2 b3 : Byte) : Word :=
  BitVec.ofNat 32 (b0.toNat + 256 * b1.toNat + 65536 * b2.toNat + 16777216 * b3.toNat)

@[simp] theorem Word.bytes_length (w : Word) : w.bytes.length = 4 := rfl

@[simp] theorem Word.ofBytes_byte (w : Word) :
    Word.ofBytes (w.byte 0) (w.byte 1) (w.byte 2) (w.byte 3) = w := by
  apply BitVec.eq_of_toNat_eq
  have := w.isLt
  simp only [Word.ofBytes, Word.byte, BitVec.toNat_ofNat]
  omega

theorem Word.byte_ofBytes (b0 b1 b2 b3 : Byte) {i : Nat} (hi : i < 4) :
    (Word.ofBytes b0 b1 b2 b3).byte i = [b0, b1, b2, b3][i] := by
  apply BitVec.eq_of_toNat_eq
  have := b0.isLt
  have := b1.isLt
  have := b2.isLt
  have := b3.isLt
  have hcases : i = 0 ∨ i = 1 ∨ i = 2 ∨ i = 3 := by omega
  rcases hcases with rfl | rfl | rfl | rfl <;>
    simp only [ofBytes, byte, BitVec.toNat_ofNat, List.getElem_cons_zero,
      List.getElem_cons_succ] <;> omega

/-! ## Decimal numerals -/

/-- The decimal digits of a number, most significant first, as ASCII characters. -/
def decimal (n : Nat) : List Byte :=
  if n = 0 then [48] else (Nat.digits 10 n).reverse.map fun d => BitVec.ofNat 8 (48 + d)

/-- The character is an ASCII digit. -/
def isDigit (c : Byte) : Bool := 48 ≤ c.toNat && c.toNat ≤ 57

/-- The value of a list of digits, accumulated from the left. -/
def digitsValue (l : List Byte) : Nat := l.foldl (fun a c => a * 10 + (c.toNat - 48)) 0

theorem isDigit_ofNat {d : Nat} (h : d < 10) : isDigit (BitVec.ofNat 8 (48 + d)) = true := by
  have : (48 + d) % 256 = 48 + d := Nat.mod_eq_of_lt (by omega)
  simp [isDigit, this]
  omega

theorem isDigit_decimal {n : Nat} {c : Byte} (h : c ∈ decimal n) : isDigit c = true := by
  unfold decimal at h
  split at h
  · cases List.mem_singleton.mp h
    rfl
  · obtain ⟨d, hd, rfl⟩ := List.mem_map.mp h
    exact isDigit_ofNat (Nat.digits_lt_base (by decide) (List.mem_reverse.mp hd))

theorem decimal_ne_nil (n : Nat) : decimal n ≠ [] := by
  unfold decimal
  split
  · simp
  · next h => simpa [Nat.digits_ne_nil_iff_ne_zero] using h

private theorem foldl_digits (ds : List Nat) (h : ∀ d ∈ ds, d < 10) :
    (ds.reverse.map fun d => (BitVec.ofNat 8 (48 + d) : Byte)).foldl
      (fun a c => a * 10 + (c.toNat - 48)) 0 = Nat.ofDigits 10 ds := by
  induction ds with
  | nil => rfl
  | cons d ds ih =>
    have hd : d < 10 := h d List.mem_cons_self
    rw [List.reverse_cons, List.map_append, List.foldl_append,
      ih fun d hd => h d (List.mem_cons_of_mem _ hd), Nat.ofDigits_cons]
    have hmod : (48 + d) % 256 = 48 + d := Nat.mod_eq_of_lt (by omega)
    simp only [List.map_cons, List.map_nil, List.foldl_cons, List.foldl_nil, BitVec.toNat_ofNat,
      Nat.reducePow, hmod]
    omega

theorem digitsValue_decimal (n : Nat) : digitsValue (decimal n) = n := by
  unfold decimal digitsValue
  split
  · next h => simp [h]
  · rw [foldl_digits _ fun d hd => Nat.digits_lt_base (by decide) hd, Nat.ofDigits_digits]

end SyeLabs
