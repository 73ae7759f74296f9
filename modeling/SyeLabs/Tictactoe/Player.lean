import SyeLabs.Libc
import SyeLabs.Theory.Arrays

/-!
# The moves typed to `tictactoe_player.c`

`parse_line` copies the digits to a buffer of its own and leaves the range to `atoi`, which works
in an `int`.
-/

namespace SyeLabs.Tictactoe
open Libc Arrays

/-- A string, without its terminator. -/
abbrev CString := {s : List Byte // (0 : Byte) ∉ s}

/-- `str[i]`; `none` behind the terminator. -/
def CString.charAt (str : CString) (i : ℕ) : Option Byte := (str.val ++ [0])[i]?

/-- The loop, with the result and `*index`. The first argument is what `i` lacks to
`MAX_BUFFER_LENGTH`. -/
def parseLoop {n : ℕ} (str : CString) (index : Int) :
    ℕ → ℕ → ℕ → Vector Byte n → Option (Int × Int)
  | 0, _, _, _ => some (0, index)
  | left + 1, i, j, buffer => do
    let c ← str.charAt i
    if isDigit c then
      let buffer ← assign buffer j c
      parseLoop str index left (i + 1) (j + 1) buffer
    else if c = 0 then
      let buffer ← assign buffer j 0
      let index := atoi (cstr buffer.toList)
      if index ≤ 0 ∨ index > 9 then return (0, index) else return (1, index - 1)
    else return (0, index)

/-- `none` is an access outside a string or an array; `buffer` comes uninitialised. -/
def parse_line {MAX_BUFFER_LENGTH : ℕ} (buffer : Vector Byte (MAX_BUFFER_LENGTH + 1))
    (str : CString) (index : Int) : Option (Int × Int) := do
  if (← str.charAt 0) = 0 then return (0, index)
  parseLoop str index MAX_BUFFER_LENGTH 0 0 buffer

/-! ## Moves -/

/-- A numeral that fits in the buffer. -/
structure IsNumeral (MAX_BUFFER_LENGTH : ℕ) (str : CString) : Prop where
  ne_nil : str.val ≠ []
  length : str.val.length < MAX_BUFFER_LENGTH
  digits : ∀ c ∈ str.val, isDigit c = true

/-- A numeral between 1 and 9. -/
structure IsMove (MAX_BUFFER_LENGTH : ℕ) (str : CString) : Prop
    extends IsNumeral MAX_BUFFER_LENGTH str where
  pos : 1 ≤ digitsValue str.val
  le : digitsValue str.val ≤ 9

/-- The line is taken exactly if it is a move. -/
structure TakesMoves {MAX_BUFFER_LENGTH : ℕ} (buffer : Vector Byte (MAX_BUFFER_LENGTH + 1))
    (str : CString) (index : Int) : Prop where
  takes : IsMove MAX_BUFFER_LENGTH str →
    parse_line buffer str index = some (1, (digitsValue str.val : Int) - 1)
  refuses : ¬IsMove MAX_BUFFER_LENGTH str → ∃ v, parse_line buffer str index = some (0, v)

/-- A numeral that is between 1 and 9 only modulo 2^32. -/
structure WrapsToMove (MAX_BUFFER_LENGTH : ℕ) (str : CString) : Prop
    extends IsNumeral MAX_BUFFER_LENGTH str where
  large : 9 < digitsValue str.val
  pos : 1 ≤ digitsValue str.val % 2 ^ 32
  le : digitsValue str.val % 2 ^ 32 ≤ 9

/-! ## The loop -/

section
variable {n : ℕ} {str : CString} {s t : List Byte} {left : ℕ}

/-- What `parse_line` makes of a numeral. -/
def ofIndex (index : Int) : Int × Int :=
  if index ≤ 0 ∨ index > 9 then (0, index) else (1, index - 1)

theorem cstr_starts {buffer : Vector Byte n} (h0 : (0 : Byte) ∉ s)
    (H : Starts buffer (s ++ [0])) : cstr buffer.toList = s := by
  rw [H.eq_append, List.append_assoc]
  exact cstr_append h0 _

theorem CString.charAt_nil (hstr : str.val = s) : str.charAt s.length = some 0 := by
  rw [charAt, hstr]
  simp

theorem CString.charAt_cons {c : Byte} (hstr : str.val = s ++ c :: t) :
    str.charAt s.length = some c := by
  rw [charAt, hstr]
  simp

/-- The digits `s` have been copied. -/
theorem parseLoop_eq (index : Int) {buffer : Vector Byte n} (hstr : str.val = s ++ t)
    (hleft : s.length + left < n) (H : Starts buffer s) :
    parseLoop str index left s.length s.length buffer =
      some (if t.length < left ∧ ∀ c ∈ t, isDigit c = true then ofIndex (atoi str.val)
        else (0, index)) := by
  induction left generalizing s t buffer with
  | zero => simp [parseLoop]
  | succ left ih =>
    have hs : s.length < n := by omega
    cases t with
    | nil =>
      rw [List.append_nil] at hstr
      have h0 : (0 : Byte) ∉ s := hstr ▸ str.property
      have hindex : atoi (cstr (buffer.set s.length 0).toList) = atoi str.val := by
        rw [cstr_starts h0 (H.snoc rfl hs 0), hstr]
      simp only [parseLoop, CString.charAt_nil hstr, assign_eq hs, Option.bind_eq_bind,
        Option.bind_some, hindex]
      have hd : ¬isDigit 0 = true := by decide
      have hall : ([] : List Byte).length < left + 1 ∧ ∀ c ∈ ([] : List Byte),
          isDigit c = true := ⟨Nat.succ_pos left, by simp⟩
      rw [if_neg hd, if_pos hall, ofIndex]
      split_ifs <;> rfl
    | cons c t =>
      have hc0 : c ≠ 0 := by
        rintro rfl
        exact str.property (hstr ▸ List.mem_append_right _ List.mem_cons_self)
      simp only [parseLoop, CString.charAt_cons hstr, assign_eq hs, Option.bind_eq_bind,
        Option.bind_some, List.length_cons, Nat.succ_lt_succ_iff, List.forall_mem_cons]
      by_cases hd : isDigit c = true
      · have hstr' : str.val = (s ++ [c]) ++ t := by rw [hstr, List.append_cons]
        have hnext := ih hstr' (by simp; omega) (H.snoc rfl hs c)
        rw [List.length_append, List.length_singleton] at hnext
        rw [if_pos hd, hnext]
        simp only [hd, true_and]
      · rw [if_neg hd, if_neg hc0, if_neg fun h => hd h.2.1]
        rfl

theorem isNumeral_iff {N : ℕ} : IsNumeral N str ↔
    str.val ≠ [] ∧ str.val.length < N ∧ ∀ c ∈ str.val, isDigit c = true :=
  ⟨fun h => ⟨h.1, h.2, h.3⟩, fun h => ⟨h.1, h.2.1, h.2.2⟩⟩

instance {N : ℕ} : Decidable (IsNumeral N str) := decidable_of_iff _ isNumeral_iff.symm

variable {MAX_BUFFER_LENGTH : ℕ} {buffer : Vector Byte (MAX_BUFFER_LENGTH + 1)} {index : Int}

/-- No access is out of range, and a numeral is judged by its value in an `int`. -/
theorem parse_line_eq : parse_line buffer str index =
    some (if IsNumeral MAX_BUFFER_LENGTH str then
      ofIndex ((digitsValue str.val : Int).bmod (2 ^ 32)) else (0, index)) := by
  by_cases hnil : str.val = []
  · have hnot : ¬IsNumeral MAX_BUFFER_LENGTH str := fun h => h.ne_nil hnil
    rw [if_neg hnot, parse_line, CString.charAt, hnil]
    rfl
  · obtain ⟨c, t, hstr⟩ := List.exists_cons_of_ne_nil hnil
    have hc0 : c ≠ 0 := by
      rintro rfl
      exact str.property (hstr ▸ List.mem_cons_self)
    have hchar : str.charAt 0 = some c := CString.charAt_cons (s := []) hstr
    have hstart : Starts buffer [] := rfl
    have hleft : ([] : List Byte).length + MAX_BUFFER_LENGTH < MAX_BUFFER_LENGTH + 1 := by simp
    have hloop := parseLoop_eq index (List.nil_append str.val).symm hleft hstart
    rw [parse_line, hchar, Option.bind_eq_bind, Option.bind_some, if_neg hc0]
    refine hloop.trans (congrArg some ?_)
    by_cases hnum : IsNumeral MAX_BUFFER_LENGTH str
    · rw [if_pos ⟨hnum.length, hnum.digits⟩, if_pos hnum, atoi_of_digits hnil hnum.digits]
    · rw [if_neg fun h => hnum ⟨hnil, h.1, h.2⟩, if_neg hnum]

theorem ofIndex_of_pos {v : ℕ} (hpos : 1 ≤ v % 2 ^ 32) (hle : v % 2 ^ 32 ≤ 9) :
    ofIndex ((v : Int).bmod (2 ^ 32)) = (1, ((v % 2 ^ 32 : ℕ) : Int) - 1) := by
  have hmod : (v : Int).bmod (2 ^ 32) = ((v % 2 ^ 32 : ℕ) : Int) := by
    rw [← Int.emod_bmod]
    exact Int.bmod_eq_of_le (by omega) (by omega)
  rw [hmod, ofIndex, if_neg (by omega)]

theorem ofIndex_of_not {v : ℕ} (h : ¬(1 ≤ v % 2 ^ 32 ∧ v % 2 ^ 32 ≤ 9)) :
    ofIndex ((v : Int).bmod (2 ^ 32)) = (0, (v : Int).bmod (2 ^ 32)) := by
  refine if_pos ?_
  simp only [Int.bmod_def]
  split_ifs <;> omega

/-- The moves are what is taken exactly if the line is no numeral that wraps around. -/
theorem takesMoves_iff (buffer : Vector Byte (MAX_BUFFER_LENGTH + 1)) (str : CString)
    (index : Int) :
    TakesMoves buffer str index ↔ ¬WrapsToMove MAX_BUFFER_LENGTH str := by
  constructor
  · intro T W
    have hnot : ¬IsMove MAX_BUFFER_LENGTH str := fun M => absurd M.le (by have := W.large; omega)
    obtain ⟨v, hv⟩ := T.refuses hnot
    rw [parse_line_eq, if_pos W.toIsNumeral, ofIndex_of_pos W.pos W.le] at hv
    exact absurd (congrArg Prod.fst (Option.some.inj hv)) one_ne_zero
  · intro hW
    constructor
    case takes =>
      intro M
      have hmod : digitsValue str.val % 2 ^ 32 = digitsValue str.val :=
        Nat.mod_eq_of_lt (by have := M.le; omega)
      rw [parse_line_eq, if_pos M.toIsNumeral,
        ofIndex_of_pos (by rw [hmod]; exact M.pos) (by rw [hmod]; exact M.le), hmod]
    case refuses =>
      intro hM
      by_cases hnum : IsNumeral MAX_BUFFER_LENGTH str
      · have hout : ¬(1 ≤ digitsValue str.val % 2 ^ 32 ∧ digitsValue str.val % 2 ^ 32 ≤ 9) := by
          rintro ⟨hpos, hle⟩
          by_cases hlarge : 9 < digitsValue str.val
          · exact hW ⟨hnum, hlarge, hpos, hle⟩
          · rw [Nat.mod_eq_of_lt (by omega)] at hpos
            exact hM ⟨hnum, hpos, Nat.le_of_not_lt hlarge⟩
        exact ⟨_, by rw [parse_line_eq, if_pos hnum, ofIndex_of_not hout]⟩
      · exact ⟨_, by rw [parse_line_eq, if_neg hnum]⟩

/-- The line `4294967297`, which is 2^32 + 1. -/
def wrapped : CString := ⟨ascii "4294967297", by decide⟩

/-- It is taken for the first cell. -/
theorem not_takesMoves_wrapped :
    parse_line (Vector.replicate 13 0) wrapped (-1) = some (1, 0) ∧
      ¬IsMove 12 wrapped ∧ ¬TakesMoves (Vector.replicate 13 0) wrapped (-1) := by
  have hvalue : digitsValue wrapped.val = 2 ^ 32 + 1 := by decide
  have hW : WrapsToMove 12 wrapped := by
    refine ⟨⟨by decide, by decide, by decide⟩, ?_, ?_, ?_⟩ <;> rw [hvalue] <;> decide
  have hmove : ¬IsMove 12 wrapped := fun M => absurd M.le (by rw [hvalue]; decide)
  have hparse : parse_line (Vector.replicate 13 0) wrapped (-1) = some (1, 0) := by
    rw [parse_line_eq, if_pos hW.toIsNumeral, ofIndex_of_pos hW.pos hW.le, hvalue]
    rfl
  refine ⟨hparse, hmove, fun T => ?_⟩
  obtain ⟨v, hv⟩ := T.refuses hmove
  exact absurd (congrArg Prod.fst (Option.some.inj (hparse.symm.trans hv))) one_ne_zero

end
end SyeLabs.Tictactoe
