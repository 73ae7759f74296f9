import Mathlib.Data.Int.Init
import Mathlib.Data.List.TakeWhile
import SyeLabs.Theory.Bytes
import SyeLabs.Theory.Words

/-!
# The C library functions the programs share

A C string is the list of its characters without the terminating NUL. An `int` is an integer in
the range of 32-bit two's complement, results being reduced with `Int.bmod`.
-/

namespace SyeLabs.Libc

def INT_MAX : Int := 2 ^ 31 - 1

/-- The characters of a string literal. -/
def ascii (s : String) : List Byte := s.toList.map fun c => .ofNat 8 c.toNat

/-- The string that a buffer holds; a buffer without a NUL is all string here. -/
def cstr (buf : List Byte) : List Byte := buf.takeWhile fun c => c ≠ 0

/-- `snprintf(buf, size, "%s", s)`, for a positive `size`; the rest of the buffer stays. -/
def snprintf (buf : List Byte) (size : Nat) (s : List Byte) : List Byte :=
  s.take (size - 1) ++ 0 :: buf.drop ((s.take (size - 1)).length + 1)

/-- White space as `isspace` has it in the C locale. -/
def isspace (c : Byte) : Bool := c == 32 || (9 ≤ c.toNat && c.toNat ≤ 13)

/-- The usual accumulation in an `int`, with wrap-around. -/
def atoi (str : List Byte) : Int :=
  match str.dropWhile isspace with
  | [] => 0
  | c :: rest =>
    if c = 45 then (-(digitsValue (rest.takeWhile isDigit) : Int)).bmod (2 ^ 32)
    else if c = 43 then (digitsValue (rest.takeWhile isDigit) : Int).bmod (2 ^ 32)
    else (digitsValue ((c :: rest).takeWhile isDigit) : Int).bmod (2 ^ 32)

/-- `sprintf(_, "%d", n)`. -/
def sprintfInt (n : Int) : List Byte :=
  if n < 0 then 45 :: decimal n.natAbs else decimal n.natAbs

/-- At most `n` characters of a stream, and none after a newline; and what is left. -/
def fgetsRead : Nat → List Byte → List Byte × List Byte
  | 0, s => ([], s)
  | _, [] => ([], [])
  | n + 1, c :: s =>
    if c = 10 then ([10], s)
    else
      let (l, rest) := fgetsRead n s
      (c :: l, rest)

/-- `fgets(buf, size, stream)`; at the end of the stream the buffer stays as it is. -/
def fgets (buf : List Byte) (size : Nat) (stream : List Byte) : List Byte × List Byte :=
  if stream = [] then (buf, [])
  else
    let (l, rest) := fgetsRead (size - 1) stream
    (l ++ 0 :: buf.drop (l.length + 1), rest)

/-- `strtok`: the next token, and what is left of the string. -/
def strtok (delim s : List Byte) : Option (List Byte × List Byte) :=
  match s.dropWhile fun c => delim.contains c with
  | [] => none
  | c :: s =>
    some ((c :: s).takeWhile fun c => !delim.contains c,
      ((c :: s).dropWhile fun c => !delim.contains c).drop 1)

theorem cstr_append {s : List Byte} (h0 : (0 : Byte) ∉ s) (t : List Byte) :
    cstr (s ++ 0 :: t) = s := by
  have hs : ∀ c ∈ s, decide (c ≠ 0) = true := fun c hc => decide_eq_true fun h => h0 (h ▸ hc)
  rw [cstr, List.takeWhile_append_of_pos hs]
  simp

theorem cstr_snprintf {buf s : List Byte} {size : Nat} (h0 : (0 : Byte) ∉ s)
    (hlen : s.length < size) : cstr (snprintf buf size s) = s := by
  rw [snprintf, List.take_of_length_le (by omega), cstr_append h0]

theorem length_snprintf {buf s : List Byte} {size : Nat} (hsize : 0 < size)
    (hbuf : size ≤ buf.length) : (snprintf buf size s).length = buf.length := by
  simp only [snprintf, List.length_append, List.length_take, List.length_cons, List.length_drop]
  omega

theorem not_isspace_of_isDigit {c : Byte} (h : isDigit c = true) : isspace c = false := by
  revert c; decide

/-- The number ends before the first character that is no digit. -/
theorem atoi_of_isDigit {c : Byte} (rest : List Byte) (hc : isDigit c = true) :
    atoi (c :: rest) = (digitsValue ((c :: rest).takeWhile isDigit) : Int).bmod (2 ^ 32) := by
  have hdrop : (c :: rest).dropWhile isspace = c :: rest := by
    rw [List.dropWhile_cons, not_isspace_of_isDigit hc]
    rfl
  have hsign : c ≠ 45 ∧ c ≠ 43 := by
    constructor <;> rintro rfl <;> exact absurd hc (by decide)
  rw [atoi, hdrop]
  simp only [hsign.1, hsign.2, if_false]

theorem atoi_of_digits {str : List Byte} (hne : str ≠ [])
    (h : ∀ c ∈ str, isDigit c = true) : atoi str = (digitsValue str : Int).bmod (2 ^ 32) := by
  cases str with
  | nil => exact absurd rfl hne
  | cons c rest =>
    rw [atoi_of_isDigit rest (h c List.mem_cons_self), List.takeWhile_eq_self_iff.mpr h]

theorem atoi_sprintfInt {n : Int} (h0 : 0 ≤ n) (hmax : n ≤ INT_MAX) :
    atoi (sprintfInt n) = n := by
  rw [sprintfInt, if_neg (Int.not_lt.mpr h0),
    atoi_of_digits (decimal_ne_nil _) (fun c hc => isDigit_decimal hc), digitsValue_decimal,
    Int.natAbs_of_nonneg h0]
  exact Int.bmod_eq_of_le (by omega) (by simp only [INT_MAX] at hmax; omega)

theorem fgetsRead_line {l : List Byte} {n : Nat} (hl : (10 : Byte) ∉ l) (hn : l.length < n)
    (s : List Byte) : fgetsRead n (l ++ 10 :: s) = (l ++ [10], s) := by
  induction l generalizing n with
  | nil =>
    obtain ⟨n, rfl⟩ := Nat.exists_eq_succ_of_ne_zero (Nat.ne_of_gt hn)
    rfl
  | cons c l ih =>
    obtain ⟨n, rfl⟩ := Nat.exists_eq_succ_of_ne_zero (Nat.ne_of_gt (Nat.zero_lt_of_lt hn))
    obtain ⟨hc, hl⟩ := not_or.mp (List.mem_cons.not.mp hl)
    rw [List.cons_append, fgetsRead, if_neg (Ne.symm hc), ih hl (Nat.lt_of_succ_lt_succ hn)]
    rfl

/-- A line that is too long is read in part. -/
theorem fgetsRead_part {l : List Byte} {n : Nat} (hl : (10 : Byte) ∉ l) (hn : n ≤ l.length)
    (s : List Byte) : fgetsRead n (l ++ s) = (l.take n, l.drop n ++ s) := by
  induction n generalizing l with
  | zero => simp [fgetsRead]
  | succ n ih =>
    cases l with
    | nil => exact absurd hn (Nat.not_succ_le_zero n)
    | cons c l =>
      obtain ⟨hc, hl⟩ := not_or.mp (List.mem_cons.not.mp hl)
      rw [List.cons_append, fgetsRead, if_neg (Ne.symm hc), ih hl (Nat.le_of_succ_le_succ hn)]
      rfl

/-! ## Tokens -/

section
variable {delim s next_token rest : List Byte}

theorem strtok_eq_none (h : strtok delim s = none) : words delim.contains s = [] := by
  rw [strtok] at h
  split at h
  · next hs => rw [← words_dropWhile, hs, words_nil]
  · exact absurd h (Option.some_ne_none _)

/-- A token is a word, and the rest of the string has the other words. -/
theorem strtok_eq_some (h : strtok delim s = some (next_token, rest)) :
    words delim.contains s = next_token :: words delim.contains rest ∧
      next_token.length ≤ s.length ∧ rest.length < s.length := by
  rw [strtok] at h
  split at h
  · exact absurd h.symm (Option.some_ne_none _)
  · next c t hs =>
    obtain ⟨rfl, rfl⟩ := Prod.mk.inj (Option.some.inj h)
    have hc : delim.contains c = false := not_sep_of_dropWhile hs
    have hlen : (c :: t).length ≤ s.length := hs ▸ (List.dropWhile_sublist _).length_le
    refine ⟨?_, (List.takeWhile_sublist _).length_le.trans hlen, lt_of_lt_of_le ?_ hlen⟩
    · rw [← words_dropWhile, hs, words_cons hc]
    · have hdrop := (List.dropWhile_sublist (l := t) fun c => !delim.contains c).length_le
      rw [List.dropWhile_cons, hc, List.length_drop]
      exact Nat.lt_succ_of_le ((Nat.sub_le _ _).trans hdrop)

end
end SyeLabs.Libc
