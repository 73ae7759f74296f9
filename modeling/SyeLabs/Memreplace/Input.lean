import SyeLabs.Libc
import SyeLabs.Memreplace.Basic

/-!
# The lines typed to `memreplace`

`ask_user_page_no` reads into four bytes, so a line of three characters takes more than one call,
and `atoi` looks at the digits in front only. At the end of the input the buffer is what an earlier
call has left on the stack.
-/

namespace SyeLabs.Memreplace
open Libc

def EXIT_MEMRPLC : Int := -2

/-- What the buffer is taken for: a page number, the end, or nothing. -/
def pageNo (input : List Byte) : Int :=
  if input.headD 0 = 69 || input.headD 0 = 101 then EXIT_MEMRPLC
  else if !isDigit (input.headD 0) then -1
  else atoi (cstr input)

/-- The page number, and what is left of the input. `stale` is in the buffer before. -/
def ask_user_page_no (stale stdin : List Byte) : Int × List Byte :=
  let (input, stdin) := fgets stale 4 stdin
  (pageNo input, stdin)

/-- Where `main` is in its loop. -/
structure Session where
  stdin : List Byte
  accesses : List (Fin NB_PAGES) := []
  exited : Bool := false

/-- One round of the loop of `main`. -/
def Session.round (m : Session) (stale : List Byte) : Session :=
  if m.exited then m
  else
    let (page_no, stdin) := ask_user_page_no stale m.stdin
    if page_no = EXIT_MEMRPLC then { m with stdin, exited := true }
    else if h : 0 ≤ page_no ∧ page_no < NB_PAGES then
      { m with stdin, accesses := m.accesses ++ [⟨page_no.toNat, by omega⟩] }
    else { m with stdin }

/-- The loop of `main`; `stale k` is in the buffer when call `k` begins. -/
def rounds (stale : ℕ → List Byte) (stdin : List Byte) : ℕ → Session
  | 0 => { stdin }
  | k + 1 => (rounds stale stdin k).round (stale k)

/-! ## Lines -/

/-- The characters of a line, without the newline. -/
abbrev Line := {l : List Byte // (10 : Byte) ∉ l ∧ (0 : Byte) ∉ l}

def input (lines : List Line) : List Byte := lines.flatMap fun l => l.val ++ [10]

/-- A line that starts with `e` or `E`. -/
def asksExit (l : Line) : Bool := l.val.headD 0 = 69 || l.val.headD 0 = 101

/-- The page whose number the line is. -/
def pageOf (l : Line) : Option (Fin NB_PAGES) :=
  if h : l.val ≠ [] ∧ l.val.all isDigit = true ∧ digitsValue l.val < NB_PAGES then
    some ⟨digitsValue l.val, h.2.2⟩
  else none

/-- The lines before the first one that asks for the end. -/
def beforeExit (lines : List Line) : List Line := lines.takeWhile fun l => !asksExit l

/-- Each call takes a line, up to the first that asks for the end; and the pages that are accessed
are those of the lines before. -/
structure DrivenByLines (stale : ℕ → List Byte) (lines : List Line) : Prop where
  consumed : ∀ k, k ≤ lines.length → k ≤ (beforeExit lines).length + 1 →
    (rounds stale (input lines) k).stdin = input (lines.drop k)
  accesses : ∀ k, (rounds stale (input lines) k).accesses =
    ((beforeExit lines).take k).filterMap pageOf

/-- What is in the buffer at the end of the input is no page, unless a call before has taken it for
the end. -/
def HarmlessAtEnd (stale : ℕ → List Byte) (n : ℕ) : Prop :=
  ∀ k, n ≤ k → (∀ j, n ≤ j → j < k → pageNo (stale j) ≠ EXIT_MEMRPLC) →
    ¬(0 ≤ pageNo (stale k) ∧ pageNo (stale k) < NB_PAGES)

/-- All lines up to the first that asks for the end have two characters at most; those before that
start with a digit have digits only; and if none asks for the end, what is in the buffer afterwards
is harmless. -/
structure ShortLines (stale : ℕ → List Byte) (lines : List Line) : Prop where
  short : ∀ l ∈ lines.take ((beforeExit lines).length + 1), l.val.length ≤ 2
  digits : ∀ l ∈ beforeExit lines, isDigit (l.val.headD 0) = true → l.val.all isDigit = true
  stale : beforeExit lines = lines → HarmlessAtEnd stale lines.length

/-! ## One call -/

section
variable {l : Line} {lines : List Line} {m : Session} {stale : List Byte} {k : ℕ} {c : Byte}
  {s t : List Byte}

theorem input_cons (l : Line) (lines : List Line) :
    input (l :: lines) = l.val ++ 10 :: input lines := by
  simp [input]

theorem length_input_cons (l : Line) (lines : List Line) :
    (input (l :: lines)).length = l.val.length + 1 + (input lines).length := by
  rw [input_cons, List.length_append, List.length_cons]
  omega

/-- What is behind the string in the buffer does not count. -/
theorem pageNo_append (h0 : (0 : Byte) ∉ c :: s) (t : List Byte) :
    pageNo (c :: s ++ 0 :: t) = pageNo (c :: s ++ [0]) := by
  unfold pageNo
  rw [cstr_append h0, cstr_append h0]
  rfl

/-- What a line of two characters or less is taken for. -/
def lineNo (l : Line) : Int := pageNo (l.val ++ [10] ++ [0])

theorem ask_line (hl : l.val.length ≤ 2) (stale : List Byte) (lines : List Line) :
    ask_user_page_no stale (input (l :: lines)) = (lineNo l, input lines) := by
  obtain ⟨l, h10, h0⟩ := l
  have hne : l ++ 10 :: input lines ≠ [] := by simp
  have hread := fgetsRead_line h10 (Nat.lt_succ_of_le hl) (input lines)
  have h0' : (0 : Byte) ∉ l ++ [10] := by simpa using h0
  rw [input_cons, ask_user_page_no, fgets, if_neg hne]
  simp only [Nat.add_one_sub_one, hread, lineNo]
  cases l with
  | nil => exact congrArg (·, _) (pageNo_append h0' _)
  | cons c l => exact congrArg (·, _) (pageNo_append h0' _)

/-- A longer line is not taken as a whole. -/
theorem ask_long (hl : 3 ≤ l.val.length) (stale : List Byte) (lines : List Line) :
    (input lines).length < (ask_user_page_no stale (input (l :: lines))).2.length := by
  obtain ⟨l, h10, h0⟩ := l
  have hne : l ++ 10 :: input lines ≠ [] := by simp
  have hread := fgetsRead_part h10 hl (10 :: input lines)
  rw [input_cons, ask_user_page_no, fgets, if_neg hne]
  simp only [Nat.add_one_sub_one, hread, List.length_append, List.length_cons]
  omega

/-- The access that a page number leads to. -/
def accessOf (page_no : Int) : Option (Fin NB_PAGES) :=
  if h : 0 ≤ page_no ∧ page_no < NB_PAGES then some ⟨page_no.toNat, by omega⟩ else none

theorem accessOf_eq_none {page_no : Int} :
    accessOf page_no = none ↔ ¬(0 ≤ page_no ∧ page_no < NB_PAGES) := dite_eq_right_iff.trans
  ⟨fun h hp => Option.some_ne_none _ (h hp), fun h hp => absurd hp h⟩

theorem Session.round_eq (hm : m.exited = false) {page_no : Int} {stdin : List Byte}
    (hask : ask_user_page_no stale m.stdin = (page_no, stdin)) :
    m.round stale =
      { stdin
        accesses := m.accesses ++ (accessOf page_no).toList
        exited := decide (page_no = EXIT_MEMRPLC) } := by
  rw [Session.round, hm, hask]
  simp only [Bool.false_eq_true, if_false]
  split_ifs with hexit h
  · subst hexit
    have hno : accessOf EXIT_MEMRPLC = none := rfl
    simp [hno]
  · have hsome : accessOf page_no = some ⟨page_no.toNat, by omega⟩ := dif_pos h
    simp [hsome, hexit]
  · have hno : accessOf page_no = none := dif_neg h
    simp [hno, hexit]

theorem Session.round_exited (hm : m.exited = true) (stale : List Byte) : m.round stale = m := by
  rw [Session.round, hm, if_pos rfl]

/-! ## The number of a line -/

theorem lineNo_of_asksExit (h : asksExit l = true) : lineNo l = EXIT_MEMRPLC := by
  obtain ⟨l, h10, h0⟩ := l
  cases l with
  | nil => exact Bool.noConfusion (h : false = true)
  | cons c l => exact if_pos h

theorem lineNo_of_not_isDigit (hexit : asksExit l = false)
    (hd : isDigit (l.val.headD 0) = false) : lineNo l = -1 := by
  obtain ⟨l, h10, h0⟩ := l
  cases l with
  | nil => rfl
  | cons c l =>
    have hexit' : ¬(decide (c = 69) || decide (c = 101)) = true := Bool.eq_false_iff.mp hexit
    have hd' : (!isDigit c) = true := by
      rw [Bool.not_eq_true']
      exact hd
    exact (if_neg hexit').trans (if_pos hd')

theorem asksExit_of_isDigit (hd : isDigit (l.val.headD 0) = true) : asksExit l = false := by
  rw [asksExit, Bool.or_eq_false_iff, decide_eq_false_iff_not, decide_eq_false_iff_not]
  constructor <;> intro h <;> rw [h] at hd <;> exact absurd hd (by decide)

theorem takeWhile_append_cons {p : Byte → Bool} (hc : p c = false) (s t : List Byte) :
    (s ++ c :: t).takeWhile p = s.takeWhile p := by
  induction s with
  | nil => simp [hc]
  | cons b s ih =>
    rw [List.cons_append, List.takeWhile_cons, List.takeWhile_cons, ih]

/-- The numeral at the start of a line. -/
theorem lineNo_of_isDigit (hd : isDigit (l.val.headD 0) = true) :
    lineNo l = (digitsValue (l.val.takeWhile isDigit) : Int).bmod (2 ^ 32) := by
  have hexit := asksExit_of_isDigit hd
  obtain ⟨l, h10, h0⟩ := l
  cases l with
  | nil => exact Bool.noConfusion (hd : false = true)
  | cons c l =>
    have h0' : (0 : Byte) ∉ c :: l ++ [10] := by simpa using h0
    have hd' : ¬(!isDigit c) = true := by
      rw [Bool.not_eq_true', Bool.not_eq_false]
      exact hd
    have hline : lineNo ⟨c :: l, h10, h0⟩ = atoi (cstr (c :: l ++ [10] ++ [0])) :=
      (if_neg (Bool.eq_false_iff.mp hexit)).trans (if_neg hd')
    rw [hline, cstr_append h0', ← takeWhile_append_cons (c := 10) (by decide) (c :: l) []]
    exact atoi_of_isDigit (c := c) (l ++ [10]) hd

theorem digitsValue_lt {ds : List Byte} (hds : ∀ c ∈ ds, isDigit c = true) :
    digitsValue ds < 10 ^ ds.length := by
  induction ds using List.reverseRecOn with
  | nil => decide
  | append_singleton ds c ih =>
    have hlt := ih fun b hb => hds b (List.mem_append_left _ hb)
    have hc := hds c (List.mem_append_right _ (List.mem_singleton_self c))
    simp only [isDigit, Bool.and_eq_true, decide_eq_true_eq] at hc
    rw [digitsValue, List.foldl_append, List.length_append, List.length_singleton, pow_succ]
    change digitsValue ds * 10 + (c.toNat - 48) < _
    omega

/-- The number of a short line that starts with a digit. -/
theorem lineNo_short (hl : l.val.length ≤ 2) (hd : isDigit (l.val.headD 0) = true) :
    lineNo l = digitsValue (l.val.takeWhile isDigit) ∧
      digitsValue (l.val.takeWhile isDigit) < 10 ^ (l.val.takeWhile isDigit).length := by
  have hdigits : ∀ c ∈ l.val.takeWhile isDigit, isDigit c = true :=
    fun c hc => List.mem_takeWhile_imp hc
  have hlt := digitsValue_lt hdigits
  refine ⟨?_, hlt⟩
  have hlen : (l.val.takeWhile isDigit).length ≤ 2 :=
    (List.takeWhile_sublist _).length_le.trans hl
  have hpow : 10 ^ (l.val.takeWhile isDigit).length ≤ 10 ^ 2 :=
    Nat.pow_le_pow_right (by decide) hlen
  rw [lineNo_of_isDigit hd]
  exact Int.bmod_eq_of_le (by omega) (by omega)

theorem lineNo_ne_exit (hl : l.val.length ≤ 2) (hexit : asksExit l = false) :
    lineNo l ≠ EXIT_MEMRPLC := by
  cases hd : isDigit (l.val.headD 0) with
  | true =>
    rw [(lineNo_short hl hd).1, EXIT_MEMRPLC]
    omega
  | false =>
    rw [lineNo_of_not_isDigit hexit hd]
    decide

/-- A short line leads to the right access unless it has a digit in front and something else
behind. -/
theorem accessOf_lineNo_iff (hl : l.val.length ≤ 2) (hexit : asksExit l = false) :
    accessOf (lineNo l) = pageOf l ↔
      (isDigit (l.val.headD 0) = true → l.val.all isDigit = true) := by
  cases hd : isDigit (l.val.headD 0) with
  | false =>
    have hpage : pageOf l = none := by
      refine dif_neg ?_
      rintro ⟨hne, hall, -⟩
      cases hl' : l.val with
      | nil => exact hne hl'
      | cons c cs =>
        rw [hl'] at hd hall
        rw [List.all_cons, Bool.and_eq_true] at hall
        exact Bool.noConfusion (hd.symm.trans hall.1)
    rw [lineNo_of_not_isDigit hexit hd, hpage]
    exact iff_of_true rfl nofun
  | true =>
    obtain ⟨hno, hlt⟩ := lineNo_short hl hd
    by_cases hall : l.val.all isDigit = true
    · have htake : l.val.takeWhile isDigit = l.val :=
        List.takeWhile_eq_self_iff.mpr (List.all_eq_true.mp hall)
      have hne : l.val ≠ [] := by
        intro hnil
        rw [hnil] at hd
        exact Bool.noConfusion hd
      rw [htake] at hno
      refine iff_of_true ?_ fun _ => hall
      by_cases hmax : digitsValue l.val < NB_PAGES
      · rw [pageOf, dif_pos ⟨hne, hall, hmax⟩, accessOf, dif_pos (by omega)]
        exact congrArg some (Fin.ext (by simp [hno]))
      · rw [pageOf, dif_neg fun h => hmax h.2.2, accessOf_eq_none]
        omega
    · -- one digit is left of the line
      have hpage : pageOf l = none := dif_neg fun h => hall h.2.1
      have hlen : (l.val.takeWhile isDigit).length < l.val.length := by
        refine lt_of_le_of_ne (List.takeWhile_sublist _).length_le fun h => hall ?_
        have hself := (List.takeWhile_sublist _).eq_of_length h
        exact List.all_eq_true.mpr (List.takeWhile_eq_self_iff.mp hself)
      have hpow : 10 ^ (l.val.takeWhile isDigit).length ≤ 10 ^ 1 :=
        Nat.pow_le_pow_right (by decide) (by omega)
      have hpages : NB_PAGES = 16 := rfl
      refine iff_of_false ?_ fun h => hall (h rfl)
      rw [hpage, accessOf_eq_none]
      exact fun h => h ⟨by omega, by omega⟩

end

/-! ## The loop over the lines -/

section
variable {l : Line} {lines : List Line} {stale : ℕ → List Byte} {k : ℕ}

theorem prefix_lines (lines : List Line) : beforeExit lines <+: lines :=
  List.takeWhile_prefix _

/-- The loop as it should be after `k` lines. -/
def atLine (lines : List Line) (k : ℕ) : Session where
  stdin := input (lines.drop k)
  accesses := (lines.take k).filterMap pageOf

/-- One line of the input. -/
theorem atLine_round (hk : k < lines.length) (hl : lines[k].val.length ≤ 2) (stale : List Byte) :
    (atLine lines k).round stale =
      { stdin := input (lines.drop (k + 1))
        accesses := (lines.take k).filterMap pageOf ++ (accessOf (lineNo lines[k])).toList
        exited := decide (lineNo lines[k] = EXIT_MEMRPLC) } := by
  refine Session.round_eq rfl ?_
  rw [atLine, List.drop_eq_getElem_cons hk]
  exact ask_line hl stale _

theorem take_succ_filterMap (hk : k < lines.length) : (lines.take (k + 1)).filterMap pageOf =
    (lines.take k).filterMap pageOf ++ (pageOf lines[k]).toList := by
  rw [List.take_succ_eq_append_getElem hk, List.filterMap_append]
  cases h : pageOf lines[k] <;> simp [h]

theorem rounds_atLine (hshort : ∀ l ∈ lines.take k, l.val.length ≤ 2)
    (hexit : ∀ l ∈ lines.take k, asksExit l = false)
    (hdigits : ∀ l ∈ lines.take k, isDigit (l.val.headD 0) = true → l.val.all isDigit = true)
    (hk : k ≤ lines.length) : rounds stale (input lines) k = atLine lines k := by
  induction k with
  | zero => rfl
  | succ k ih =>
    have hk' : k < lines.length := hk
    have hsub : lines.take k ⊆ lines.take (k + 1) := (List.take_prefix_take_left (by omega)).subset
    have hmem : lines[k] ∈ lines.take (k + 1) := by
      rw [List.take_succ_eq_append_getElem hk']
      exact List.mem_append_right _ (List.mem_singleton_self _)
    rw [rounds, ih (fun l hl => hshort l (hsub hl)) (fun l hl => hexit l (hsub hl))
      (fun l hl => hdigits l (hsub hl)) hk'.le, atLine_round hk' (hshort _ hmem),
      (accessOf_lineNo_iff (hshort _ hmem) (hexit _ hmem)).mpr (hdigits _ hmem),
      ← take_succ_filterMap hk', decide_eq_false (lineNo_ne_exit (hshort _ hmem) (hexit _ hmem))]
    rfl

theorem rounds_exited (h : (rounds stale (input lines) k).exited = true) {j : ℕ} (hj : k ≤ j) :
    rounds stale (input lines) j = rounds stale (input lines) k := by
  induction j, hj using Nat.le_induction with
  | base => rfl
  | succ j hj ih => rw [rounds, ih, Session.round_exited h]

/-- A call at the end of the input. -/
theorem round_end {m : Session} (hm : m.exited = false) (hin : m.stdin = []) (stale : List Byte) :
    m.round stale =
      { stdin := []
        accesses := m.accesses ++ (accessOf (pageNo stale)).toList
        exited := decide (pageNo stale = EXIT_MEMRPLC) } :=
  Session.round_eq hm (by rw [hin]; rfl)

/-- The end of the input lasts, and the loop with it until the buffer asks for the end. -/
theorem rounds_end {n : ℕ} (hexit : (rounds stale (input lines) n).exited = false)
    (hin : (rounds stale (input lines) n).stdin = []) {j : ℕ} (hj : n ≤ j) :
    ((rounds stale (input lines) j).exited = false ↔
      ∀ i, n ≤ i → i < j → pageNo (stale i) ≠ EXIT_MEMRPLC) ∧
    ((rounds stale (input lines) j).exited = false →
      (rounds stale (input lines) j).stdin = []) := by
  induction j, hj using Nat.le_induction with
  | base => exact ⟨iff_of_true hexit fun i hi hlt => absurd hi (not_le.mpr hlt), fun _ => hin⟩
  | succ j hj ih =>
    cases h : (rounds stale (input lines) j).exited with
    | true =>
      have hsame : rounds stale (input lines) (j + 1) = rounds stale (input lines) j :=
        Session.round_exited h _
      have hno : ¬∀ i, n ≤ i → i < j → pageNo (stale i) ≠ EXIT_MEMRPLC :=
        fun hall => Bool.noConfusion ((ih.1.mpr hall).symm.trans h)
      rw [hsame, h]
      exact ⟨iff_of_false Bool.noConfusion fun hall => hno fun i hi hlt =>
        hall i hi (Nat.lt_succ_of_lt hlt), Bool.noConfusion⟩
    | false =>
      have hround := round_end h (ih.2 h) (stale j)
      rw [rounds, hround]
      refine ⟨?_, fun _ => rfl⟩
      rw [decide_eq_false_iff_not]
      constructor
      · intro hne i hi hlt
        rcases Nat.lt_succ_iff_lt_or_eq.mp hlt with hlt | rfl
        · exact ih.1.mp h i hi hlt
        · exact hne
      · exact fun hall => hall j hj (Nat.lt_succ_self j)

theorem not_asksExit (hl : l ∈ beforeExit lines) : asksExit l = false := by
  simpa using List.mem_takeWhile_imp hl

theorem beforeExit_eq_take (lines : List Line) :
    beforeExit lines = lines.take (beforeExit lines).length :=
  List.prefix_iff_eq_take.mp (prefix_lines lines)

theorem asksExit_at (h : (beforeExit lines).length < lines.length) :
    asksExit lines[(beforeExit lines).length] = true := by
  induction lines with
  | nil => exact absurd h (Nat.not_lt_zero _)
  | cons l lines ih =>
    cases hl : asksExit l with
    | true =>
      have hnil : beforeExit (l :: lines) = [] := by simp [beforeExit, hl]
      simp only [hnil, List.length_nil, List.getElem_cons_zero, hl]
    | false =>
      have hcons : beforeExit (l :: lines) = l :: beforeExit lines := by simp [beforeExit, hl]
      simp only [hcons, List.length_cons, List.getElem_cons_succ] at h ⊢
      exact ih (Nat.lt_of_succ_lt_succ h)

theorem length_beforeExit_le (lines : List Line) : (beforeExit lines).length ≤ lines.length :=
  (prefix_lines lines).length_le

theorem take_beforeExit (hk : k ≤ (beforeExit lines).length) :
    (beforeExit lines).take k = lines.take k := by
  rw [beforeExit_eq_take, List.take_take, Nat.min_eq_left hk]

/-! ### From the loop to the lines -/

/-- While lines are taken the loop goes on. -/
theorem DrivenByLines.not_exited (h : DrivenByLines stale lines) (hk : k < lines.length)
    (hp : k ≤ (beforeExit lines).length) : (rounds stale (input lines) k).exited = false := by
  refine Bool.eq_false_iff.mpr fun hexited => ?_
  have hnow := h.consumed k hk.le (by omega)
  have hnext := h.consumed (k + 1) hk (by omega)
  rw [rounds, Session.round_exited hexited, hnow, List.drop_eq_getElem_cons hk] at hnext
  have hlen := congrArg List.length hnext
  rw [length_input_cons] at hlen
  omega

theorem DrivenByLines.short (h : DrivenByLines stale lines) (hk : k < lines.length)
    (hp : k ≤ (beforeExit lines).length) : lines[k].val.length ≤ 2 := by
  by_contra hlong
  have hnow := h.consumed k hk.le (by omega)
  have hnext := h.consumed (k + 1) hk (by omega)
  rw [List.drop_eq_getElem_cons hk] at hnow
  have hlen := ask_long (Nat.lt_of_not_le hlong) (stale k) (lines.drop (k + 1))
  rw [← hnow] at hlen
  rw [rounds, Session.round_eq (h.not_exited hk hp) rfl] at hnext
  exact hlen.ne (congrArg List.length hnext.symm)

theorem DrivenByLines.digits (h : DrivenByLines stale lines)
    (hp : k < (beforeExit lines).length) (hk : k < lines.length) :
    isDigit (lines[k].val.headD 0) = true → lines[k].val.all isDigit = true := by
  have hshort := h.short hk hp.le
  have hmem : lines[k] ∈ beforeExit lines := by
    rw [beforeExit_eq_take, List.mem_take_iff_getElem]
    exact ⟨k, by omega, rfl⟩
  have hexit := not_asksExit hmem
  refine (accessOf_lineNo_iff hshort hexit).mp ?_
  have hask := ask_line hshort (stale k) (lines.drop (k + 1))
  rw [← List.drop_eq_getElem_cons hk, ← h.consumed k hk.le (by omega)] at hask
  have hnext := h.accesses (k + 1)
  rw [rounds, Session.round_eq (h.not_exited hk hp.le) hask, h.accesses k, take_beforeExit hp,
    take_beforeExit hp.le, take_succ_filterMap hk] at hnext
  have hlist := congrArg List.head? (List.append_cancel_left hnext)
  rwa [Option.head?_toList, Option.head?_toList] at hlist

theorem DrivenByLines.stale_harmless (h : DrivenByLines stale lines)
    (hend : rounds stale (input lines) lines.length = atLine lines lines.length)
    (hall : beforeExit lines = lines) : HarmlessAtEnd stale lines.length := by
  intro k hk hno
  have hexit : (rounds stale (input lines) lines.length).exited = false := by rw [hend]; rfl
  have hin : (rounds stale (input lines) lines.length).stdin = [] := by
    rw [hend, atLine, List.drop_length]
    rfl
  obtain ⟨hgoes, hstdin⟩ := rounds_end hexit hin hk
  have hexit := hgoes.mpr hno
  have hnext := h.accesses (k + 1)
  rw [rounds, round_end hexit (hstdin hexit), h.accesses k, hall,
    List.take_of_length_le hk, List.take_of_length_le (by omega)] at hnext
  rw [← accessOf_eq_none]
  exact Option.toList_eq_nil_iff.mp (List.append_right_eq_self.mp hnext)

/-! ### From the lines to the loop -/

theorem ShortLines.rounds_eq (h : ShortLines stale lines) (hk : k ≤ (beforeExit lines).length) :
    rounds stale (input lines) k = atLine lines k := by
  have hsub : ∀ l ∈ lines.take k, l ∈ beforeExit lines := by
    intro l hl
    rw [← take_beforeExit hk] at hl
    exact List.mem_of_mem_take hl
  refine rounds_atLine (fun l hl => h.short l ?_) (fun l hl => not_asksExit (hsub l hl))
    (fun l hl => h.digits l (hsub l hl)) (hk.trans (length_beforeExit_le lines))
  exact (List.take_prefix_take_left (by omega)).subset hl

theorem ShortLines.short_at (h : ShortLines stale lines)
    (hp : (beforeExit lines).length < lines.length) :
    lines[(beforeExit lines).length].val.length ≤ 2 := by
  refine h.short _ ?_
  rw [List.mem_take_iff_getElem]
  exact ⟨(beforeExit lines).length, by omega, rfl⟩

/-- The line that asks for the end ends the loop. -/
theorem ShortLines.rounds_exit (h : ShortLines stale lines)
    (hp : (beforeExit lines).length < lines.length) :
    rounds stale (input lines) ((beforeExit lines).length + 1) =
      { stdin := input (lines.drop ((beforeExit lines).length + 1))
        accesses := (beforeExit lines).filterMap pageOf
        exited := true } := by
  have hno : lineNo lines[(beforeExit lines).length] = EXIT_MEMRPLC :=
    lineNo_of_asksExit (asksExit_at hp)
  have hacc : accessOf EXIT_MEMRPLC = none := rfl
  rw [rounds, h.rounds_eq le_rfl, atLine_round hp (h.short_at hp), hno, hacc, Option.toList_none,
    List.append_nil, ← take_beforeExit le_rfl, List.take_length, decide_eq_true rfl]

/-- Nothing is accessed at the end of the input. -/
theorem ShortLines.accesses_end (h : ShortLines stale lines) (hall : beforeExit lines = lines)
    (hk : lines.length ≤ k) :
    (rounds stale (input lines) k).accesses = lines.filterMap pageOf := by
  have hend : rounds stale (input lines) lines.length = atLine lines lines.length :=
    h.rounds_eq (by rw [hall])
  have hexit : (rounds stale (input lines) lines.length).exited = false := by rw [hend]; rfl
  have hin : (rounds stale (input lines) lines.length).stdin = [] := by
    rw [hend, atLine, List.drop_length]
    rfl
  induction k, hk using Nat.le_induction with
  | base => rw [hend, atLine, List.take_length]
  | succ k hk ih =>
    cases hex : (rounds stale (input lines) k).exited with
    | true => rw [rounds, Session.round_exited hex, ih]
    | false =>
      obtain ⟨hgoes, hstdin⟩ := rounds_end hexit hin hk
      have hnone := accessOf_eq_none.mpr (h.stale hall k hk (hgoes.mp hex))
      rw [rounds, round_end hex (hstdin hex), ih, hnone, Option.toList_none, List.append_nil]

theorem ShortLines.consumed (h : ShortLines stale lines) (hk : k ≤ lines.length)
    (hp : k ≤ (beforeExit lines).length + 1) :
    (rounds stale (input lines) k).stdin = input (lines.drop k) := by
  rcases Nat.le_succ_iff.mp hp with hle | rfl
  · rw [h.rounds_eq hle]
    rfl
  · rw [h.rounds_exit hk]

theorem ShortLines.accesses (h : ShortLines stale lines) (k : ℕ) :
    (rounds stale (input lines) k).accesses = ((beforeExit lines).take k).filterMap pageOf := by
  by_cases hk : k ≤ (beforeExit lines).length
  · rw [h.rounds_eq hk, take_beforeExit hk]
    rfl
  · rw [List.take_of_length_le (Nat.le_of_not_le hk)]
    rcases (length_beforeExit_le lines).lt_or_eq with hp | hp
    · have hexit := h.rounds_exit hp
      rw [rounds_exited (by rw [hexit]) (Nat.lt_of_not_le hk), hexit]
    · have hall : beforeExit lines = lines := (prefix_lines lines).eq_of_length hp
      rw [h.accesses_end hall (by omega), hall]

theorem DrivenByLines.shortLines (h : DrivenByLines stale lines) : ShortLines stale lines := by
  have hshort : ∀ l ∈ lines.take ((beforeExit lines).length + 1), l.val.length ≤ 2 := by
    intro l hl
    rw [List.mem_take_iff_getElem] at hl
    obtain ⟨k, hk, rfl⟩ := hl
    exact h.short (by omega) (by omega)
  have hdigits : ∀ l ∈ beforeExit lines, isDigit (l.val.headD 0) = true →
      l.val.all isDigit = true := by
    intro l hl
    rw [beforeExit_eq_take, List.mem_take_iff_getElem] at hl
    obtain ⟨k, hk, rfl⟩ := hl
    exact h.digits (by omega) (by omega)
  refine ⟨hshort, hdigits, fun hall => h.stale_harmless ?_ hall⟩
  have hlines : ∀ l ∈ lines.take lines.length, l ∈ beforeExit lines := by
    intro l hl
    rw [hall]
    exact List.mem_of_mem_take hl
  refine rounds_atLine (fun l hl => hshort l ?_) (fun l hl => not_asksExit (hlines l hl))
    (fun l hl => hdigits l (hlines l hl)) le_rfl
  rw [hall]
  exact (List.take_prefix_take_left (Nat.le_succ _)).subset hl

/-- The lines drive the accesses exactly when they are short. -/
theorem drivenByLines_iff (stale : ℕ → List Byte) (lines : List Line) :
    DrivenByLines stale lines ↔ ShortLines stale lines :=
  ⟨DrivenByLines.shortLines, fun h => ⟨fun _ hk hp => h.consumed hk hp, h.accesses⟩⟩

/-- The second call for the line `1234` accesses page 4. -/
theorem not_drivenByLines_1234 :
    ¬DrivenByLines (fun _ => [0, 0, 0, 0]) [⟨[49, 50, 51, 52], by decide⟩] := by
  intro h
  exact absurd (h.accesses 2) (by decide)

end
end SyeLabs.Memreplace
