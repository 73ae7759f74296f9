import SyeLabs.Shell.Basic

/-!
# The shell splits short lines

Up to nine words, what the programs get are the words on either side of the first `|` and before
the `&`, if their names fit. With ten words there is no empty token that ends the loop of
`process_cmd`, and an `&` in front is taken for the name of a program.
-/

namespace SyeLabs.Shell
open Libc Arrays

/-! ## What the programs should get -/

section
variable (ws : List (List Byte))

/-- The words before the first `|` or `&`. -/
def leftWords : List (List Byte) := ws.takeWhile fun w => w ≠ bar && w ≠ ampersand

/-- The words behind the first `|` and before the `&`, if there is such a `|`. -/
def rightWords : Option (List (List Byte)) :=
  match ws.dropWhile fun w => w ≠ bar && w ≠ ampersand with
  | [] => none
  | w :: ws =>
    if w = bar then some ((ws.takeWhile fun w => w ≠ ampersand).filter fun w => w ≠ bar) else none

end

/-- The array is the list of the words with a NULL behind. -/
def Terminated (argv : Argv) (ws : List (List Byte)) : Prop :=
  Starts argv (ws.map Slot.arg ++ [.null])

/-- The words of the line. -/
def Line.words (l : Line) : List (List Byte) := SyeLabs.words (List.contains [32]) l.val

/-- The child gets to `execv` with these words, or there are none. -/
def Given : Option Exec → List (List Byte) → Prop
  | some image, ws => Terminated image.argv ws
  | none, ws => ws = []

/-- No index is out of range, and each program gets its words. -/
structure Splits (l : Line) : Prop where
  inRange : round l ≠ none
  single : ∀ child background, round l = some (.single child background) →
    Given child (leftWords l.words) ∧ rightWords l.words = none
  piped : ∀ left right background, round l = some (.piped left right background) →
    Given left (leftWords l.words) ∧ ∃ ws, rightWords l.words = some ws ∧ Given right ws

/-- The names of the commands of the shell itself. -/
def builtins : List (List Byte) :=
  ["dumpsched", "dumpproc", "exit", "setenv", "env", "kill"].map ascii

/-- The names of the programs. -/
def names (ws : List (List Byte)) : List (List Byte) :=
  (leftWords ws).head?.toList ++ ((rightWords ws).bind List.head?).toList

/-- Nine words at most, or ten of which one is an `&` or the first a command of the shell; the
first is no `&`; and names of programs have 25 characters at most. -/
structure Short (ws : List (List Byte)) : Prop where
  length : ws.length < TOKEN_NR ∨ ws.length = TOKEN_NR ∧
    (ampersand ∈ ws ∨ ∃ w ∈ builtins, ws.head? = some w)
  head : ws.head? ≠ some ampersand
  names : (∃ w ∈ builtins, ws.head? = some w) ∨ ∀ w ∈ names ws, w.length ≤ 25

/-! ## The tokens -/

section
variable {ws : List (List Byte)} {w : List Byte} {str : List Byte}

/-- The rows with some words in front. -/
def filled (ws : List (List Byte)) : Tokens := .ofFn fun i => ws[i.val]?.getD []

theorem filled_nil : filled [] = .replicate TOKEN_NR [] := by
  apply Vector.ext
  simp [filled]

theorem filled_snoc (h : ws.length < TOKEN_NR) (w : List Byte) :
    (filled ws).set ws.length w = filled (ws ++ [w]) := by
  apply Vector.ext
  intro i hi
  rw [Vector.getElem_set]
  split
  · next heq => simp [filled, ← heq]
  · next hne =>
    rcases lt_or_gt_of_ne hne with hlt | hgt
    · have hnone : ws[i]? = none := List.getElem?_eq_none hlt.le
      have hnone' : (ws ++ [w])[i]? = none := List.getElem?_eq_none (by simp; omega)
      simp [filled, hnone, hnone']
    · simp [filled, List.getElem?_append_left hgt]

theorem toList_filled (h : ws.length ≤ TOKEN_NR) :
    (filled ws).toList = ws ++ .replicate (TOKEN_NR - ws.length) [] := by
  apply List.ext_getElem
  · simp; omega
  · intro i hi hi'
    simp only [filled, Vector.getElem_toList, Vector.getElem_ofFn]
    by_cases h : i < ws.length
    · rw [List.getElem_append_left h, List.getElem?_eq_getElem h, Option.getD_some]
    · rw [List.getElem_append_right (Nat.le_of_not_lt h), List.getElem_replicate,
        List.getElem?_eq_none (Nat.le_of_not_lt h), Option.getD_none]

theorem filled_zero (w : List Byte) (ws : List (List Byte)) : (filled (w :: ws))[0] = w := by
  simp [filled]

theorem parseLoop_eq (hws : ws.length ≤ TOKEN_NR) (hstr : str.length < ROW_SIZE) :
    parseLoop str ws.length (filled ws) =
      if (ws ++ words (List.contains [32]) str).length ≤ TOKEN_NR then
        some (filled (ws ++ words (List.contains [32]) str))
      else none := by
  induction hn : str.length using Nat.strong_induction_on generalizing str ws with
  | _ n ih =>
    rw [parseLoop]
    split
    · next h =>
      rw [strtok_eq_none h, List.append_nil, if_pos hws]
    · next next_token rest h =>
      obtain ⟨hwords, htoken, hrest⟩ := strtok_eq_some h
      rw [hwords, Tokens.strcpy, if_pos (htoken.trans_lt hstr)]
      by_cases hlt : ws.length < TOKEN_NR
      · have hsnoc : (ws ++ [next_token]).length ≤ TOKEN_NR := by simpa using hlt
        have hnext := ih rest.length (hn ▸ hrest) hsnoc (hrest.trans hstr) rfl
        rw [assign_eq hlt, filled_snoc hlt]
        rw [List.length_append, List.length_singleton, List.append_assoc] at hnext
        exact hnext
      · rw [assign_eq_none (Nat.le_of_not_lt hlt), if_neg (by simp; omega)]
        rfl

/-- Eleven words do not fit in `tokens`. -/
theorem parse_token_eq (l : Line) :
    parse_token l.val (.replicate TOKEN_NR []) =
      if l.words.length ≤ TOKEN_NR then some (filled l.words) else none := by
  rw [← filled_nil]
  have hstart : ([] : List (List Byte)).length ≤ TOKEN_NR := Nat.zero_le _
  exact parseLoop_eq hstart (Nat.lt_succ_of_le l.property.1)

theorem ne_nil_of_mem_words {l : Line} (h : w ∈ l.words) : w ≠ [] := by
  rintro rfl
  simp [Line.words, words] at h

end

/-! ## The arguments -/

section
variable {ws rest : List (List Byte)} {w : List Byte} {a : Args}

/-- What the words have been split into. -/
structure Parts where
  left : List (List Byte) := []
  right : Option (List (List Byte)) := none

def Parts.add (p : Parts) (w : List Byte) : Parts :=
  match p.right with
  | none => if w = bar then { p with right := some [] } else { p with left := p.left ++ [w] }
  | some ws => if w = bar then p else { p with right := some (ws ++ [w]) }

theorem Args.add_bar (h : a.arg_pos < ARGS_MAX) : a.add bar = some { a with
    pipe_on := true, argv := a.argv.set a.arg_pos .null, arg_pos := a.arg_pos + 1 } := by
  rw [Args.add, if_pos rfl, assign_eq h]
  rfl

theorem Args.add_left (hw : w ≠ bar) (hpipe : a.pipe_on = false) (h : a.arg_pos < ARGS_MAX) :
    a.add w = some { a with
      argv := a.argv.set a.arg_pos (.arg w), arg_pos := a.arg_pos + 1 } := by
  rw [Args.add, if_neg hw, hpipe, if_neg Bool.false_ne_true, assign_eq h]
  rfl

theorem Args.add_right (hw : w ≠ bar) (hpipe : a.pipe_on = true) (h : a.arg_pos2 < ARGS_MAX) :
    a.add w = some { a with
      argv2 := a.argv2.set a.arg_pos2 (.arg w), arg_pos2 := a.arg_pos2 + 1
      arg_pos := a.arg_pos + 1 } := by
  rw [Args.add, if_neg hw, hpipe, if_pos rfl, assign_eq h]
  rfl

/-- There is no pipe yet. -/
structure BuiltLeft (left : List (List Byte)) (a : Args) : Prop where
  pipe_on : a.pipe_on = false
  argv : Starts a.argv (left.map Slot.arg)
  arg_pos : a.arg_pos = left.length
  arg_pos2 : a.arg_pos2 = 0

/-- The arguments of the first program are complete. -/
structure BuiltRight (left right : List (List Byte)) (a : Args) : Prop where
  pipe_on : a.pipe_on = true
  argv : Terminated a.argv left
  arg_pos : left.length < a.arg_pos
  argv2 : Starts a.argv2 (right.map Slot.arg)
  arg_pos2 : a.arg_pos2 = right.length
  le : right.length ≤ a.arg_pos

theorem BuiltLeft.length {left : List (List Byte)} (B : BuiltLeft left a) :
    a.arg_pos = (left.map Slot.arg).length := by rw [List.length_map, B.arg_pos]

theorem BuiltRight.length {left right : List (List Byte)} (B : BuiltRight left right a) :
    a.arg_pos2 = (right.map Slot.arg).length := by rw [List.length_map, B.arg_pos2]

theorem BuiltRight.pos2_lt {left right : List (List Byte)} (B : BuiltRight left right a)
    (hpos : a.arg_pos < ARGS_MAX) : a.arg_pos2 < ARGS_MAX :=
  B.arg_pos2 ▸ B.le.trans_lt hpos

/-- The arrays hold the parts. -/
def Built (p : Parts) (a : Args) : Prop :=
  match p.right with
  | none => BuiltLeft p.left a
  | some right => BuiltRight p.left right a

theorem BuiltLeft.add {left : List (List Byte)} (B : BuiltLeft left a) (hw : w ≠ bar)
    (hpos : a.arg_pos < ARGS_MAX) :
    ∃ a', a.add w = some a' ∧ a'.arg_pos = a.arg_pos + 1 ∧
      BuiltLeft (left ++ [w]) a' := by
  refine ⟨_, Args.add_left hw B.pipe_on hpos, rfl, B.pipe_on, ?_, ?_, B.arg_pos2⟩
  · rw [List.map_append]
    exact B.argv.snoc B.length hpos _
  · simp only [B.arg_pos, List.length_append, List.length_singleton]

theorem BuiltLeft.bar {left : List (List Byte)} (B : BuiltLeft left a)
    (hpos : a.arg_pos < ARGS_MAX) :
    ∃ a', a.add bar = some a' ∧ a'.arg_pos = a.arg_pos + 1 ∧
      BuiltRight left [] a' := by
  refine ⟨_, Args.add_bar hpos, rfl, rfl, ?_, ?_, .nil _, B.arg_pos2, Nat.zero_le _⟩
  · exact B.argv.snoc B.length hpos _
  · exact Nat.lt_succ_of_le B.arg_pos.ge

theorem BuiltRight.add {left right : List (List Byte)} (B : BuiltRight left right a)
    (hw : w ≠ bar) (hpos : a.arg_pos < ARGS_MAX) :
    ∃ a', a.add w = some a' ∧ a'.arg_pos = a.arg_pos + 1 ∧
      BuiltRight left (right ++ [w]) a' := by
  refine ⟨_, Args.add_right hw B.pipe_on (B.pos2_lt hpos), rfl, B.pipe_on, B.argv,
    Nat.lt_succ_of_lt B.arg_pos, ?_, ?_, ?_⟩
  · rw [List.map_append]
    exact B.argv2.snoc B.length (B.pos2_lt hpos) _
  · simp only [B.arg_pos2, List.length_append, List.length_singleton]
  · rw [List.length_append, List.length_singleton]
    exact Nat.succ_le_succ B.le

/-- Another `|` only takes a slot of `argv` that is behind the NULL. -/
theorem BuiltRight.bar {left right : List (List Byte)} (B : BuiltRight left right a)
    (hpos : a.arg_pos < ARGS_MAX) :
    ∃ a', a.add bar = some a' ∧ a'.arg_pos = a.arg_pos + 1 ∧
      BuiltRight left right a' := by
  refine ⟨_, Args.add_bar hpos, rfl, rfl, ?_, Nat.lt_succ_of_lt B.arg_pos, B.argv2,
    B.arg_pos2, Nat.le_succ_of_le B.le⟩
  exact B.argv.set_of_le (by simpa using B.arg_pos) hpos _

theorem Built.add {p : Parts} (B : Built p a) (hpos : a.arg_pos < ARGS_MAX) (w : List Byte) :
    ∃ a', a.add w = some a' ∧ a'.arg_pos = a.arg_pos + 1 ∧
      Built (p.add w) a' := by
  obtain ⟨left, _ | right⟩ := p
  · by_cases hw : w = Shell.bar
    · subst hw
      exact BuiltLeft.bar B hpos
    · simp only [Parts.add, hw, if_false]
      exact BuiltLeft.add B hw hpos
  · by_cases hw : w = Shell.bar
    · subst hw
      exact BuiltRight.bar B hpos
    · simp only [Parts.add, hw, if_false]
      exact BuiltRight.add B hw hpos

/-- The words before the `&` are added. -/
theorem Built.loop {p : Parts} (B : Built p a) (hpos : a.arg_pos + ws.length ≤ ARGS_MAX)
    (hws : ∀ w ∈ ws, w ≠ [] ∧ w ≠ ampersand) (rows : List (List Byte)) :
    ∃ a', argLoop (ws ++ rows) a = argLoop rows a' ∧ a'.arg_pos = a.arg_pos + ws.length ∧
      Built (ws.foldl Parts.add p) a' := by
  induction ws generalizing p a with
  | nil => exact ⟨a, rfl, rfl, B⟩
  | cons w ws ih =>
    obtain ⟨hw, hws⟩ := List.forall_mem_cons.mp hws
    rw [List.length_cons] at hpos
    obtain ⟨a₁, hadd, hpos₁, B₁⟩ := B.add (by omega) w
    obtain ⟨a₂, hloop, hpos₂, B₂⟩ := ih B₁ (by omega) hws
    refine ⟨a₂, ?_, by rw [hpos₂, hpos₁, List.length_cons]; omega, B₂⟩
    rw [List.cons_append, argLoop, if_neg hw.1, if_neg hw.2, hadd]
    exact hloop

theorem Built.terminate {p : Parts} (B : Built p a) (hpos : a.arg_pos < ARGS_MAX) :
    ∃ a', a.terminate = some a' ∧ a'.pipe_on = p.right.isSome ∧ Terminated a'.argv p.left ∧
      ∀ right, p.right = some right → Terminated a'.argv2 right := by
  obtain ⟨left, _ | right⟩ := p
  · have B : BuiltLeft left a := B
    refine ⟨{ a with argv := a.argv.set a.arg_pos .null }, ?_, B.pipe_on,
      B.argv.snoc B.length hpos _, fun right h => absurd h.symm (Option.some_ne_none right)⟩
    rw [Args.terminate, B.pipe_on, if_neg Bool.false_ne_true, assign_eq hpos]
    rfl
  · have B : BuiltRight left right a := B
    have hpos2 := B.pos2_lt hpos
    refine ⟨{ a with argv2 := a.argv2.set a.arg_pos2 .null }, ?_, B.pipe_on, B.argv, ?_⟩
    · rw [Args.terminate, B.pipe_on, if_pos rfl, assign_eq hpos2]
      rfl
    · rintro _ ⟨⟩
      exact B.argv2.snoc B.length hpos2 _

/-! ## The parts of a line -/

theorem foldl_add_right (left right ws : List (List Byte)) :
    ws.foldl Parts.add ⟨left, some right⟩ = ⟨left, some (right ++ ws.filter fun w => w ≠ bar)⟩ := by
  induction ws generalizing right with
  | nil => simp
  | cons w ws ih =>
    by_cases hw : w = bar
    · simp [Parts.add, hw, ih]
    · simp [Parts.add, hw, ih]

/-- The parts of the words before the `&`. -/
theorem foldl_add_eq (left ws : List (List Byte)) :
    (ws.takeWhile fun w => w ≠ ampersand).foldl Parts.add ⟨left, none⟩ =
      ⟨left ++ leftWords ws, rightWords ws⟩ := by
  induction ws generalizing left with
  | nil => simp [leftWords, rightWords]
  | cons w ws ih =>
    by_cases hamp : w = ampersand
    · have hbar : ampersand ≠ bar := by decide
      simp [leftWords, rightWords, hamp, hbar]
    · by_cases hbar : w = bar
      · have hne : bar ≠ ampersand := by decide
        simp [leftWords, rightWords, Parts.add, hbar, hne, foldl_add_right]
      · have hleft : leftWords (w :: ws) = w :: leftWords ws := by simp [leftWords, hamp, hbar]
        have hright : rightWords (w :: ws) = rightWords ws := by simp [rightWords, hamp, hbar]
        have hadd : Parts.add ⟨left, none⟩ w = ⟨left ++ [w], none⟩ := if_neg hbar
        rw [List.takeWhile_cons_of_pos (by simpa using hamp), List.foldl_cons, hadd, ih, hleft,
          hright, List.append_assoc]
        rfl

theorem leftWords_eq_nil (hne : ws ≠ []) (hright : rightWords ws = none) :
    leftWords ws = [] ↔ ws.head? = some ampersand := by
  obtain ⟨w, ws, rfl⟩ := List.exists_cons_of_ne_nil hne
  by_cases hamp : w = ampersand
  · simp [leftWords, hamp]
  · by_cases hbar : w = bar
    · have hne : bar ≠ ampersand := by decide
      simp [rightWords, hbar, hne] at hright
    · simp [leftWords, hamp, hbar]

/-- The first word is the first of the first program. -/
theorem leftWords_cons {w₁ : List Byte} (h : leftWords (w :: ws) = w₁ :: rest) : w₁ = w := by
  rw [leftWords, List.takeWhile_cons] at h
  split at h
  · exact (List.cons.inj h).1.symm
  · exact absurd h.symm (List.cons_ne_nil _ _)

end

/-! ## The launch -/

section
variable {ws : List (List Byte)}

theorem Built.initial : Built {} {} := ⟨rfl, .nil _, rfl, rfl⟩

theorem Built.set_background {p : Parts} {a : Args} (B : Built p a) (background : Bool) :
    Built p { a with background } := by
  obtain ⟨left, _ | right⟩ := p
  · obtain ⟨hpipe, hargv, hpos, hpos2⟩ : BuiltLeft left a := B
    exact show BuiltLeft left _ from ⟨hpipe, hargv, hpos, hpos2⟩
  · obtain ⟨hpipe, hargv, hpos, hargv2, hpos2, hle⟩ : BuiltRight left right a := B
    exact show BuiltRight left right _ from ⟨hpipe, hargv, hpos, hargv2, hpos2, hle⟩

/-- Nothing ends the loop when all tokens are words. -/
theorem argLoop_full (hlen : ws.length = TOKEN_NR) (hws : ∀ w ∈ ws, w ≠ [])
    (hamp : ampersand ∉ ws) : argLoop (filled ws).toList {} = none := by
  have hrows : (filled ws).toList = ws ++ [] := by
    rw [toList_filled hlen.le, hlen, Nat.sub_self]
    rfl
  have hnot : ∀ w ∈ ws, w ≠ [] ∧ w ≠ ampersand :=
    fun w hw => ⟨hws w hw, fun h => hamp (h ▸ hw)⟩
  obtain ⟨a, hloop, -⟩ := Built.initial.loop (by rw [hlen]; decide) hnot []
  rw [hrows, hloop, argLoop]

/-- The loop ends at an `&` or at an empty token. -/
theorem argLoop_filled (hlen : ws.length ≤ TOKEN_NR) (hws : ∀ w ∈ ws, w ≠ [])
    (hend : ws.length < TOKEN_NR ∨ ampersand ∈ ws) :
    ∃ a, argLoop (filled ws).toList {} = some a ∧ a.arg_pos < ARGS_MAX ∧
      Built ⟨leftWords ws, rightWords ws⟩ a := by
  let before := ws.takeWhile fun w => w ≠ ampersand
  have hbefore : ∀ w ∈ before, w ≠ [] ∧ w ≠ ampersand := fun w hw =>
    ⟨hws w ((List.takeWhile_sublist _).subset hw), by simpa using List.mem_takeWhile_imp hw⟩
  have hle : before.length ≤ TOKEN_NR := (List.takeWhile_sublist _).length_le.trans hlen
  have hmax : TOKEN_NR < ARGS_MAX := by decide
  have hrows : (filled ws).toList = before ++ ((ws.dropWhile fun w => w ≠ ampersand) ++
      .replicate (TOKEN_NR - ws.length) []) := by
    rw [toList_filled hlen, ← List.append_assoc, List.takeWhile_append_dropWhile]
  obtain ⟨a, hloop, hpos, B⟩ := Built.initial.loop
    ((Nat.zero_add _).trans_le (hle.trans hmax.le)) hbefore
    ((ws.dropWhile fun w => w ≠ ampersand) ++ .replicate (TOKEN_NR - ws.length) [])
  have hpos' : a.arg_pos < ARGS_MAX := hpos ▸ (Nat.zero_add _).trans_lt (hle.trans_lt hmax)
  rw [foldl_add_eq, List.nil_append] at B
  rw [hrows, hloop]
  cases hdrop : ws.dropWhile fun w => w ≠ ampersand with
  | nil =>
    have hnot : ampersand ∉ ws := fun h => by
      simpa using List.dropWhile_eq_nil_iff.mp hdrop ampersand h
    obtain ⟨k, hk⟩ := Nat.exists_eq_succ_of_ne_zero
      (Nat.sub_ne_zero_of_lt (hend.resolve_right hnot))
    rw [hk]
    exact ⟨a, rfl, hpos', B⟩
  | cons w rest =>
    have hw : w = ampersand := by simpa using not_sep_of_dropWhile hdrop
    subst hw
    exact ⟨{ a with background := true }, rfl, hpos', B.set_background true⟩

theorem builtin_eq_none_iff (tokens : Tokens) :
    builtin tokens = none ↔ tokens[0] ∉ builtins := by
  unfold builtin builtins
  split_ifs with h₁ h₂ h₃ h₄ h₅ h₆ <;> simp [*]

theorem filenameOf_eq_none_iff (w : List Byte) : filenameOf w = none ↔ ¬w.length ≤ 25 := by
  have hlen : (w ++ ascii ".elf").length = w.length + 4 := List.length_append
  rw [filenameOf, hlen, FILENAME_SIZE, ite_eq_right_iff]
  simp only [Option.some_ne_none, imp_false, not_lt, not_le]
  omega

/-- A child with a pipe gets its words if its name fits. -/
theorem execPiped_given_iff {argv : Argv} (h : Terminated argv ws) :
    Given (execPiped argv) ws ↔ ∀ w, ws.head? = some w → w.length ≤ 25 := by
  cases ws with
  | nil =>
    have hnull : argv[0] = .null := Starts.getElem_zero h (by decide)
    rw [execPiped, hnull]
    exact ⟨fun _ w hw => absurd hw nofun, fun _ => rfl⟩
  | cons w ws =>
    have harg : argv[0] = .arg w := Starts.getElem_zero h (by decide)
    rw [execPiped, harg]
    simp only [List.head?_cons, Option.some.injEq, forall_eq']
    cases hname : filenameOf w with
    | none => exact iff_of_false (List.cons_ne_nil w ws) ((filenameOf_eq_none_iff w).mp hname)
    | some filename =>
      have hfits : w.length ≤ 25 :=
        not_not.mp fun hlong => by simp [(filenameOf_eq_none_iff w).mpr hlong] at hname
      exact iff_of_true h hfits

/-- The child without a pipe; its first argument is written once more. -/
theorem execSingle_given_iff {argv : Argv} {tokens : Tokens} {w : List Byte}
    (h : Terminated argv (w :: ws)) (hw : tokens[0] = w) :
    Given (execSingle tokens argv) (w :: ws) ↔ w.length ≤ 25 := by
  rw [execSingle, hw, assign_eq (by decide)]
  cases hname : filenameOf w with
  | none => exact iff_of_false (List.cons_ne_nil w ws) ((filenameOf_eq_none_iff w).mp hname)
  | some filename =>
    have hfits : w.length ≤ 25 :=
      not_not.mp fun hlong => by simp [(filenameOf_eq_none_iff w).mpr hlong] at hname
    exact iff_of_true (Starts.set_head h (by decide)) hfits

/-- Two programs. -/
theorem launch_piped (hlen : ws.length ≤ TOKEN_NR) (hws : ∀ w ∈ ws, w ≠ [])
    (hend : ws.length < TOKEN_NR ∨ ampersand ∈ ws) {right : List (List Byte)}
    (hright : rightWords ws = some right) :
    ∃ argv argv2 background, Terminated argv (leftWords ws) ∧ Terminated argv2 right ∧
      launch (filled ws) = some (.piped (execPiped argv) (execPiped argv2) background) := by
  obtain ⟨a, hloop, hpos, B⟩ := argLoop_filled hlen hws hend
  obtain ⟨a', hterm, hpipe, hleft, hright'⟩ := B.terminate hpos
  refine ⟨a'.argv, a'.argv2, a'.background, hleft, hright' right hright, ?_⟩
  have hon : a'.pipe_on = true := by rw [hpipe, hright]; rfl
  rw [launch, hloop, Option.bind_eq_bind, Option.bind_some, hterm, Option.bind_some, if_pos hon]
  rfl

/-- One program. -/
theorem launch_single (hlen : ws.length ≤ TOKEN_NR) (hws : ∀ w ∈ ws, w ≠ [])
    (hend : ws.length < TOKEN_NR ∨ ampersand ∈ ws) (hright : rightWords ws = none) :
    ∃ argv background, Terminated argv (leftWords ws) ∧
      launch (filled ws) = some (.single (execSingle (filled ws) argv) background) := by
  obtain ⟨a, hloop, hpos, B⟩ := argLoop_filled hlen hws hend
  obtain ⟨a', hterm, hpipe, hleft, -⟩ := B.terminate hpos
  refine ⟨a'.argv, a'.background, hleft, ?_⟩
  have hoff : ¬a'.pipe_on = true := by rw [hpipe, hright]; exact Bool.false_ne_true
  rw [launch, hloop, Option.bind_eq_bind, Option.bind_some, hterm, Option.bind_some, if_neg hoff]
  rfl

/-- A round with at most ten words. -/
theorem round_eq {l : Line} {w : List Byte} (hwords : l.words = w :: ws)
    (hlen : l.words.length ≤ TOKEN_NR) : round l = process_cmd (filled (w :: ws)) := by
  have hne : l.val ≠ [] := by
    intro hnil
    rw [Line.words, hnil, words_nil] at hwords
    exact absurd hwords.symm (List.cons_ne_nil _ _)
  have hw : w ≠ [] := ne_nil_of_mem_words (hwords ▸ List.mem_cons_self)
  rw [round, if_pos hne, parse_token_eq, if_pos hlen, hwords]
  change (if (filled (w :: ws))[0] ≠ [] then _ else _) = _
  rw [filled_zero, if_pos hw]

/-- The eleventh word is written behind the tokens. -/
theorem round_of_lt {l : Line} (hlen : TOKEN_NR < l.words.length) : round l = none := by
  have hne : l.val ≠ [] := by
    intro hnil
    rw [Line.words, hnil, words_nil] at hlen
    exact absurd hlen (Nat.not_lt_zero _)
  rw [round, if_pos hne, parse_token_eq, if_neg (Nat.not_le_of_lt hlen)]
  rfl

/-- A line of spaces. -/
theorem round_nil {l : Line} (hwords : l.words = []) : round l = some .idle := by
  by_cases hl : l.val = []
  · rw [round, if_neg (not_not.mpr hl)]
    rfl
  · have hlen : l.words.length ≤ TOKEN_NR := hwords ▸ Nat.zero_le _
    rw [round, if_pos hl, parse_token_eq, if_pos hlen, hwords]
    rfl

/-! ## The whole round -/

theorem process_cmd_launch {w : List Byte} (hw : w ∉ builtins) :
    process_cmd (filled (w :: ws)) = launch (filled (w :: ws)) := by
  rw [process_cmd, (builtin_eq_none_iff _).mpr (by rwa [filled_zero])]

/-- With ten words the loop goes behind the tokens, unless an `&` ends it. -/
theorem round_full {l : Line} (hlen : l.words.length = TOKEN_NR) (hamp : ampersand ∉ l.words)
    (hhead : ∀ w ∈ builtins, l.words.head? ≠ some w) : round l = none := by
  obtain ⟨w, ws, hwords⟩ := List.exists_cons_of_length_pos
    (show 0 < l.words.length by rw [hlen]; decide)
  have hw : w ∉ builtins := fun h => hhead w h (by rw [hwords]; rfl)
  have hne : ∀ b ∈ w :: ws, b ≠ [] := fun b hb => ne_nil_of_mem_words (hwords ▸ hb)
  rw [round_eq hwords hlen.le, process_cmd_launch hw, launch,
    argLoop_full (hwords ▸ hlen) hne (hwords ▸ hamp)]
  rfl

theorem Splits.length_le {l : Line} (S : Splits l) : l.words.length ≤ TOKEN_NR := by
  by_contra hlen
  exact S.inRange (round_of_lt (Nat.lt_of_not_le hlen))

theorem Splits.full {l : Line} (S : Splits l) (hlen : l.words.length = TOKEN_NR) :
    ampersand ∈ l.words ∨ ∃ w ∈ builtins, l.words.head? = some w := by
  by_contra hnot
  obtain ⟨hamp, hhead⟩ := not_or.mp hnot
  exact S.inRange (round_full hlen hamp fun w hw h => hhead ⟨w, hw, h⟩)

/-- An `&` in front becomes the first argument of a program of no words. -/
theorem not_splits_of_head {l : Line} (hlen : l.words.length ≤ TOKEN_NR)
    (hhead : l.words.head? = some ampersand) : ¬Splits l := by
  intro S
  obtain ⟨ws, hwords⟩ : ∃ ws, l.words = ampersand :: ws := List.head?_eq_some_iff.mp hhead
  have hne : ∀ b ∈ ampersand :: ws, b ≠ [] := fun b hb => ne_nil_of_mem_words (hwords ▸ hb)
  have hleft : leftWords (ampersand :: ws) = [] := by simp [leftWords]
  have hright : rightWords (ampersand :: ws) = none := by
    have hbar : ampersand ≠ bar := by decide
    simp [rightWords, hbar]
  obtain ⟨argv, background, -, hlaunch⟩ :=
    launch_single (hwords ▸ hlen) hne (.inr List.mem_cons_self) hright
  rw [← process_cmd_launch (by decide), ← round_eq hwords hlen] at hlaunch
  have hgiven := (S.single _ background hlaunch).1
  have hname : filenameOf ampersand = some (ascii "&.elf") := by decide
  rw [hwords, hleft, execSingle, filled_zero, hname, assign_eq (by decide)] at hgiven
  have hterm : Terminated (argv.set 0 (.arg ampersand) (by decide)) [] := hgiven
  have hnull := Starts.getElem_zero hterm (by decide)
  rw [Vector.getElem_set_self] at hnull
  exact Slot.noConfusion hnull

/-- A round that starts no program. -/
theorem splits_of_idle {l : Line} {o : Outcome} (hround : round l = some o)
    (hsingle : ∀ child background, o ≠ .single child background)
    (hpiped : ∀ left right background, o ≠ .piped left right background) : Splits l where
  inRange := hround ▸ Option.some_ne_none _
  single := fun child background h =>
    absurd (Option.some.inj (hround.symm.trans h)) (hsingle child background)
  piped := fun left right background h =>
    absurd (Option.some.inj (hround.symm.trans h)) (hpiped left right background)

theorem splits_of_single {l : Line} {child : Option Exec} {background : Bool}
    (hround : round l = some (.single child background))
    (hgiven : Given child (leftWords l.words)) (hright : rightWords l.words = none) :
    Splits l where
  inRange := hround ▸ Option.some_ne_none _
  single := by
    intro child' background' h
    obtain ⟨rfl, rfl⟩ := Outcome.single.inj (Option.some.inj (hround.symm.trans h))
    exact ⟨hgiven, hright⟩
  piped := fun left right background h =>
    Outcome.noConfusion (Option.some.inj (hround.symm.trans h))

theorem splits_of_piped {l : Line} {left right : Option Exec} {ws : List (List Byte)}
    {background : Bool} (hround : round l = some (.piped left right background))
    (hleft : Given left (leftWords l.words)) (hwords : rightWords l.words = some ws)
    (hright : Given right ws) : Splits l where
  inRange := hround ▸ Option.some_ne_none _
  single := fun child background h =>
    Outcome.noConfusion (Option.some.inj (hround.symm.trans h))
  piped := by
    intro left' right' background' h
    obtain ⟨rfl, rfl, rfl⟩ := Outcome.piped.inj (Option.some.inj (hround.symm.trans h))
    exact ⟨hleft, ws, hwords, hright⟩

/-- Words that start programs are split if the names fit. -/
theorem splits_iff_names {l : Line} {w : List Byte} (hwords : l.words = w :: ws)
    (hlen : l.words.length ≤ TOKEN_NR) (hw : w ∉ builtins)
    (hend : l.words.length < TOKEN_NR ∨ ampersand ∈ l.words)
    (hhead : l.words.head? ≠ some ampersand) :
    Splits l ↔ ∀ name ∈ names l.words, name.length ≤ 25 := by
  have hne : ∀ b ∈ l.words, b ≠ [] := fun b hb => ne_nil_of_mem_words hb
  have hround := round_eq hwords hlen
  rw [process_cmd_launch hw, ← hwords] at hround
  cases hright : rightWords l.words with
  | none =>
    obtain ⟨argv, background, hargv, hlaunch⟩ := launch_single hlen hne hend hright
    have hne' : leftWords l.words ≠ [] := fun h =>
      hhead ((leftWords_eq_nil (hwords ▸ List.cons_ne_nil w ws) hright).mp h)
    obtain ⟨w₁, rest, hleft⟩ := List.exists_cons_of_ne_nil hne'
    have hzero : (filled l.words)[0] = w₁ := by
      rw [hwords] at hleft ⊢
      rw [filled_zero, leftWords_cons hleft]
    have hgiven := execSingle_given_iff (hleft ▸ hargv) hzero
    have hnames : names l.words = [w₁] := by simp [names, hleft, hright]
    rw [hnames, List.forall_mem_singleton, ← hgiven, ← hleft]
    refine ⟨fun S => (S.single _ background (hround.trans hlaunch)).1, fun h => ?_⟩
    exact splits_of_single (hround.trans hlaunch) h hright
  | some right =>
    obtain ⟨argv, argv2, background, hargv, hargv2, hlaunch⟩ := launch_piped hlen hne hend hright
    have hnames : (∀ name ∈ names l.words, name.length ≤ 25) ↔
        Given (execPiped argv) (leftWords l.words) ∧ Given (execPiped argv2) right := by
      rw [execPiped_given_iff hargv, execPiped_given_iff hargv2, names, hright, Option.bind_some,
        List.forall_mem_append]
      simp only [Option.mem_toList]
    rw [hnames]
    refine ⟨fun S => ?_, fun h => ?_⟩
    · obtain ⟨hgiven, ws', hws', hgiven'⟩ := S.piped _ _ background (hround.trans hlaunch)
      obtain rfl := Option.some.inj (hright.symm.trans hws')
      exact ⟨hgiven, hgiven'⟩
    · exact splits_of_piped (hround.trans hlaunch) h.1 hright h.2

/-- A command of the shell itself starts no program. -/
theorem splits_of_builtin {l : Line} {w : List Byte} (hwords : l.words = w :: ws)
    (hlen : l.words.length ≤ TOKEN_NR) (hw : w ∈ builtins) : Splits l := by
  have hround := round_eq hwords hlen
  have hsome : builtin (filled (w :: ws)) ≠ none := by
    rwa [Ne, builtin_eq_none_iff, not_not, filled_zero]
  obtain ⟨call, hcall⟩ := Option.ne_none_iff_exists'.mp hsome
  rw [process_cmd, hcall] at hround
  exact splits_of_idle hround (fun _ _ h => Outcome.noConfusion h)
    fun _ _ _ h => Outcome.noConfusion h

/-- Without an `&` in front and with no index out of range, what matters are the names. -/
theorem splits_iff_of_length {l : Line} (hlen : l.words.length ≤ TOKEN_NR)
    (hhead : l.words.head? ≠ some ampersand)
    (hend : l.words.length < TOKEN_NR ∨ l.words.length = TOKEN_NR ∧
      (ampersand ∈ l.words ∨ ∃ w ∈ builtins, l.words.head? = some w)) :
    Splits l ↔ (∃ w ∈ builtins, l.words.head? = some w) ∨
      ∀ name ∈ names l.words, name.length ≤ 25 := by
  cases hwords : l.words with
  | nil =>
    refine iff_of_true ?_ (.inr fun name h => absurd h List.not_mem_nil)
    exact splits_of_idle (round_nil hwords) (fun _ _ h => Outcome.noConfusion h)
      fun _ _ _ h => Outcome.noConfusion h
  | cons w ws =>
    by_cases hw : w ∈ builtins
    · exact iff_of_true (splits_of_builtin hwords hlen hw) (.inl ⟨w, hw, rfl⟩)
    · have hnot : ¬∃ b ∈ builtins, (w :: ws).head? = some b := by
        rintro ⟨b, hb, ⟨⟩⟩
        exact hw hb
      rw [hwords] at hend
      have hend' := hend.imp_right fun h => h.2.resolve_right hnot
      rw [← hwords] at hend'
      rw [or_iff_right hnot, ← hwords]
      exact splits_iff_names hwords hlen hw hend' hhead

/-- The shell splits exactly the short lines. -/
theorem splits_iff (l : Line) : Splits l ↔ Short l.words := by
  constructor
  · intro S
    have hlen := S.length_le
    have hhead : l.words.head? ≠ some ampersand := fun h => not_splits_of_head hlen h S
    have hend : l.words.length < TOKEN_NR ∨ l.words.length = TOKEN_NR ∧
        (ampersand ∈ l.words ∨ ∃ w ∈ builtins, l.words.head? = some w) :=
      hlen.lt_or_eq.imp_right fun h => ⟨h, S.full h⟩
    exact ⟨hend, hhead, (splits_iff_of_length hlen hhead hend).mp S⟩
  · intro S
    have hlen : l.words.length ≤ TOKEN_NR := S.length.elim Nat.le_of_lt fun h => h.1.le
    exact (splits_iff_of_length hlen S.head S.length).mpr S.names

/-- Ten words. -/
def tenWords : Line := ⟨ascii "ls a b c d e f g h i", by decide⟩

/-- Eleven words, of a command of the shell. -/
def elevenWords : Line := ⟨ascii "setenv a b c d e f g h i j", by decide⟩

/-- An `&` in front. -/
def ampersandFirst : Line := ⟨ascii "& ls", by decide⟩

/-- A name of 26 characters. -/
def longName : Line := ⟨ascii "abcdefghijklmnopqrstuvwxyz", by decide⟩

/-- With ten words `tokens[10]` is read, and with eleven it is written; with 26 characters the name
runs over `filename`. -/
theorem not_splits_ten : round tenWords = none ∧ ¬Splits tenWords ∧
    round elevenWords = none ∧ ¬Splits elevenWords ∧ ¬Splits ampersandFirst ∧
    ¬Splits longName := by
  have hten : round tenWords = none := round_full (by decide) (by decide) (by decide)
  have heleven : round elevenWords = none := round_of_lt (by decide)
  refine ⟨hten, fun S => S.inRange hten, heleven, fun S => S.inRange heleven,
    not_splits_of_head (by decide) (by decide), fun S => ?_⟩
  have hwords : longName.words = [ascii "abcdefghijklmnopqrstuvwxyz"] := by decide
  have hnames := (splits_iff_names hwords (by decide) (by decide) (by decide) (by decide)).mp S
  exact absurd hnames (by decide)

end
end SyeLabs.Shell
