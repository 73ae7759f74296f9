import Mathlib.Data.List.TakeWhile
import Mathlib.Tactic.Common

/-!
# The words of a line

The words are the longest parts without a separator. `words_eq` takes the first one off.
-/

namespace SyeLabs

variable {α : Type*} {p : α → Bool} {l w : List α} {c : α}

/-- The parts between the separators that are not empty. -/
def words (p : α → Bool) (l : List α) : List (List α) := (l.splitOnP p).filter fun w => !w.isEmpty

@[simp] theorem words_nil : words p [] = [] := by simp [words, List.splitOnP_nil]

theorem words_cons_sep (hc : p c = true) : words p (c :: l) = words p l := by
  have hsplit : (c :: l).splitOnP p = [] :: l.splitOnP p :=
    List.splitOnP_append_cons_of_forall_mem (List.forall_mem_nil _) c hc l
  rw [words, hsplit]
  rfl

theorem words_dropWhile (p : α → Bool) (l : List α) : words p (l.dropWhile p) = words p l := by
  induction l with
  | nil => rfl
  | cons c l ih =>
    cases hc : p c with
    | true => rw [List.dropWhile_cons_of_pos hc, ih, words_cons_sep hc]
    | false => rw [List.dropWhile_cons_of_neg (Bool.eq_false_iff.mp hc)]

/-- What is left when the separators in front are taken off does not start with one. -/
theorem not_sep_of_dropWhile (h : l.dropWhile p = c :: w) : p c = false := by
  have hne : l.dropWhile p ≠ [] := by simp [h]
  have hnot := List.head_dropWhile_not p hne
  simpa only [h, List.head_cons] using hnot

theorem words_word (hne : w ≠ []) (hw : ∀ c ∈ w, p c = false) : words p w = [w] := by
  rw [words, List.splitOnP_eq_singleton hw]
  simp [hne]

theorem words_word_sep (hne : w ≠ []) (hw : ∀ c ∈ w, p c = false) (hc : p c = true) (l : List α) :
    words p (w ++ c :: l) = w :: words p l := by
  rw [words, List.splitOnP_append_cons_of_forall_mem hw c hc]
  simp [words, hne]

/-- The first word of a line that does not start with a separator. -/
theorem words_cons (hc : p c = false) (l : List α) :
    words p (c :: l) = (c :: l).takeWhile (fun c => !p c) ::
      words p (((c :: l).dropWhile fun c => !p c).drop 1) := by
  have hw : ∀ b ∈ (c :: l).takeWhile fun c => !p c, p b = false := fun b hb => by
    simpa using List.mem_takeWhile_imp hb
  have hne : (c :: l).takeWhile (fun c => !p c) ≠ [] := by simp [hc]
  have hl : (c :: l).takeWhile (fun c => !p c) ++ (c :: l).dropWhile (fun c => !p c) = c :: l :=
    List.takeWhile_append_dropWhile
  cases hrest : (c :: l).dropWhile fun c => !p c with
  | nil =>
    rw [hrest, List.append_nil] at hl
    rw [List.drop_nil, words_nil, ← words_word hne hw, hl]
  | cons b rest =>
    have hb : p b = true := by
      have hnot := not_sep_of_dropWhile hrest
      rwa [Bool.not_eq_false'] at hnot
    rw [List.drop_succ_cons, List.drop_zero, ← words_word_sep hne hw hb rest, ← hrest, hl]

end SyeLabs
