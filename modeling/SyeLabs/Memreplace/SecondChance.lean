import Mathlib.Data.List.TakeWhile
import Mathlib.Data.List.Find
import SyeLabs.Memreplace.Basic

/-!
# What one call of `replaceWSC` does

The loop of `replaceWSC` changes the reference bits it tests, records a fallback candidate and
may leave early. `scanWSC_eq` gives its state and its candidate in closed form; the three
`replaceWSC_of_*` lemmas are all that the later modules use of it.
-/

namespace SyeLabs.Memreplace
open SyeLabs.Scan

variable {n : Nat}

/-- Resident, with its second chance used up, and not used for more than `DELTA`. -/
def evictable (s : State n) (i : Fin n) : Bool := s.valid i && !s.referenced i && aged s i

/-- Clear the reference bit of the entries with the property `P`. -/
def State.clearRefs (s : State n) (P : Fin n → Prop) [DecidablePred P] : State n :=
  { s with
    page_table := fun i => if P i then clearRef (s.page_table i) else s.page_table i }

section
variable (s : State n) (P : Fin n → Prop) [DecidablePred P] (i j : Fin n)

@[simp] theorem State.clearRefs_valid : (s.clearRefs P).valid i = s.valid i := by
  simp only [State.valid, State.clearRefs]
  split <;> simp

@[simp] theorem State.clearRefs_swapped : (s.clearRefs P).swapped i = s.swapped i := by
  simp only [State.swapped, State.clearRefs]
  split <;> simp

@[simp] theorem State.clearRefs_referenced :
    (s.clearRefs P).referenced i = if P i then false else s.referenced i := by
  simp only [State.referenced, State.clearRefs]
  split <;> simp

@[simp] theorem State.clearRefs_tag :
    tag ((s.clearRefs P).page_table i) = tag (s.page_table i) := by
  simp only [State.clearRefs]
  split <;> simp

@[simp] theorem State.clearRefs_TDU : (s.clearRefs P).TDU = s.TDU := rfl
@[simp] theorem State.clearRefs_TVC : (s.clearRefs P).TVC = s.TVC := rfl

end

theorem State.clearRefs_congr {s : State n} {P Q : Fin n → Prop} [DecidablePred P]
    [DecidablePred Q] (h : ∀ i, P i ↔ Q i) : s.clearRefs P = s.clearRefs Q := by
  simp only [State.clearRefs, h]

theorem State.clearRefs_of_forall_not {s : State n} {P : Fin n → Prop} [DecidablePred P]
    (h : ∀ i, ¬P i) : s.clearRefs P = s := by
  simp only [State.clearRefs, h, if_false]

private theorem evictable_modify_ne {s : State n} {i j : Fin n} {f : BitVec 8 → BitVec 8}
    (h : j ≠ i) : evictable (s.modify i f) j = evictable s j := by
  simp only [evictable, aged, State.valid_modify, State.referenced_modify, if_neg h]
  rfl

private theorem takeWhile_congr {α : Type*} {p q : α → Bool} {l : List α}
    (h : ∀ a ∈ l, p a = q a) : l.takeWhile p = l.takeWhile q := by
  induction l with
  | nil => rfl
  | cons a l ih =>
    rw [List.takeWhile_cons, List.takeWhile_cons, h a List.mem_cons_self,
      ih fun b hb => h b (List.mem_cons_of_mem a hb)]

/-- The entries that the loop passes before it stops at an evictable one. -/
private def passed (s : State n) (l : List (Fin n)) : List (Fin n) :=
  l.takeWhile fun i => !evictable s i

private theorem passed_cons {s : State n} {i : Fin n} (he : evictable s i = false)
    (is : List (Fin n)) : passed s (i :: is) = i :: passed s is := by
  simp only [passed, List.takeWhile_cons, he, Bool.not_false, if_true]

section
variable {s : State n} {i : Fin n} {is : List (Fin n)}

/-- An entry that is not resident is passed over. -/
private theorem clearRefs_passed_invalid (hv : s.valid i = false) :
    s.clearRefs (fun j => j ∈ passed s is ∧ s.valid j = true) =
      s.clearRefs fun j => j ∈ passed s (i :: is) ∧ s.valid j = true := by
  have he : evictable s i = false := by simp [evictable, hv]
  refine State.clearRefs_congr fun j => ?_
  rw [passed_cons he, List.mem_cons]
  refine ⟨fun h => ⟨.inr h.1, h.2⟩, fun ⟨h, hj⟩ => ⟨h.resolve_left ?_, hj⟩⟩
  rintro rfl
  exact Bool.false_ne_true (hv.symm.trans hj)

/-- A resident entry that is referenced loses its reference bit. -/
private theorem clearRefs_passed_referenced (hi : i ∉ is) (hv : s.valid i = true)
    (hr : s.referenced i = true) :
    (s.modify i clearRef).clearRefs (fun j => j ∈ passed s is ∧ s.valid j = true) =
      s.clearRefs fun j => j ∈ passed s (i :: is) ∧ s.valid j = true := by
  have he : evictable s i = false := by simp [evictable, hr]
  simp only [passed_cons he, State.clearRefs, State.modify, State.mk.injEq, and_true]
  funext j
  by_cases hj : j = i
  · subst hj
    have hnot : j ∉ passed s is := fun h => hi ((List.takeWhile_sublist _).subset h)
    simp [hnot, hv]
  · simp [hj]

/-- One that is not has no bit to lose. -/
private theorem clearRefs_passed_unreferenced (hr : s.referenced i = false)
    (he : evictable s i = false) :
    s.clearRefs (fun j => j ∈ passed s is ∧ s.valid j = true) =
      s.clearRefs fun j => j ∈ passed s (i :: is) ∧ s.valid j = true := by
  simp only [passed_cons he, State.clearRefs, State.mk.injEq, and_true]
  funext j
  by_cases hj : j = i
  · subst hj
    simp [clearRef_of_not_referenced hr]
  · refine if_congr ?_ rfl rfl
    simp [hj]

/-- What is left to scan is not touched by a change of the head of the list. -/
private theorem passed_modify (hi : i ∉ is) : passed (s.modify i clearRef) is = passed s is :=
  takeWhile_congr fun j hj => by
    have hne : j ≠ i := fun e => hi (e ▸ hj)
    rw [evictable_modify_ne hne]

end

/-- The loop in closed form. The induction changes `s` at the head of the list only, and the
list has no duplicates, so what is left to scan is tested in the state the loop started in. -/
theorem scanWSC_eq (l : List (Fin n)) (hl : l.Nodup) (s : State n) (lowest : Option (Fin n)) :
    scanWSC l s lowest =
      (s.clearRefs fun i => i ∈ passed s l ∧ s.valid i = true,
        (l.find? (evictable s)).or (lowest.or (l.find? s.valid))) := by
  induction l generalizing s lowest with
  | nil =>
    have h : s.clearRefs (fun i => i ∈ passed s [] ∧ s.valid i = true) = s :=
      State.clearRefs_of_forall_not (by simp [passed])
    simp [scanWSC, h]
  | cons i is ih =>
    obtain ⟨hi, his⟩ := List.nodup_cons.mp hl
    cases hv : s.valid i with
    | false =>
      have he : evictable s i = false := by simp [evictable, hv]
      simp only [scanWSC, hv, Bool.not_false, if_true, ih his, List.find?_cons, he]
      exact Prod.ext (clearRefs_passed_invalid hv) rfl
    | true =>
      cases hr : s.referenced i with
      | true =>
        have he : evictable s i = false := by simp [evictable, hr]
        have hfind : is.find? (evictable (s.modify i clearRef)) =
            is.find? (evictable s) :=
          List.find?_congr fun j hj => evictable_modify_ne fun e => hi (e ▸ hj)
        have hvalid : (s.modify i clearRef).valid = s.valid :=
          funext fun j => s.valid_modify_of i j isValid_clearRef
        simp only [scanWSC, hv, hr, Bool.not_true, Bool.false_eq_true, if_false, if_true, ih his,
          passed_modify hi, hfind, hvalid, List.find?_cons, he]
        exact Prod.ext (clearRefs_passed_referenced hi hv hr) (by cases lowest <;> simp)
      | false =>
        cases ha : aged s i with
        | true =>
          have he : evictable s i = true := by simp [evictable, hv, hr, ha]
          simp only [scanWSC, hv, hr, ha, Bool.not_true, Bool.false_eq_true, if_false, if_true,
            List.find?_cons, he, Option.some_or]
          refine Prod.ext ?_ rfl
          exact (State.clearRefs_of_forall_not (by simp [passed, he])).symm
        | false =>
          have he : evictable s i = false := by simp [evictable, ha]
          simp only [scanWSC, hv, hr, ha, Bool.not_true, Bool.false_eq_true, if_false,
            ih his, List.find?_cons, he]
          exact Prod.ext (clearRefs_passed_unreferenced hr he) (by cases lowest <;> simp)

private theorem mem_passed_finRange {s : State n} {v i : Fin n}
    (hv : IsFirst (fun i => evictable s i = true) v) :
    i ∈ passed s (List.finRange n) ↔ i < v := by
  have hf := find?_finRange.mpr hv
  obtain ⟨he, as, bs, hsplit, has⟩ := List.find?_eq_some_iff_append.mp hf
  have hlt := List.pairwise_lt_finRange n
  rw [hsplit] at hlt
  have hpass : passed s (List.finRange n) = as := by
    have h1 : as.takeWhile (fun i => !evictable s i) = as :=
      List.takeWhile_eq_self_iff.mpr fun a ha => has a ha
    rw [passed, hsplit, List.takeWhile_append, h1]
    simp [he]
  rw [hpass]
  obtain ⟨-, hbs, hcross⟩ := List.pairwise_append.mp hlt
  refine ⟨fun h => hcross i h v List.mem_cons_self, fun h => ?_⟩
  have hmem : i ∈ as ++ v :: bs := hsplit ▸ List.mem_finRange i
  rcases List.mem_append.mp hmem with hi | hi
  · exact hi
  · rcases List.mem_cons.mp hi with rfl | hi
    · exact absurd h (lt_irrefl _)
    · exact absurd h (lt_asymm ((List.pairwise_cons.mp hbs).1 i hi))

/-- If some entry is evictable, the lowest one is evicted, and exactly the resident pages
before it lose their reference bit. -/
theorem replaceWSC_of_evictable {s : State n} {v : Fin n}
    (hv : IsFirst (fun i => evictable s i = true) v) :
    replaceWSC s = (s.clearRefs fun i => i < v ∧ s.valid i = true).modify v swapOut := by
  rw [replaceWSC, scanWSC_eq _ (List.nodup_finRange n), find?_finRange.mpr hv, Option.some_or]
  exact congrArg (State.modify · v swapOut)
    (State.clearRefs_congr fun i => and_congr_left' (mem_passed_finRange hv))

/-- If none is, the lowest resident page is evicted, and all lose their reference bit. -/
theorem replaceWSC_of_not_evictable {s : State n} {v : Fin n} (hs : ∀ i, evictable s i = false)
    (hv : IsFirst (fun i => s.valid i = true) v) :
    replaceWSC s = (s.clearRefs fun i => s.valid i = true).modify v swapOut := by
  have hnone : (List.finRange n).find? (evictable s) = none :=
    List.find?_eq_none.mpr fun i _ => by simp [hs i]
  have hpass : passed s (List.finRange n) = List.finRange n :=
    List.takeWhile_eq_self_iff.mpr fun i _ => by simp [hs i]
  rw [replaceWSC, scanWSC_eq _ (List.nodup_finRange n), hnone, find?_finRange.mpr hv,
    Option.none_or, Option.none_or]
  exact congrArg (State.modify · v swapOut) (State.clearRefs_congr fun i => by simp [hpass])

/-- Without a resident page the function only prints its message. -/
theorem replaceWSC_of_not_valid {s : State n} (hs : ∀ i, s.valid i = false) :
    replaceWSC s = s := by
  have hnone : (List.finRange n).find? (evictable s) = none :=
    List.find?_eq_none.mpr fun i _ => by simp [evictable, hs i]
  have hvalid : (List.finRange n).find? s.valid = none :=
    List.find?_eq_none.mpr fun i _ => by simp [hs i]
  rw [replaceWSC, scanWSC_eq _ (List.nodup_finRange n), hnone, hvalid]
  exact State.clearRefs_of_forall_not (by simp [hs])

/-! ## Bit by bit -/

/-- The page has had its second chance and is outside the working set. -/
def Qualifies (s : State n) (i : Fin n) : Prop :=
  s.valid i = true ∧ s.referenced i = false ∧ DELTA < (s.TVC.toNat : Int) - (s.TDU i).toNat

/-- Page `v` has been evicted, the pages in `cleared` have lost their reference bit, and all other
bits are as before. -/
structure SweptTo (s s' : State n) (v : Fin n) (cleared : Fin n → Prop) : Prop where
  valid : ∀ i, s'.valid i = true ↔ s.valid i = true ∧ i ≠ v
  swapped : ∀ i, s'.swapped i = true ↔ s.swapped i = true ∨ i = v
  referenced : ∀ i, s'.referenced i = true ↔ s.referenced i = true ∧ ¬cleared i
  tag : ∀ i, tag (s'.page_table i) = tag (s.page_table i)
  TDU : s'.TDU = s.TDU
  TVC : s'.TVC = s.TVC
  compteur_global : s'.compteur_global = s.compteur_global

theorem SweptTo.of_clearRefs (s : State n) (v : Fin n) (P : Fin n → Prop) [DecidablePred P] :
    SweptTo s ((s.clearRefs P).modify v swapOut) v P where
  valid i := by
    by_cases h : i = v <;> simp [h]
  swapped i := by
    by_cases h : i = v <;> simp [h]
  referenced i := by
    rw [State.referenced_modify_of _ _ _ isReferenced_swapOut, State.clearRefs_referenced]
    by_cases h : P i <;> simp [h]
  tag i := by
    rw [State.tag_modify _ _ _ tag_swapOut, State.clearRefs_tag]
  TDU := rfl
  TVC := rfl
  compteur_global := rfl

theorem qualifies_iff (s : State n) (i : Fin n) : Qualifies s i ↔ evictable s i = true := by
  simp [Qualifies, evictable, aged, and_assoc]

/-- A scan ends in one of three ways: at the first page that qualifies, at the first resident page
if none does, or without a page at all. -/
theorem replaceWSC_sweeps (s : State n) :
    (∃ v, IsFirst (Qualifies s) v ∧
      SweptTo s (replaceWSC s) v fun i => i < v ∧ s.valid i = true) ∨
    ((∀ i, ¬Qualifies s i) ∧ ∃ v, IsFirst (fun i => s.valid i = true) v ∧
      SweptTo s (replaceWSC s) v fun i => s.valid i = true) ∨
    ((∀ i, ¬s.valid i = true) ∧ replaceWSC s = s) := by
  by_cases hq : ∃ i, Qualifies s i
  · obtain ⟨v, hv⟩ := exists_isFirst hq
    have hev := (IsFirst.congr (qualifies_iff s)).mp hv
    refine .inl ⟨v, hv, ?_⟩
    rw [replaceWSC_of_evictable hev]
    exact .of_clearRefs s v _
  by_cases hvalid : ∃ i, s.valid i = true
  · obtain ⟨v, hv⟩ := exists_isFirst hvalid
    have hnone : ∀ i, evictable s i = false := fun i =>
      Bool.eq_false_iff.mpr (mt (qualifies_iff s i).mpr (not_exists.mp hq i))
    refine .inr (.inl ⟨not_exists.mp hq, v, hv, ?_⟩)
    rw [replaceWSC_of_not_evictable hnone hv]
    exact .of_clearRefs s v _
  · have hno := not_exists.mp hvalid
    exact .inr (.inr ⟨hno, replaceWSC_of_not_valid fun i => Bool.eq_false_iff.mpr (hno i)⟩)

end SyeLabs.Memreplace
