import Mathlib.Data.List.Basic
import Mathlib.Data.List.Nodup
import Mathlib.Data.List.Induction
import Mathlib.Tactic.Common

/-!
# Recency lists

The least recently used replacement policy over an arbitrary type of pages. A *recency list*
holds the resident pages, oldest access first. An access moves its page to the newest end; on
a fault of a full list the head is dropped (`touch`). The history of a run is the list of its
accesses, and `lastUse h q` is the number (from 1) of the latest access of `q` in `h`.
`recency_sorted` is the meaning of the list: read from its head, it is sorted by last use, and
pages never used keep the order they started in.
-/

namespace SyeLabs.Recency

variable {Page : Type*} [DecidableEq Page]

/-- One access of `p` by a policy that keeps `capacity` pages. -/
def touch (capacity : Nat) (r : List Page) (p : Page) : List Page :=
  if p ∈ r then r.erase p ++ [p]
  else if r.length < capacity then r ++ [p]
  else r.tail ++ [p]

/-- The recency list after the accesses `h`, from the list `r`. -/
def recency (capacity : Nat) (r : List Page) (h : List Page) : List Page :=
  h.foldl (touch capacity) r

/-- The number, from 1, of the latest access of `q` in the history `h`; 0 if there is none. -/
def lastUse (h : List Page) (q : Page) : Nat := h.length - h.reverse.idxOf q

@[simp] theorem recency_nil (c : Nat) (r : List Page) : recency c r [] = r := rfl

@[simp] theorem recency_snoc (c : Nat) (r h : List Page) (p : Page) :
    recency c r (h ++ [p]) = touch c (recency c r h) p := by
  simp [recency]

@[simp] theorem lastUse_nil (q : Page) : lastUse [] q = 0 := rfl

theorem lastUse_le (h : List Page) (q : Page) : lastUse h q ≤ h.length := Nat.sub_le ..

theorem lastUse_snoc (h : List Page) (p q : Page) :
    lastUse (h ++ [p]) q = if q = p then h.length + 1 else lastUse h q := by
  by_cases hq : q = p
  · simp [lastUse, hq]
  · have hp : ¬p = q := fun e => hq e.symm
    simp [lastUse, hq, hp]

/-! ## Membership and capacity -/

/-- A hit leaves the set of resident pages as it was. -/
theorem mem_touch_hit {c : Nat} {r : List Page} {p q : Page} (hp : p ∈ r) :
    q ∈ touch c r p ↔ q ∈ r := by
  rw [touch, if_pos hp, List.mem_append, List.mem_singleton]
  constructor
  · rintro (h | rfl)
    · exact List.mem_of_mem_erase h
    · exact hp
  · intro h
    by_cases hq : q = p
    · exact .inr hq
    · exact .inl ((List.mem_erase_of_ne hq).mpr h)

theorem touch_nodup {c : Nat} {r : List Page} {p : Page} (hr : r.Nodup) : (touch c r p).Nodup := by
  have snoc {l : List Page} (hl : l.Nodup) (hp : p ∉ l) : (l ++ [p]).Nodup :=
    List.nodup_append.mpr ⟨hl, List.nodup_singleton p, by
      intro a ha b hb
      cases List.mem_singleton.mp hb
      rintro rfl
      exact hp ha⟩
  unfold touch
  split
  · exact snoc (hr.erase p) hr.not_mem_erase
  · next hp =>
    split
    · exact snoc hr hp
    · exact snoc (hr.sublist (List.tail_sublist r)) fun h => hp (List.mem_of_mem_tail h)

theorem touch_length {c : Nat} {r : List Page} {p : Page} (hc : r.length = c) (h0 : 0 < c) :
    (touch c r p).length = c := by
  unfold touch
  split
  · next hp => simp [List.length_erase_of_mem hp, hc]; omega
  · simp [hc]; omega

theorem recency_nodup {c : Nat} {r : List Page} (hr : r.Nodup) (h : List Page) :
    (recency c r h).Nodup := by
  induction h using List.reverseRecOn with
  | nil => exact hr
  | append_singleton h p ih => rw [recency_snoc]; exact touch_nodup ih

theorem recency_length {c : Nat} {r : List Page} (hc : r.length = c) (h0 : 0 < c)
    (h : List Page) : (recency c r h).length = c := by
  induction h using List.reverseRecOn with
  | nil => exact hc
  | append_singleton h p ih => rw [recency_snoc]; exact touch_length ih h0

/-! ## The list is sorted by last use -/

/-- `a` was last used before `b`, or neither was ever used and `a` comes first in `r`. -/
def Older (r h : List Page) (a b : Page) : Prop :=
  lastUse h a < lastUse h b ∨ lastUse h a = 0 ∧ lastUse h b = 0 ∧ r.idxOf a < r.idxOf b

theorem Older.snoc {r h : List Page} {a b p : Page} (H : Older r h a b) (ha : a ≠ p)
    (hb : b ≠ p) : Older r (h ++ [p]) a b := by
  simpa [Older, lastUse_snoc, ha, hb] using H

theorem older_snoc_self {r h : List Page} {a p : Page} (ha : a ≠ p) :
    Older r (h ++ [p]) a p := by
  left
  have := lastUse_le h a
  simp only [lastUse_snoc, if_neg ha, if_true]
  omega

theorem pairwise_idxOf {r : List Page} (hr : r.Nodup) :
    r.Pairwise fun a b => r.idxOf a < r.idxOf b := by
  rw [List.pairwise_iff_getElem]
  intro i j hi hj hij
  rwa [hr.idxOf_getElem, hr.idxOf_getElem]

theorem recency_sorted {c : Nat} {r : List Page} (hr : r.Nodup) (h : List Page) :
    (recency c r h).Pairwise (Older r h) := by
  induction h using List.reverseRecOn with
  | nil =>
    exact (pairwise_idxOf hr).imp fun hab => .inr ⟨rfl, rfl, hab⟩
  | append_singleton h p ih =>
    have snoc {l : List Page} (hl : l.Pairwise (Older r h)) (hp : p ∉ l) :
        (l ++ [p]).Pairwise (Older r (h ++ [p])) := by
      refine List.pairwise_append.mpr ⟨?_, List.pairwise_singleton _ p, ?_⟩
      · refine hl.imp_of_mem fun ha hb hab => hab.snoc ?_ ?_
        · rintro rfl; exact hp ha
        · rintro rfl; exact hp hb
      · intro a ha b hb
        cases List.mem_singleton.mp hb
        exact older_snoc_self fun e => hp (e ▸ ha)
    rw [recency_snoc]
    unfold touch
    split
    · exact snoc (ih.sublist List.erase_sublist) (recency_nodup hr h).not_mem_erase
    · next hp =>
      split
      · exact snoc ih hp
      · exact snoc (ih.sublist (List.tail_sublist _)) fun hm => hp (List.mem_of_mem_tail hm)

/-- The head of the list is the page whose last use lies furthest in the past. -/
theorem lastUse_head_le {c : Nat} {r : List Page} (hr : r.Nodup) {h : List Page} {o q : Page}
    {rest : List Page} (hh : recency c r h = o :: rest) (hq : q ∈ recency c r h) :
    lastUse h o ≤ lastUse h q := by
  have hs := recency_sorted (c := c) hr h
  rw [hh] at hs hq
  rcases List.mem_cons.mp hq with rfl | hq
  · exact Nat.le_refl _
  · rcases (List.pairwise_cons.mp hs).1 q hq with hlt | ⟨h0, -⟩
    · exact Nat.le_of_lt hlt
    · omega

end SyeLabs.Recency
