import SyeLabs.Theory.Blocks

/-!
# First fit

An allocator that takes the first of a list of places that lies apart from the live blocks.
-/

namespace SyeLabs

/-- Two regions that do not overlap, by the distances between their first addresses. -/
def Region.apart (r s : Region) : Bool :=
  r.size ≤ (s.base - r.base).toNat && s.size ≤ (r.base - s.base).toNat

theorem Region.disjoint_of_apart {r s : Region} (h : r.apart s = true) : r.Disjoint s := by
  rw [apart, Bool.and_eq_true, decide_eq_true_iff, decide_eq_true_iff] at h
  obtain ⟨hr, hs⟩ := h
  intro x hx hx'
  replace hx : (x - r.base).toNat < r.size := hx
  replace hx' : (x - s.base).toNat < s.size := hx'
  bv_omega

variable {Pool : Type}

def fits (l : List (Pool × Region)) (size align : Nat) (p : Word) : Bool :=
  p ≠ 0 && p.toNat % align == 0 && p.toNat + size ≤ 2 ^ 32 &&
    l.all fun b => Region.apart ⟨p, size⟩ b.2

/-- The first of `n` places that are `step` bytes apart. -/
def firstFit (start : Word) (step n : Nat) (l : List (Pool × Region)) (size align : Nat) :
    Option Word :=
  ((List.range n).map fun i => start + BitVec.ofNat 32 (i * step)).find? (fits l size align)

theorem firstFit_fresh {start p : Word} {step n size align : Nat} {l : List (Pool × Region)}
    (h : firstFit start step n l size align = some p) : Fresh l p size align := by
  have hfits := List.find?_some h
  simp only [fits, Bool.and_eq_true, decide_eq_true_iff, beq_iff_eq, List.all_eq_true] at hfits
  obtain ⟨⟨⟨hzero, halign⟩, hinside⟩, hapart⟩ := hfits
  exact ⟨hzero, Nat.dvd_of_mod_eq_zero halign, hinside,
    fun b hb => Region.disjoint_of_apart (hapart b hb)⟩

/-- Blocks that have been checked one by one. -/
theorem BlocksOk.of_apart {l : List (Pool × Region)}
    (hl : ∀ b ∈ l, 0 < b.2.size ∧ b.2.base.toNat + b.2.size ≤ 2 ^ 32)
    (hapart : l.Pairwise fun b c => b.2.apart c.2 = true) : BlocksOk l where
  pos b hb := (hl b hb).1
  inside b hb := (hl b hb).2
  apart := hapart.imp Region.disjoint_of_apart

end SyeLabs
