import Mathlib.Data.List.Induction
import SyeLabs.Theory.Bytes

/-!
# Byte memory

A memory of `2 ^ 32` bytes with the operations of a C library on it: word loads and stores,
`memset`, `memcpy`, and the writing of a byte string. A region is given by its first address and
its length and may go around the end of the address space; each operation changes nothing
outside its region.
-/

namespace SyeLabs

structure Region where
  base : Word
  size : Nat
  deriving DecidableEq

namespace Region

instance : Membership Word Region where
  mem r x := (x - r.base).toNat < r.size

instance (r : Region) (x : Word) : Decidable (x ∈ r) :=
  inferInstanceAs (Decidable ((x - r.base).toNat < r.size))

theorem mem_def {p x : Word} {n : Nat} : x ∈ (⟨p, n⟩ : Region) ↔ (x - p).toNat < n := Iff.rfl

instance : HasSubset Region where
  Subset r s := ∀ x, x ∈ r → x ∈ s

def Disjoint (r s : Region) : Prop := ∀ x, x ∈ r → x ∉ s

theorem Disjoint.symm {r s : Region} (h : r.Disjoint s) : s.Disjoint r := fun x hs hr => h x hr hs

theorem Disjoint.mono {r r' s s' : Region} (h : r.Disjoint s) (hr : r' ⊆ r) (hs : s' ⊆ s) :
    r'.Disjoint s' := fun x hx hx' => h x (hr x hx) (hs x hx')

variable {p q x : Word} {n k l k' l' : Nat}

theorem mem_add (hk : k < n) (hn : n ≤ 2 ^ 32) : p + BitVec.ofNat 32 k ∈ (⟨p, n⟩ : Region) := by
  rw [mem_def]
  bv_omega

theorem exists_add_of_mem (h : x ∈ (⟨p, n⟩ : Region)) :
    ∃ k < n, x = p + BitVec.ofNat 32 k := by
  refine ⟨(x - p).toNat, h, ?_⟩
  rw [BitVec.ofNat_toNat, BitVec.setWidth_eq]
  bv_omega

theorem sub_add (h : k + l ≤ n) (hn : n ≤ 2 ^ 32) :
    (⟨p + BitVec.ofNat 32 k, l⟩ : Region) ⊆ ⟨p, n⟩ := by
  intro x hx
  rw [mem_def] at hx ⊢
  bv_omega

theorem sub_size (h : k ≤ n) : (⟨p, k⟩ : Region) ⊆ ⟨p, n⟩ :=
  fun _ hx => lt_of_lt_of_le hx h

theorem disjoint_add (h : k + l ≤ k') (hn : k' + l' ≤ 2 ^ 32) :
    (⟨p + BitVec.ofNat 32 k, l⟩ : Region).Disjoint ⟨p + BitVec.ofNat 32 k', l'⟩ := by
  intro x hx hx'
  rw [mem_def] at hx hx'
  bv_omega

end Region

abbrev Memory := Word → Byte

namespace Memory

/-- The little-endian word at `a`. -/
def load (m : Memory) (a : Word) : Word := .ofBytes (m a) (m (a + 1)) (m (a + 2)) (m (a + 3))

def store (m : Memory) (a w : Word) : Memory :=
  fun x => if x ∈ (⟨a, 4⟩ : Region) then w.byte (x - a).toNat else m x

/-- The bytes of a word, with their addresses. -/
def wordBytes (a w : Word) : List (Word × Byte) :=
  (List.range 4).map fun k => (a + BitVec.ofNat 32 k, w.byte k)

/-- `memset`. -/
def fill (m : Memory) (p : Word) (b : Byte) (n : Nat) : Memory :=
  fun x => if x ∈ (⟨p, n⟩ : Region) then b else m x

/-- `memcpy` between regions that do not overlap. -/
def copy (m : Memory) (dst src : Word) (n : Nat) : Memory :=
  fun x => if x ∈ (⟨dst, n⟩ : Region) then m (src + (x - dst)) else m x

/-- The bytes of `l` written from `p` on. -/
def write (m : Memory) (p : Word) (l : List Byte) : Memory :=
  fun x => if h : x ∈ (⟨p, l.length⟩ : Region) then l.get ⟨(x - p).toNat, h⟩ else m x

/-- The bytes of `l` stand in memory from `p` on. -/
def Holds (m : Memory) (p : Word) (l : List Byte) : Prop :=
  ∀ k (h : k < l.length), m (p + BitVec.ofNat 32 k) = l[k]

/-- Two memories that agree on a region. -/
def EqOn (m m' : Memory) (r : Region) : Prop := ∀ x ∈ r, m x = m' x

/-- Two memories that agree outside a region. -/
def EqOff (m m' : Memory) (r : Region) : Prop := ∀ x, x ∉ r → m x = m' x

variable {m m' m'' : Memory} {a b p q x w : Word} {n : Nat} {l : List Byte} {r s : Region}

theorem EqOn.symm (h : EqOn m m' r) : EqOn m' m r := fun x hx => (h x hx).symm

theorem EqOn.trans (h : EqOn m m' r) (h' : EqOn m' m'' r) : EqOn m m'' r :=
  fun x hx => (h x hx).trans (h' x hx)

theorem EqOn.mono (h : EqOn m m' r) (hs : s ⊆ r) : EqOn m m' s := fun x hx => h x (hs x hx)

theorem EqOff.eqOn (h : EqOff m m' r) (hd : s.Disjoint r) : EqOn m m' s :=
  fun x hx => h x (hd x hx)

theorem EqOff.trans (h : EqOff m m' r) (h' : EqOff m' m'' r) : EqOff m m'' r :=
  fun x hx => (h x hx).trans (h' x hx)

theorem EqOff.mono (h : EqOff m m' r) (hs : r ⊆ s) : EqOff m m' s :=
  fun x hx => h x fun hr => hx (hs x hr)

/-! ## What each operation leaves alone -/

theorem eqOff_store (m : Memory) (a w : Word) : EqOff m (m.store a w) ⟨a, 4⟩ :=
  fun _ hx => (if_neg hx).symm

theorem eqOff_fill (m : Memory) (p : Word) (b : Byte) (n : Nat) :
    EqOff m (m.fill p b n) ⟨p, n⟩ := fun _ hx => (if_neg hx).symm

theorem eqOff_copy (m : Memory) (p q : Word) (n : Nat) : EqOff m (m.copy p q n) ⟨p, n⟩ :=
  fun _ hx => (if_neg hx).symm

theorem eqOff_write (m : Memory) (p : Word) (l : List Byte) :
    EqOff m (m.write p l) ⟨p, l.length⟩ := by
  intro x hx
  rw [write, dif_neg hx]

/-! ## Reading back -/

theorem load_congr (h : EqOn m m' ⟨a, 4⟩) : m.load a = m'.load a := by
  have h0 := h a (by rw [Region.mem_def]; bv_omega)
  have h1 := h (a + 1) (by rw [Region.mem_def]; bv_omega)
  have h2 := h (a + 2) (by rw [Region.mem_def]; bv_omega)
  have h3 := h (a + 3) (by rw [Region.mem_def]; bv_omega)
  rw [load, load, h0, h1, h2, h3]

/-- A word is read from its four bytes. -/
theorem load_eq_load (h : ∀ k < 4, m (a + BitVec.ofNat 32 k) = m' (b + BitVec.ofNat 32 k)) :
    m.load a = m'.load b := by
  have h0 : m a = m' b := by simpa using h 0 (by decide)
  have h1 : m (a + 1) = m' (b + 1) := h 1 (by decide)
  have h2 : m (a + 2) = m' (b + 2) := h 2 (by decide)
  have h3 : m (a + 3) = m' (b + 3) := h 3 (by decide)
  rw [load, load, h0, h1, h2, h3]

theorem byte_load (m : Memory) (a : Word) {k : Nat} (hk : k < 4) :
    (m.load a).byte k = m (a + BitVec.ofNat 32 k) := by
  have hbytes := Word.byte_ofBytes (m a) (m (a + 1)) (m (a + 2)) (m (a + 3)) hk
  rw [load, hbytes]
  have hcases : k = 0 ∨ k = 1 ∨ k = 2 ∨ k = 3 := by omega
  rcases hcases with rfl | rfl | rfl | rfl
  · rw [BitVec.add_zero]
    rfl
  all_goals rfl

theorem store_apply (k : Nat) (hk : k < 4) :
    m.store a w (a + BitVec.ofNat 32 k) = w.byte k := by
  have hoff : (a + BitVec.ofNat 32 k - a).toNat = k := by bv_omega
  rw [store, if_pos (Region.mem_add hk (by decide)), hoff]

theorem mem_wordBytes : x ∈ (wordBytes a w).map Prod.fst ↔ x ∈ (⟨a, 4⟩ : Region) := by
  rw [wordBytes, List.map_map, List.mem_map]
  constructor
  · rintro ⟨k, hk, rfl⟩
    exact Region.mem_add (List.mem_range.mp hk) (by decide)
  · intro hx
    obtain ⟨k, hk, rfl⟩ := Region.exists_add_of_mem hx
    exact ⟨k, List.mem_range.mpr hk, rfl⟩

@[simp] theorem load_store_self (m : Memory) (a w : Word) : (m.store a w).load a = w := by
  have h0 : m.store a w a = w.byte 0 := by simpa using store_apply (m := m) (a := a) (w := w) 0
  have h1 : m.store a w (a + 1) = w.byte 1 := store_apply 1 (by decide)
  have h2 : m.store a w (a + 2) = w.byte 2 := store_apply 2 (by decide)
  have h3 : m.store a w (a + 3) = w.byte 3 := store_apply 3 (by decide)
  rw [load, h0, h1, h2, h3, Word.ofBytes_byte]

@[simp] theorem store_store_self (m : Memory) (a v w : Word) :
    (m.store a v).store a w = m.store a w := by
  funext x
  by_cases hx : x ∈ (⟨a, 4⟩ : Region) <;> simp [store, hx]

theorem load_store_of_disjoint (h : (⟨b, 4⟩ : Region).Disjoint ⟨a, 4⟩) :
    (m.store a w).load b = m.load b := (load_congr ((eqOff_store m a w).eqOn h)).symm

theorem fill_apply (h : x ∈ (⟨p, n⟩ : Region)) (c : Byte) : m.fill p c n x = c := if_pos h

theorem load_fill_zero (h : (⟨a, 4⟩ : Region) ⊆ ⟨p, n⟩) : (m.fill p 0 n).load a = 0 := by
  have hz : EqOn (m.fill p 0 n) (fun _ => 0) ⟨a, 4⟩ := fun x hx => fill_apply (h x hx) 0
  rw [load_congr hz]
  rfl

theorem copy_apply (k : Nat) (hk : k < n) (hn : n ≤ 2 ^ 32) :
    m.copy p q n (p + BitVec.ofNat 32 k) = m (q + BitVec.ofNat 32 k) := by
  have hoff : p + BitVec.ofNat 32 k - p = BitVec.ofNat 32 k := by bv_omega
  rw [copy, if_pos (Region.mem_add hk hn), hoff]

theorem load_copy {k : Nat} (hk : k + 4 ≤ n) (hn : n ≤ 2 ^ 32) :
    (m.copy p q n).load (p + BitVec.ofNat 32 k) = m.load (q + BitVec.ofNat 32 k) := by
  refine load_eq_load fun j hj => ?_
  rw [BitVec.add_assoc, BitVec.add_assoc, ← BitVec.ofNat_add]
  exact copy_apply (k + j) (by omega) hn

/-- Copying one more word. -/
theorem store_copy {k : Nat} (hdisj : (⟨p, k + 4⟩ : Region).Disjoint ⟨q, k + 4⟩)
    (hk : k + 4 ≤ 2 ^ 32) :
    (m.copy p q k).store (p + BitVec.ofNat 32 k)
      ((m.copy p q k).load (q + BitVec.ofNat 32 k)) = m.copy p q (k + 4) := by
  have hload : (m.copy p q k).load (q + BitVec.ofNat 32 k) = m.load (q + BitVec.ofNat 32 k) :=
    (load_congr ((eqOff_copy m p q k).eqOn
      (hdisj.symm.mono (Region.sub_add le_rfl hk) (Region.sub_size (by omega))))).symm
  funext x
  rw [hload, store]
  by_cases hx : x ∈ (⟨p + BitVec.ofNat 32 k, 4⟩ : Region)
  · have hmem : x ∈ (⟨p, k + 4⟩ : Region) := Region.sub_add le_rfl hk x hx
    obtain ⟨j, hj, rfl⟩ := Region.exists_add_of_mem hx
    have hoff :
        (p + BitVec.ofNat 32 k + BitVec.ofNat 32 j - (p + BitVec.ofNat 32 k)).toNat = j := by
      bv_omega
    have hsrc : q + BitVec.ofNat 32 k + BitVec.ofNat 32 j =
        q + (p + BitVec.ofNat 32 k + BitVec.ofNat 32 j - p) := by bv_omega
    rw [if_pos hx, hoff, byte_load _ _ hj, copy, if_pos hmem, hsrc]
  · have hiff : x ∈ (⟨p, k⟩ : Region) ↔ x ∈ (⟨p, k + 4⟩ : Region) := by
      rw [Region.mem_def] at hx
      rw [Region.mem_def, Region.mem_def]
      bv_omega
    rw [if_neg hx, copy, copy]
    simp only [hiff]

theorem holds_write (m : Memory) (p : Word) (hl : l.length ≤ 2 ^ 32) : (m.write p l).Holds p l := by
  intro k hk
  have hoff : (p + BitVec.ofNat 32 k - p).toNat = k := by bv_omega
  rw [write, dif_pos (Region.mem_add hk hl), List.get_eq_getElem]
  congr 1

theorem Holds.congr (h : m.Holds p l) (hm : EqOn m m' ⟨p, l.length⟩) (hl : l.length ≤ 2 ^ 32) :
    m'.Holds p l := fun k hk => (hm _ (Region.mem_add hk hl)).symm.trans (h k hk)

/-! ## Copying through address translations -/

/-- `memcpy`, byte by byte, where each side is translated; `none` on a fault. -/
def memcpy (trDst trSrc : Memory → Word → Option Word) (m : Memory) (dst src : Word) (n : Nat) :
    Option Memory :=
  (List.range n).foldlM (fun m k => do
    let d ← trDst m (dst + BitVec.ofNat 32 k)
    let s ← trSrc m (src + BitVec.ofNat 32 k)
    return Function.update m d (m s)) m

/-- The whole range at once, where each side is mapped in one piece. -/
def copyAt (trDst trSrc : Memory → Word → Option Word) (m : Memory) (dst src : Word) (n : Nat) :
    Option Memory := do
  let d ← trDst m dst
  let s ← trSrc m src
  return m.copy d s n

theorem update_copy (m : Memory) {d s : Word} {n k : Nat}
    (hdisj : (⟨d, n⟩ : Region).Disjoint ⟨s, n⟩) (hk : k < n) (hn : n ≤ 2 ^ 32) :
    Function.update (m.copy d s k) (d + BitVec.ofNat 32 k)
      (m.copy d s k (s + BitVec.ofNat 32 k)) = m.copy d s (k + 1) := by
  have hsrc : s + BitVec.ofNat 32 k ∉ (⟨d, k⟩ : Region) := fun h =>
    hdisj _ (Region.sub_size (le_of_lt hk) _ h) (Region.mem_add hk hn)
  funext x
  by_cases hx : x = d + BitVec.ofNat 32 k
  · subst hx
    rw [Function.update_self, copy_apply k (Nat.lt_succ_self k) (by omega), copy, if_neg hsrc]
  · have hmem : x ∈ (⟨d, k⟩ : Region) ↔ x ∈ (⟨d, k + 1⟩ : Region) := by
      rw [Region.mem_def, Region.mem_def]
      have hne : (x - d).toNat ≠ k := by
        intro h
        apply hx
        bv_omega
      omega
    rw [Function.update_of_ne hx]
    simp only [copy, hmem]

/-- With both pages mapped in one piece, whatever is written to the target, the loop copies. -/
theorem memcpy_eq_copy {trDst trSrc : Memory → Word → Option Word} {dst src d s : Word}
    (hdst : ∀ m', EqOff m m' ⟨d, n⟩ → ∀ k < n,
      trDst m' (dst + BitVec.ofNat 32 k) = some (d + BitVec.ofNat 32 k))
    (hsrc : ∀ m', EqOff m m' ⟨d, n⟩ → ∀ k < n,
      trSrc m' (src + BitVec.ofNat 32 k) = some (s + BitVec.ofNat 32 k))
    (hdisj : (⟨d, n⟩ : Region).Disjoint ⟨s, n⟩) (hn : n ≤ 2 ^ 32) :
    memcpy trDst trSrc m dst src n = some (m.copy d s n) := by
  have hloop : ∀ k ≤ n, (List.range k).foldlM (fun m k => do
      let d ← trDst m (dst + BitVec.ofNat 32 k)
      let s ← trSrc m (src + BitVec.ofNat 32 k)
      return Function.update m d (m s)) m = some (m.copy d s k) := by
    intro k
    induction k with
    | zero =>
      intro _
      have hzero : m.copy d s 0 = m := funext fun x => if_neg (Nat.not_lt_zero _)
      rw [hzero]
      rfl
    | succ k ih =>
      intro hk
      have hoff : EqOff m (m.copy d s k) ⟨d, n⟩ :=
        (eqOff_copy m d s k).mono (Region.sub_size (by omega))
      rw [List.range_succ, List.foldlM_append, ih (by omega)]
      simp [hdst _ hoff k (by omega), hsrc _ hoff k (by omega), update_copy m hdisj hk hn]
  exact hloop n le_rfl

theorem copyAt_eq_copy {trDst trSrc : Memory → Word → Option Word} {dst src d s : Word}
    (hdst : trDst m dst = some d) (hsrc : trSrc m src = some s) :
    copyAt trDst trSrc m dst src n = some (m.copy d s n) := by
  rw [copyAt, hdst, hsrc]
  rfl

/-- With each byte of the target mapped to a place of its own, wherever that is, the loop copies. -/
theorem memcpy_eq_some {trDst trSrc : Memory → Word → Option Word} {dst src : Word}
    {d s : Nat → Word}
    (hdst : ∀ m', (∀ y, (∀ k < n, y ≠ d k) → m y = m' y) → ∀ k < n,
      trDst m' (dst + BitVec.ofNat 32 k) = some (d k))
    (hsrc : ∀ m', (∀ y, (∀ k < n, y ≠ d k) → m y = m' y) → ∀ k < n,
      trSrc m' (src + BitVec.ofNat 32 k) = some (s k))
    (hinj : ∀ j < n, ∀ k < n, d j = d k → j = k) (hsep : ∀ j < n, ∀ k < n, s j ≠ d k) :
    ∃ m', memcpy trDst trSrc m dst src n = some m' ∧ (∀ k < n, m' (d k) = m (s k)) ∧
      ∀ y, (∀ k < n, y ≠ d k) → m y = m' y := by
  have hloop : ∀ i ≤ n, ∃ m', (List.range i).foldlM (fun m k => do
      let d ← trDst m (dst + BitVec.ofNat 32 k)
      let s ← trSrc m (src + BitVec.ofNat 32 k)
      return Function.update m d (m s)) m = some m' ∧ (∀ k < i, m' (d k) = m (s k)) ∧
        ∀ y, (∀ k < i, y ≠ d k) → m y = m' y := by
    intro i
    induction i with
    | zero => exact fun _ => ⟨m, rfl, fun k hk => absurd hk (Nat.not_lt_zero k), fun _ _ => rfl⟩
    | succ i ih =>
      intro hi
      obtain ⟨m', hrun, hcopied, hrest⟩ := ih (by omega)
      have hrest' : ∀ y, (∀ k < n, y ≠ d k) → m y = m' y :=
        fun y hy => hrest y fun k hk => hy k (by omega)
      refine ⟨Function.update m' (d i) (m' (s i)), ?_, fun k hk => ?_, fun y hy => ?_⟩
      · rw [List.range_succ, List.foldlM_append, hrun]
        simp [hdst m' hrest' i hi, hsrc m' hrest' i hi]
      · rcases Nat.lt_succ_iff_lt_or_eq.mp hk with hlt | rfl
        · have hne : d k ≠ d i := fun h => absurd (hinj k (by omega) i hi h) (by omega)
          rw [Function.update_of_ne hne, hcopied k hlt]
        · rw [Function.update_self]
          exact (hrest _ fun j hj => hsep k hi j (by omega)).symm
      · rw [Function.update_of_ne (hy i (by omega))]
        exact hrest y fun k hk => hy k (by omega)
  exact hloop n le_rfl

end Memory
end SyeLabs
