import SyeLabs.Mmu.Create

/-!
# `create_mapping` maps a range

A call goes through the slots of its range one after the other. It maps the pages of the range
to the pages from `phys_base` on and leaves the other pages alone.
-/

namespace SyeLabs.Mmu

/-- The arguments of a call. -/
structure Request where
  virt_base : Word
  phys_base : Word
  size : Word
  nocache : Bool := false

namespace Request
variable (r : Request)

/-- The first address of the range, rounded to a page. -/
def lo : Nat := r.virt_base.toNat / 4096 * 4096

/-- The end of the range, rounded up to a page. -/
def hi : Nat := (r.virt_base.toNat + r.size.toNat + 4095) / 4096 * 4096

/-- Where the part of the range in slot `k` starts and ends. -/
def chunkLo (k : Nat) : Nat := max r.lo (k * 2 ^ 20)
def chunkHi (k : Nat) : Nat := min r.hi ((k + 1) * 2 ^ 20)

/-- The slots that the range meets. -/
def slot (k : Nat) : Prop := r.lo / 2 ^ 20 ≤ k ∧ k ≤ (r.hi - 1) / 2 ^ 20

/-- The part in slot `k` is mapped by a section. -/
def sect (k : Nat) : Prop :=
  SectChunk (r.chunkLo k) (r.chunkHi k) (r.phys_base.toNat + (r.chunkLo k - r.lo))

/-- A range that is not empty and does not wrap. -/
structure Range : Prop where
  pos : 1 ≤ r.size.toNat
  virt : r.virt_base.toNat + r.size.toNat ≤ 2 ^ 32

/-- Neither does the range wrap on the physical side, and both sides have the same offset in a
page. -/
structure Ok : Prop extends r.Range where
  phys : r.phys_base.toNat + r.size.toNat ≤ 2 ^ 32
  offset : r.virt_base.toNat % 4096 = r.phys_base.toNat % 4096

/-- No part of the range that is mapped by small pages lies in a slot with a section entry. -/
def Clear (H : Header) (mem : Memory) (root : Word) : Prop :=
  ∀ k, r.slot k → ¬r.sect k → H.l1pte_is_sect (l1 mem root k) = false ∨ l1 mem root k = 0

end Request

namespace Request
variable {r : Request} (R : r.Range)
include R

theorem Range.lo_lt_hi : r.lo < r.hi := by
  have := R.pos
  unfold lo hi
  omega

theorem Range.hi_le : r.hi ≤ 2 ^ 32 := by
  have := R.virt
  unfold hi
  omega

omit R

theorem Ok.pages_le (R : r.Ok) :
    r.phys_base.toNat / 4096 + (r.hi - r.lo) / 4096 ≤ 2 ^ 20 := by
  have := R.phys
  have := R.offset
  unfold lo hi
  omega

theorem lo_dvd (r : Request) : 4096 ∣ r.lo := Nat.dvd_mul_left _ _

theorem hi_dvd (r : Request) : 4096 ∣ r.hi := Nat.dvd_mul_left _ _

theorem addr_eq (r : Request) : r.virt_base &&& PAGE_MASK = BitVec.ofNat 32 r.lo := by
  apply BitVec.eq_of_toNat_eq
  have := r.virt_base.isLt
  rw [PAGE_MASK, Word.and_highMask_toNat _ (by decide), BitVec.toNat_ofNat, lo]
  omega

theorem end_eq (r : Request) : BitVec.ofNat 32 r.lo +
    ALIGN_UP (r.size + (r.virt_base &&& ~~~PAGE_MASK)) = BitVec.ofNat 32 r.hi := by
  apply BitVec.eq_of_toNat_eq
  have hmask : ~~~PAGE_MASK = Word.lowMask 12 := by decide
  have hlow : (Word.lowMask 12).toNat = 4095 := by decide
  rw [ALIGN_UP, hmask, PAGE_MASK, BitVec.toNat_add, Word.and_highMask_toNat _ (by decide),
    BitVec.toNat_add, BitVec.toNat_add, Word.and_lowMask_toNat _ (by decide), hlow,
    BitVec.toNat_ofNat, BitVec.toNat_ofNat, lo, hi]
  omega

/-! ## The parts of the range -/

variable {k : Nat}

/-- Where the loop stands before slot `k`. -/
def bound (r : Request) (k : Nat) : Nat := max r.lo (min r.hi (k * 2 ^ 20))

theorem slot_mul (h : r.slot k) : r.lo < (k + 1) * 2 ^ 20 ∧ k * 2 ^ 20 ≤ r.hi - 1 :=
  ⟨(Nat.div_lt_iff_lt_mul (by decide)).mp (Nat.lt_succ_of_le h.1),
    (Nat.le_div_iff_mul_le (by decide)).mp h.2⟩

include R in
theorem Range.bound_eq_chunkLo (h : r.slot k) : r.bound k = r.chunkLo k := by
  have := slot_mul h
  have := R.lo_lt_hi
  unfold bound chunkLo
  omega

include R in
theorem Range.bound_succ (h : r.slot k) : r.bound (k + 1) = r.chunkHi k := by
  have := slot_mul h
  have := R.lo_lt_hi
  unfold bound chunkHi
  omega

include R in
theorem Range.chunkLo_lt (h : r.slot k) : r.chunkLo k < r.chunkHi k := by
  have := slot_mul h
  have := R.lo_lt_hi
  unfold chunkLo chunkHi
  omega

theorem lo_le_chunkLo (r : Request) (k : Nat) : r.lo ≤ r.chunkLo k := Nat.le_max_left _ _

theorem chunkHi_le_hi (r : Request) (k : Nat) : r.chunkHi k ≤ r.hi := Nat.min_le_left _ _

theorem chunkLo_div (h : r.slot k) : r.chunkLo k / 2 ^ 20 = k := by
  have h' := slot_mul h
  apply Nat.div_eq_of_lt_le
  · exact Nat.le_max_right _ _
  · unfold chunkLo
    omega

theorem chunkHi_le (r : Request) (k : Nat) : r.chunkHi k ≤ (k + 1) * 2 ^ 20 := Nat.min_le_right _ _

theorem dvd_mul (k : Nat) : 4096 ∣ k * 2 ^ 20 := Dvd.dvd.mul_left (by decide) k

theorem chunkLo_dvd (r : Request) (k : Nat) : 4096 ∣ r.chunkLo k := by
  unfold chunkLo
  rcases le_total r.lo (k * 2 ^ 20) with h | h
  · rw [Nat.max_eq_right h]
    exact dvd_mul k
  · rw [Nat.max_eq_left h]
    exact r.lo_dvd

theorem chunkHi_dvd (r : Request) (k : Nat) : 4096 ∣ r.chunkHi k := by
  unfold chunkHi
  rcases le_total r.hi ((k + 1) * 2 ^ 20) with h | h
  · rw [Nat.min_eq_left h]
    exact r.hi_dvd
  · rw [Nat.min_eq_right h]
    exact dvd_mul (k + 1)

theorem bound_first (r : Request) : r.bound (r.lo / 2 ^ 20) = r.lo := by
  have := Nat.div_mul_le_self r.lo (2 ^ 20)
  unfold bound
  omega

include R in
theorem Range.bound_last : r.bound ((r.hi - 1) / 2 ^ 20 + 1) = r.hi := by
  have := R.lo_lt_hi
  have h := Nat.lt_div_mul_add (a := r.hi - 1) (b := 2 ^ 20) (by decide)
  unfold bound
  rw [Nat.add_mul]
  omega

theorem phys_page (r : Request) (k : Nat) : (r.phys_base.toNat + (r.chunkLo k - r.lo)) / 4096 =
    r.phys_base.toNat / 4096 + (r.chunkLo k / 4096 - r.lo / 4096) := by
  have := r.lo_dvd
  have := r.chunkLo_dvd k
  have := r.lo_le_chunkLo k
  omega

theorem phys_page_mod (r : Request) (k : Nat) :
    (BitVec.ofNat 32 (r.phys_base.toNat + (r.chunkLo k - r.lo))).toNat / 4096 =
      (r.phys_base.toNat / 4096 + (r.chunkLo k / 4096 - r.lo / 4096)) % 2 ^ 20 := by
  rw [← r.phys_page k, BitVec.toNat_ofNat]
  omega

/-- The pages of a part of the range lie in its slot. -/
theorem page_div {p : Nat} (hp : r.chunkLo k / 4096 ≤ p)
    (hp' : p < r.chunkHi k / 4096) : p / 256 = k := by
  have hlo : k * 2 ^ 20 ≤ r.chunkLo k := Nat.le_max_right _ _
  have hhi := r.chunkHi_le k
  omega

theorem Range.bound_lt_iff (R : r.Range) (h : r.slot k) :
    r.bound (k + 1) < r.hi ↔ k < (r.hi - 1) / 2 ^ 20 := by
  have hle : k + 1 ≤ (r.hi - 1) / 2 ^ 20 ↔ (k + 1) * 2 ^ 20 ≤ r.hi - 1 :=
    Nat.le_div_iff_mul_le (by decide)
  have := R.lo_lt_hi
  rw [R.bound_succ h, chunkHi, Nat.lt_iff_add_one_le, Nat.lt_iff_add_one_le, hle]
  omega

theorem Range.ofNat_phys (R : r.Range) (h : r.slot k) :
    BitVec.ofNat 32 (r.phys_base.toNat + (r.chunkHi k - r.lo)) =
      BitVec.ofNat 32 (r.phys_base.toNat + (r.chunkLo k - r.lo)) +
        (BitVec.ofNat 32 (r.chunkHi k) - BitVec.ofNat 32 (r.chunkLo k)) := by
  have hlo := r.lo_le_chunkLo k
  have hlt := R.chunkLo_lt h
  have hsplit : r.phys_base.toNat + (r.chunkHi k - r.lo) =
      r.phys_base.toNat + (r.chunkLo k - r.lo) + (r.chunkHi k - r.chunkLo k) := by omega
  have hhi := R.hi_le
  have hle := r.chunkHi_le_hi k
  rw [hsplit, BitVec.ofNat_add, BitVec.ofNat_sub_ofNat_of_le _ _ (by omega) (le_of_lt hlt)]

end Request

theorem l1sect_addr_end_eq (H : Header) {a e : Nat} (ha : a < 2 ^ 32) (he : 0 < e)
    (he' : e ≤ 2 ^ 32) :
    H.l1sect_addr_end (BitVec.ofNat 32 a) (BitVec.ofNat 32 e) =
      BitVec.ofNat 32 (min e ((a / 2 ^ 20 + 1) * 2 ^ 20)) := by
  have hnext : (BitVec.ofNat 32 a + TTB_SECT_SIZE) &&& TTB_SECT_MASK =
      BitVec.ofNat 32 ((a / 2 ^ 20 + 1) * 2 ^ 20) := by
    apply BitVec.eq_of_toNat_eq
    have hsize : TTB_SECT_SIZE.toNat = 2 ^ 20 := rfl
    rw [TTB_SECT_MASK, Word.and_highMask_toNat _ (by decide), BitVec.toNat_add, hsize,
      BitVec.toNat_ofNat, BitVec.toNat_ofNat]
    omega
  have hpred : ∀ x : Nat, 0 < x → x ≤ 2 ^ 32 → (BitVec.ofNat 32 x - 1).toNat = x - 1 := by
    intro x hx hx'
    bv_omega
  have hmul : (a / 2 ^ 20 + 1) * 2 ^ 20 ≤ 2 ^ 32 := by omega
  rw [H.l1sect_addr_end_eq, hnext]
  simp only [BitVec.lt_def, hpred _ he he', hpred _ (Nat.mul_pos (Nat.succ_pos _) (by decide)) hmul]
  split
  · rw [Nat.min_eq_right (by omega)]
  · rw [Nat.min_eq_left (by omega)]

variable {H : Header} {al : Allocators} {m m' : Machine} {root : Word} {r : Request} {k : Nat}

/-! ## The loop over the slots -/

/-- Where the loop goes from slot `k`. -/
theorem l1sect_addr_end_slot (H : Header) (R : r.Range) (hk : r.slot k) :
    H.l1sect_addr_end (BitVec.ofNat 32 (r.bound k)) (BitVec.ofNat 32 r.hi) =
      BitVec.ofNat 32 (r.bound (k + 1)) := by
  have hle := R.hi_le
  have hlt := R.chunkLo_lt hk
  have hhi := r.chunkHi_le_hi k
  rw [R.bound_eq_chunkLo hk, l1sect_addr_end_eq H (by omega) (by omega) hle,
    Request.chunkLo_div hk, R.bound_succ hk]
  rfl

theorem l1pte_offset_lo (R : r.Range) :
    l1pte_offset root (BitVec.ofNat 32 r.lo) = entry root (r.lo / 2 ^ 20) := by
  have hlt := R.lo_lt_hi
  have hle := R.hi_le
  rw [l1pte_offset, l1pte_index_eq, BitVec.toNat_ofNat, Nat.mod_eq_of_lt (by omega)]

/-- The rule for the two loops over the slots of a range. -/
theorem wp_slots {σ : Type} {body : σ → Except Fault σ} {E : Fault → Prop} (R : r.Range)
    (addrOf : σ → Word) (P : Nat → σ → Prop)
    (hbody : ∀ k s, r.slot k → addrOf s = BitVec.ofNat 32 (r.bound k) → P k s →
      wp (body s) (fun s' => addrOf s' = BitVec.ofNat 32 (r.bound (k + 1)) ∧ P (k + 1) s') E)
    {s : σ} (haddr : addrOf s = BitVec.ofNat 32 r.lo) (hs : P (r.lo / 2 ^ 20) s) :
    wp (doWhile .endless body (fun s => addrOf s ≠ BitVec.ofNat 32 r.hi) (2 ^ 12) s)
      (P ((r.hi - 1) / 2 ^ 20 + 1)) E := by
  have hlt := R.lo_lt_hi
  have hle := R.hi_le
  -- `n` rounds are left
  let I : Nat → σ → Prop := fun n s => ∃ k, k + n = (r.hi - 1) / 2 ^ 20 + 1 ∧
    r.lo / 2 ^ 20 ≤ k ∧ addrOf s = BitVec.ofNat 32 (r.bound k) ∧ P k s
  obtain ⟨n, hn⟩ : ∃ n, r.lo / 2 ^ 20 + (n + 1) = (r.hi - 1) / 2 ^ 20 + 1 :=
    ⟨(r.hi - 1) / 2 ^ 20 - r.lo / 2 ^ 20, by omega⟩
  have hstart : I (n + 1) s := ⟨_, hn, le_rfl, by rw [haddr, r.bound_first], hs⟩
  refine (wp_doWhile I ?_ (by omega) hstart).mono ?_
  · rintro n s ⟨k, hk, hlo, haddr, hP⟩
    have hslot : r.slot k := ⟨hlo, by omega⟩
    refine (hbody k s hslot haddr hP).mono ?_
    rintro s' ⟨haddr', hP'⟩
    have hb : r.bound (k + 1) ≤ r.hi := R.bound_succ hslot ▸ r.chunkHi_le_hi k
    have hb' : 0 < r.bound (k + 1) := by
      have := R.chunkLo_lt hslot
      rw [R.bound_succ hslot]
      omega
    refine ⟨?_, k + 1, by omega, by omega, haddr', hP'⟩
    rw [haddr', decide_eq_decide, ofNat_ne_iff hb (by omega), R.bound_lt_iff hslot]
    omega
  · rintro s ⟨k, hk, -, -, hP⟩
    exact (show k = (r.hi - 1) / 2 ^ 20 + 1 from hk) ▸ hP

/-- A call of `create_mapping`, slot by slot. -/
theorem create_mapping_slots (R : r.Range) (hroot : root ≠ 0) {E : Fault → Prop}
    (P : Nat → Machine → Prop)
    (hslot : ∀ k m, r.slot k → P k m → wp (alloc_init_section H al m (entry root k)
      (BitVec.ofNat 32 (r.chunkLo k)) (BitVec.ofNat 32 (r.chunkHi k))
      (BitVec.ofNat 32 (r.phys_base.toNat + (r.chunkLo k - r.lo))) r.nocache) (P (k + 1)) E)
    (hm : P (r.lo / 2 ^ 20) m) :
    wp (create_mapping H al m root r.virt_base r.phys_base r.size r.nocache)
      (P ((r.hi - 1) / 2 ^ 20 + 1)) E := by
  let Q : Nat → MapLoop → Prop := fun k s => s.l1pte = entry root k ∧
    s.phys_base = BitVec.ofNat 32 (r.phys_base.toNat + (r.bound k - r.lo)) ∧ P k s.m
  have hstart : Q (r.lo / 2 ^ 20)
      ⟨m, entry root (r.lo / 2 ^ 20), BitVec.ofNat 32 r.lo, r.phys_base⟩ := by
    refine ⟨rfl, ?_, hm⟩
    rw [r.bound_first, Nat.sub_self, Nat.add_zero, BitVec.ofNat_toNat, BitVec.setWidth_eq]
  unfold create_mapping
  simp only [if_neg hroot, r.addr_eq, r.end_eq, l1pte_offset_lo R]
  refine wp.bind (wp_slots R MapLoop.addr Q ?_ rfl hstart) fun s hs => wp_pure.mpr hs.2.2
  rintro k s hk haddr ⟨hl1pte, hphys, hP⟩
  have hspec := hslot k s.m hk hP
  unfold mapChunk
  rw [haddr, l1sect_addr_end_slot H R hk, hl1pte, hphys]
  rw [← R.bound_eq_chunkLo hk, ← R.bound_succ hk] at hspec
  refine wp.bind hspec fun m' hm' => wp_pure.mpr ⟨rfl, entry_succ root k, ?_, hm'⟩
  rw [R.bound_succ hk, R.bound_eq_chunkLo hk, ← R.ofNat_phys hk]

/-- The loop before slot `k`. -/
structure MapInv (H : Header) (m : Machine) (root : Word) (r : Request) (k : Nat) (m' : Machine) :
    Prop where
  ext : Extends H root (fun i => r.lo / 2 ^ 20 ≤ i ∧ i < k) m m'
  sect : ∀ i, r.lo / 2 ^ 20 ≤ i → i < k →
    (H.l1pte_is_sect (l1 m'.mem root i) = true ↔ r.sect i)
  pages : ∀ p < 2 ^ 20, lookup H m'.mem root p =
    if r.lo / 4096 ≤ p ∧ p < r.bound k / 4096 then
      some ((r.phys_base.toNat / 4096 + (p - r.lo / 4096)) % 2 ^ 20)
    else lookup H m.mem root p

theorem MapInv.first (T : TablesOk H m root) : MapInv H m root r (r.lo / 2 ^ 20) m where
  ext := Extends.refl T
  sect i hi hi' := absurd hi' (Nat.not_lt.mpr hi)
  pages p _ := by
    rw [r.bound_first, if_neg (by omega)]

theorem Request.sect_iff :
    SectChunk (r.chunkLo k) (r.chunkHi k)
      (BitVec.ofNat 32 (r.phys_base.toNat + (r.chunkLo k - r.lo))).toNat ↔ r.sect k := by
  rw [SectChunk, Request.sect, SectChunk, BitVec.toNat_ofNat, Nat.dvd_mod_iff (by decide)]

/-- The pages of the range up to slot `k`, from those before it and those of the slot. -/
theorem Request.Range.pages_step {mem mem' mem'' : Memory} (R : r.Range) (hk : r.slot k) (p : Nat)
    (hbefore : lookup H mem' root p =
      if r.lo / 4096 ≤ p ∧ p < r.chunkLo k / 4096 then
        some ((r.phys_base.toNat / 4096 + (p - r.lo / 4096)) % 2 ^ 20)
      else lookup H mem root p)
    (hslot : p / 256 = k → lookup H mem'' root p =
      if r.chunkLo k / 4096 ≤ p ∧ p < r.chunkHi k / 4096 then
        some (((BitVec.ofNat 32 (r.phys_base.toNat + (r.chunkLo k - r.lo))).toNat / 4096 +
          (p - r.chunkLo k / 4096)) % 2 ^ 20)
      else lookup H mem' root p)
    (hother : ¬p / 256 = k → lookup H mem' root p = lookup H mem'' root p) :
    lookup H mem'' root p =
      if r.lo / 4096 ≤ p ∧ p < r.bound (k + 1) / 4096 then
        some ((r.phys_base.toNat / 4096 + (p - r.lo / 4096)) % 2 ^ 20)
      else lookup H mem root p := by
  have hlt := R.chunkLo_lt hk
  have hle4 : r.lo / 4096 ≤ r.chunkLo k / 4096 := Nat.div_le_div_right (r.lo_le_chunkLo k)
  have hlt4 : r.chunkLo k / 4096 ≤ r.chunkHi k / 4096 := Nat.div_le_div_right (le_of_lt hlt)
  rw [R.bound_succ hk]
  by_cases hin : r.chunkLo k / 4096 ≤ p ∧ p < r.chunkHi k / 4096
  · have hpage : ((BitVec.ofNat 32 (r.phys_base.toNat + (r.chunkLo k - r.lo))).toNat / 4096 +
          (p - r.chunkLo k / 4096)) % 2 ^ 20 =
        (r.phys_base.toNat / 4096 + (p - r.lo / 4096)) % 2 ^ 20 := by
      rw [r.phys_page_mod k]
      omega
    rw [hslot (Request.page_div hin.1 hin.2), if_pos hin, hpage,
      if_pos ⟨hle4.trans hin.1, hin.2⟩]
  · have hiff : (r.lo / 4096 ≤ p ∧ p < r.chunkHi k / 4096) ↔
        (r.lo / 4096 ≤ p ∧ p < r.chunkLo k / 4096) := by omega
    simp only [hiff]
    rw [← hbefore]
    by_cases hpk : p / 256 = k
    · rw [hslot hpk, if_neg hin]
    · exact (hother hpk).symm

/-- Slot `k` is mapped, and the others are left alone. -/
theorem MapInv.step (R : r.Range) (hclear : r.Clear H m.mem root) (hk : r.slot k)
    (I : MapInv H m root r k m') :
    wp (alloc_init_section H al m' (entry root k) (BitVec.ofNat 32 (r.chunkLo k))
        (BitVec.ofNat 32 (r.chunkHi k))
        (BitVec.ofNat 32 (r.phys_base.toNat + (r.chunkLo k - r.lo))) r.nocache)
      (MapInv H m root r (k + 1)) (· = .noMemory) := by
  have hle := R.hi_le
  have hlt := R.chunkLo_lt hk
  have hhi := r.chunkHi_le_hi k
  have hlo := r.lo_le_chunkLo k
  have hdiv := Request.chunkLo_div hk
  have ha : r.chunkLo k < 2 ^ 32 := by omega
  have hk4 : k < 4096 := by omega
  obtain ⟨hext, hsect, hpages⟩ := I
  rw [R.bound_eq_chunkLo hk] at hpages
  have hslot : ¬(r.lo / 2 ^ 20 ≤ k ∧ k < k) := fun h => lt_irrefl k h.2
  have hs : SectChunk (r.chunkLo k) (r.chunkHi k)
        (BitVec.ofNat 32 (r.phys_base.toNat + (r.chunkLo k - r.lo))).toNat ∨
      H.l1pte_is_sect (l1 m'.mem root (r.chunkLo k / 2 ^ 20)) = false ∨
      l1 m'.mem root (r.chunkLo k / 2 ^ 20) = 0 := by
    rw [hdiv, Request.sect_iff, ← hext.touched.l1_eq hext.tables hk4 hslot]
    exact or_iff_not_imp_left.mpr (hclear k hk)
  have hend : r.chunkHi k ≤ (r.chunkLo k / 2 ^ 20 + 1) * 2 ^ 20 := by
    rw [hdiv]
    exact r.chunkHi_le k
  have hspec : wp (alloc_init_section H al m' (entry root (r.chunkLo k / 2 ^ 20)) _ _ _ r.nocache)
      _ _ := alloc_init_section_spec hext.tables ha hlt hend (r.chunkLo_dvd k) (r.chunkHi_dvd k) hs
  rw [hdiv] at hspec
  refine hspec.mono ?_
  rintro m1 ⟨hext1, hsect1, hpages1⟩
  refine ⟨?_, ?_, ?_⟩
  · refine (hext.trans hext1 fun i hi h => absurd hi.2 (h ▸ lt_irrefl k)).mono fun i hi => ?_
    have := hk.1
    omega
  · intro i hi hik
    rcases Nat.lt_succ_iff_lt_or_eq.mp hik with h | rfl
    · have hne : ¬i = k := Nat.ne_of_lt h
      rw [← hext1.touched.l1_eq hext1.tables (by omega) hne]
      exact hsect i hi h
    · rw [hsect1, Request.sect_iff]
  · intro p hp20
    exact R.pages_step hk p (hpages p hp20) (hpages1 p)
      (hext1.touched.lookup_eq hext1.tables hp20)

/-- What a call leaves behind: the range is mapped, slot by slot and page by page. -/
structure Mapped (H : Header) (root : Word) (r : Request) (m m' : Machine) : Prop where
  ext : Extends H root r.slot m m'
  sect : ∀ i, r.slot i → (H.l1pte_is_sect (l1 m'.mem root i) = true ↔ r.sect i)
  pages : ∀ p < 2 ^ 20, lookup H m'.mem root p =
    if r.lo / 4096 ≤ p ∧ p < r.hi / 4096 then
      some ((r.phys_base.toNat / 4096 + (p - r.lo / 4096)) % 2 ^ 20)
    else lookup H m.mem root p

theorem MapInv.last (R : r.Range) (I : MapInv H m root r ((r.hi - 1) / 2 ^ 20 + 1) m') :
    Mapped H root r m m' where
  ext := I.ext.mono fun _ h => ⟨h.1, Nat.lt_succ_iff.mp h.2⟩
  sect i hi := I.sect i hi.1 (Nat.lt_succ_iff.mpr hi.2)
  pages p hp := by
    have h := I.pages p hp
    rwa [R.bound_last] at h

theorem create_mapping_spec (T : TablesOk H m root) (hroot : root ≠ 0) (R : r.Range)
    (hclear : r.Clear H m.mem root) :
    wp (create_mapping H al m root r.virt_base r.phys_base r.size r.nocache)
      (Mapped H root r m) (· = .noMemory) := by
  refine (create_mapping_slots R hroot (MapInv H m root r) ?_ (MapInv.first T)).mono ?_
  · exact fun k m' hk I => I.step R hclear hk
  · exact fun m' I => I.last R

/-- The physical side does not wrap. -/
theorem Mapped.pages_ok (M : Mapped H root r m m') (R : r.Ok) (p : Nat) (hp : p < 2 ^ 20) :
    lookup H m'.mem root p =
      if r.lo / 4096 ≤ p ∧ p < r.hi / 4096 then
        some (r.phys_base.toNat / 4096 + (p - r.lo / 4096))
      else lookup H m.mem root p := by
  rw [M.pages p hp]
  split
  · have hle := R.pages_le
    have hlo := r.lo_dvd
    have hhi := r.hi_dvd
    rw [Nat.mod_eq_of_lt (by omega)]
  · rfl

/-- A part of the range that is not mapped by a section has a second-level table. -/
theorem Mapped.isTable (M : Mapped H root r m m') (R : r.Range) (hk : r.slot k) (hs : ¬r.sect k) :
    IsTable H (l1 m'.mem root k) := by
  have hlt := R.chunkLo_lt hk
  have hlo := r.lo_le_chunkLo k
  have hhi := r.chunkHi_le_hi k
  have hle := R.hi_le
  have hlo4 := r.chunkLo_dvd k
  have hhi4 := r.chunkHi_dvd k
  have hpage := M.pages (r.chunkLo k / 4096) (by omega)
  have hslot : r.chunkLo k / 4096 / 256 = k := Request.page_div le_rfl (by omega)
  rw [if_pos (by omega), lookup, hslot, Option.ite_none_left_eq_some] at hpage
  refine ⟨hpage.1, ?_⟩
  rw [← Bool.not_eq_true, M.sect _ hk]
  exact hs

/-! ## One page -/

namespace Request

/-- One page from `v` on. -/
def page (v phys : Word) : Request := ⟨v, phys, BitVec.ofNat 32 PAGE_SIZE, false⟩

variable {v phys : Word}

theorem lo_page (v phys : Word) : (page v phys).lo = v.toNat / 4096 * 4096 := rfl

theorem hi_page (v phys : Word) :
    (page v phys).hi = (v.toNat + 4096 + 4095) / 4096 * 4096 := rfl

/-- One page is too small for a section, even if the range is rounded to two. -/
theorem page_not_sect (R : (page v phys).Range) (hk : (page v phys).slot k) :
    ¬(page v phys).sect k := by
  rintro ⟨hlo, hhi, -⟩
  have hlt := R.chunkLo_lt hk
  have h := (page v phys).chunkHi_le_hi k
  have h' := (page v phys).lo_le_chunkLo k
  rw [hi_page] at h
  rw [lo_page] at h'
  omega

theorem page_range (hv : 4096 ∣ v.toNat) : (page v phys).Range where
  pos := show 1 ≤ 4096 by decide
  virt := by
    have := v.isLt
    change v.toNat + 4096 ≤ 2 ^ 32
    omega

theorem page_slot (hv : 4096 ∣ v.toNat) : (page v phys).slot k ↔ k = l1pte_index v := by
  rw [slot, lo_page, hi_page, l1pte_index_eq]
  omega

end Request

section
variable {v phys : Word}

/-- The page at `v` is mapped to that at `phys`, and the next one to the one behind that if `v` is
not the start of a page. -/
theorem Mapped.lookup_from (M : Mapped H root (Request.page v phys) m m') {p : Nat}
    (hp : p < 2 ^ 20) : lookup H m'.mem root p =
      if p = v.toNat / 4096 then some (phys.toNat / 4096)
      else if ¬4096 ∣ v.toNat ∧ p = v.toNat / 4096 + 1 then
        some ((phys.toNat / 4096 + 1) % 2 ^ 20)
      else lookup H m.mem root p := by
  have hlt := phys.isLt
  have hpage := M.pages p hp
  change _ = if _ then some ((phys.toNat / 4096 + _) % 2 ^ 20) else _ at hpage
  rw [Request.lo_page, Request.hi_page] at hpage
  by_cases hfirst : p = v.toNat / 4096
  · have hoff : p - v.toNat / 4096 * 4096 / 4096 = 0 := by omega
    rw [hpage, if_pos (by omega), if_pos hfirst, hoff, Nat.add_zero, Nat.mod_eq_of_lt (by omega)]
  · by_cases hnext : ¬4096 ∣ v.toNat ∧ p = v.toNat / 4096 + 1
    · have hoff : p - v.toNat / 4096 * 4096 / 4096 = 1 := by omega
      rw [hpage, if_pos (by omega), if_neg hfirst, if_pos hnext, hoff]
    · rw [hpage, if_neg (by omega), if_neg hfirst, if_neg hnext]

theorem create_mapping_page (hv : 4096 ∣ v.toNat) (T : TablesOk H m root) (hroot : root ≠ 0)
    (hs : H.l1pte_is_sect (l1 m.mem root (l1pte_index v)) = false ∨
      l1 m.mem root (l1pte_index v) = 0) :
    wp (create_mapping H al m root v phys (BitVec.ofNat 32 PAGE_SIZE) false)
      (Mapped H root (Request.page v phys) m) (· = .noMemory) :=
  create_mapping_spec (r := Request.page v phys) T hroot (Request.page_range hv) fun k hk _ => by
    rwa [(Request.page_slot hv).mp hk]

theorem Mapped.page_lookup (hv : 4096 ∣ v.toNat) (M : Mapped H root (Request.page v phys) m m')
    (p : Nat) (hp : p < 2 ^ 20) : lookup H m'.mem root p =
      if p = v.toNat / 4096 then some (phys.toNat / 4096) else lookup H m.mem root p := by
  have hnext : ¬(¬4096 ∣ v.toNat ∧ p = v.toNat / 4096 + 1) := fun h => h.1 hv
  rw [M.lookup_from hp, if_neg hnext]

theorem Mapped.page_isTable (hv : 4096 ∣ v.toNat) (M : Mapped H root (Request.page v phys) m m') :
    IsTable H (l1 m'.mem root (l1pte_index v)) := by
  have R : (Request.page v phys).Range := Request.page_range hv
  have hslot : (Request.page v phys).slot (l1pte_index v) := (Request.page_slot hv).mpr rfl
  exact M.isTable R hslot (Request.page_not_sect R hslot)

end

end SyeLabs.Mmu
