import SyeLabs.Memsim.Protection

/-!
# The tests of `memsim.c`

What `test_mem` and `test_mem_2` find out. The bytes that `main` puts into memory depend on the
offset in the page alone, so `test_mem` passes through any table; `test_mem_2` passes for exactly
one layout, and only on small pages.
-/

namespace SyeLabs.Memsim

variable {g : Geometry} {attributes : Bool} {s s' : State g} {a b : Word} {byte x : Byte} {n : ℕ}

/-- The addresses of both loops. -/
def addresses (g : Geometry) : List ℕ := List.range (g.MEMORY_PAGE_NUM * g.MEMORY_PAGE_SIZE)

/-- `(uint8_t)(vaddr & 0xFF)`. -/
def lowByte (vaddr : ℕ) : Byte := (BitVec.ofNat 32 vaddr &&& 0xFF).setWidth 8

def testMemLoop (attributes : Bool) (s : State g) : List ℕ → Byte → ℕ → Option Int
  | [], _, error_count => some (if error_count > 0 then -1 else 0)
  | vaddr :: vaddrs, byte, error_count => do
    let r ← get_byte attributes s (BitVec.ofNat 32 vaddr) byte
    if r.ret < 0 then return -1
    else
      let error_count := if r.byte ≠ lowByte vaddr then error_count + 1 else error_count
      testMemLoop attributes s vaddrs r.byte error_count

/-- `byte` is what the variable holds before the first read. -/
def test_mem (attributes : Bool) (s : State g) (byte : Byte) : Option Int :=
  testMemLoop attributes s (addresses g) byte 0

/-- The loop of `main` that puts data into memory. -/
def fill (attributes : Bool) (s : State g) : Option (State g) :=
  (addresses g).foldlM (fun s vaddr =>
    (store_byte attributes s (BitVec.ofNat 32 vaddr) (lowByte vaddr)).map Result.state) s

/-- The address of a round of `test_mem_2`. -/
def testAddress (i j : ℕ) : BitVec 16 :=
  (BitVec.ofNat 16 i <<< 8) ||| ((BitVec.ofNat 16 j <<< 3) &&& 0xFF)

def testMem2Loop (attributes : Bool) : List (ℕ × ℕ) → State g → Byte → Option Int
  | [], _, _ => some 0
  | (i, j) :: rounds, s, byte => do
    let vaddr := (testAddress i j).setWidth 32
    if i = 10 ∨ i = 11 ∨ i = 12 then
      let r ← get_byte attributes s vaddr byte
      if r.ret < 0 then return -1
      else
        let w ← store_byte attributes r.state vaddr 0x01
        if w.ret ≠ -1 then return -1 else testMem2Loop attributes rounds w.state r.byte
    else if i = 5 ∨ i = 6 ∨ i = 7 ∨ i = 8 then
      let r ← get_byte attributes s vaddr byte
      if r.ret ≠ -1 then return -1 else testMem2Loop attributes rounds r.state r.byte
    else
      let r ← get_byte attributes s vaddr byte
      if r.ret < 0 then return -1
      else
        let w ← store_byte attributes r.state vaddr 0x01
        if w.ret < 0 then return -1 else testMem2Loop attributes rounds w.state r.byte

/-- The rounds of the two loops. -/
def rounds (g : Geometry) : List (ℕ × ℕ) :=
  (List.range g.MEMORY_PAGE_NUM).flatMap fun i =>
    (List.range g.MEMORY_PAGE_SIZE).map fun j => (i, j)

def test_mem_2 (attributes : Bool) (s : State g) : Option Int :=
  testMem2Loop attributes (rounds g) s 0

/-- The result of the test that `main` makes. -/
def main (g : Geometry) (attributes : Bool) (byte : Byte) : Option Int :=
  if attributes then test_mem_2 attributes (start g attributes)
  else do test_mem attributes (← fill attributes (start g attributes)) byte

/-! ## Addresses -/

theorem mem_addresses : n ∈ addresses g ↔ n < 65536 := by
  cases g <;> simp [addresses, Geometry.MEMORY_PAGE_NUM, Geometry.MEMORY_PAGE_SIZE]

theorem ofNat_toNat (h : n < 65536) : (BitVec.ofNat 32 n).toNat = n := by
  rw [BitVec.toNat_ofNat]
  exact Nat.mod_eq_of_lt (by omega)

theorem ofNat_lt (h : n < 65536) : (BitVec.ofNat 32 n).toNat < 65536 := by rwa [ofNat_toNat h]

/-- The low byte is one of the offset. -/
theorem lowByte_toNat (n : ℕ) : (lowByte n).toNat = n % 256 := by
  have hmask : n % 2 ^ 32 &&& 255 = n % 2 ^ 32 % 2 ^ 8 := Nat.and_two_pow_sub_one_eq_mod _ 8
  rw [lowByte, BitVec.toNat_setWidth, BitVec.toNat_and, BitVec.toNat_ofNat]
  change (n % 2 ^ 32 &&& 255) % 2 ^ 8 = _
  rw [hmask]
  omega

theorem lowByte_eq_of_offset {n k : ℕ} (hn : n < 65536) (hk : k < 65536)
    (h : offset g (BitVec.ofNat 32 n) = offset g (BitVec.ofNat 32 k)) : lowByte n = lowByte k := by
  have hn' : (BitVec.ofNat 32 n).toNat = n := ofNat_toNat hn
  have hk' : (BitVec.ofNat 32 k).toNat = k := ofNat_toNat hk
  apply BitVec.eq_of_toNat_eq
  rw [lowByte_toNat, lowByte_toNat]
  rw [offset, offset, hn', hk'] at h
  cases g <;> simp only [Geometry.MEMORY_PAGE_SIZE] at h <;> omega

/-! ## `test_mem` -/

/-- The address can be read, and holds its low byte. -/
def HoldsLowByte (attributes : Bool) (s : State g) (n : ℕ) : Prop :=
  ∀ h : n < 65536, readFault attributes (pteOf s.page_table (ofNat_lt h)) = false ∧
    s.main_mem (frame g (pteOf s.page_table (ofNat_lt h)))
      ⟨offset g (BitVec.ofNat 32 n), offset_lt _⟩ = lowByte n

theorem testMemLoop_eq (attributes : Bool) (s : State g) (byte : Byte) {vaddrs : List ℕ}
    (h : ∀ n ∈ vaddrs, n < 65536) (error_count : ℕ) :
    ∃ r, testMemLoop attributes s vaddrs byte error_count = some r ∧ (r = 0 ∨ r = -1) ∧
      (r = 0 ↔ error_count = 0 ∧ ∀ n ∈ vaddrs, HoldsLowByte attributes s n) := by
  induction vaddrs generalizing byte error_count with
  | nil =>
    refine ⟨_, rfl, ?_, ?_⟩
    · split
      · exact .inr rfl
      · exact .inl rfl
    · split
      · next hpos => exact iff_of_false (by decide) fun h => hpos.ne' h.1
      · next hzero => exact iff_of_true rfl ⟨Nat.eq_zero_of_not_pos hzero, nofun⟩
  | cons n vaddrs ih =>
    obtain ⟨hn, hvaddrs⟩ := List.forall_mem_cons.mp h
    rw [testMemLoop, get_byte_eq (ofNat_lt hn), Option.bind_eq_bind, Option.bind_some]
    by_cases hfault : readFault attributes (pteOf s.page_table (ofNat_lt hn)) = true
    · rw [if_pos hfault, if_pos (show (-1 : Int) < 0 by decide)]
      refine ⟨-1, rfl, .inr rfl, iff_of_false (by decide) fun hall => ?_⟩
      have hread := (hall.2 n List.mem_cons_self hn).1
      rw [hfault] at hread
      exact absurd hread nofun
    · rw [if_neg hfault, if_neg (show ¬(0 : Int) < 0 by decide)]
      obtain ⟨r, hr, hcases, hiff⟩ := ih _ hvaddrs _
      refine ⟨r, hr, hcases, hiff.trans ?_⟩
      have hfault' := Bool.eq_false_of_not_eq_true hfault
      rw [List.forall_mem_cons]
      split
      · next hne =>
        refine iff_of_false (fun h => absurd h.1 (Nat.succ_ne_zero _)) fun h => hne ?_
        exact (h.2.1 hn).2
      · next heq =>
        have hholds : HoldsLowByte attributes s n := fun _ => ⟨hfault', not_not.mp heq⟩
        exact and_congr_right fun _ => (and_iff_right hholds).symm

/-- The test passes exactly if each address can be read and holds its low byte. -/
theorem test_mem_iff (attributes : Bool) (s : State g) (byte : Byte) :
    ∃ r, test_mem attributes s byte = some r ∧ (r = 0 ∨ r = -1) ∧
      (r = 0 ↔ ∀ n < 65536, HoldsLowByte attributes s n) := by
  obtain ⟨r, hr, hcases, hiff⟩ :=
    testMemLoop_eq attributes s byte (fun n hn => mem_addresses.mp hn) 0
  refine ⟨r, hr, hcases, hiff.trans ?_⟩
  simp only [true_and, mem_addresses]

/-! ## The data of `main` -/

/-- One byte is put into memory; what lies at another offset stays. -/
theorem holdsLowByte_setCell {k : ℕ} (hn : n < 65536)
    (hk : n = k ∨ HoldsLowByte false s k) :
    HoldsLowByte false (s.setCell (frame g (pteOf s.page_table (ofNat_lt hn)))
      ⟨offset g (BitVec.ofNat 32 n), offset_lt _⟩ (lowByte n)) k := by
  refine fun hlt => ⟨rfl, ?_⟩
  change (s.setCell _ _ _).main_mem (frame g (pteOf s.page_table (ofNat_lt hlt))) _ = _
  by_cases hframe : frame g (pteOf s.page_table (ofNat_lt hlt)) =
      frame g (pteOf s.page_table (ofNat_lt hn))
  · rw [hframe, State.setCell_self]
    by_cases hoffset : offset g (BitVec.ofNat 32 k) = offset g (BitVec.ofNat 32 n)
    · rw [Function.update_apply, if_pos (Fin.ext hoffset)]
      exact (lowByte_eq_of_offset hlt hn hoffset).symm
    · rw [Function.update_of_ne fun h => hoffset (congrArg Fin.val h), ← hframe]
      rcases hk with rfl | hk
      · exact absurd rfl hoffset
      · exact (hk hlt).2
  · rw [State.setCell_of_ne _ _ _ hframe]
    rcases hk with rfl | hk
    · exact absurd rfl hframe
    · exact (hk hlt).2

/-- The loop, from any state on. -/
theorem fillLoop_holds {vaddrs : List ℕ} (h : ∀ n ∈ vaddrs, n < 65536) :
    ∃ s', vaddrs.foldlM (fun s vaddr =>
        (store_byte false s (BitVec.ofNat 32 vaddr) (lowByte vaddr)).map Result.state) s = some s' ∧
      ∀ k, k ∈ vaddrs ∨ HoldsLowByte false s k → HoldsLowByte false s' k := by
  induction vaddrs generalizing s with
  | nil => exact ⟨s, rfl, fun k hk => hk.resolve_left List.not_mem_nil⟩
  | cons n vaddrs ih =>
    obtain ⟨hn, hvaddrs⟩ := List.forall_mem_cons.mp h
    obtain ⟨s', hs', hall⟩ := ih (s := s.setCell (frame g (pteOf s.page_table (ofNat_lt hn)))
      ⟨offset g (BitVec.ofNat 32 n), offset_lt _⟩ (lowByte n)) hvaddrs
    refine ⟨s', ?_, fun k hk => hall k ?_⟩
    · rw [List.foldlM_cons, store_byte_eq (ofNat_lt hn)]
      exact hs'
    · rcases hk with hk | hk
      · rcases List.mem_cons.mp hk with rfl | hk
        · exact .inr (holdsLowByte_setCell hn (.inl rfl))
        · exact .inl hk
      · exact .inr (holdsLowByte_setCell hn (.inr hk))

/-- Without attributes the test passes through every table, also if it names one frame only. -/
theorem fill_test_mem (s : State g) (byte : Byte) :
    ∃ s', fill false s = some s' ∧ test_mem false s' byte = some 0 := by
  obtain ⟨s', hs', hall⟩ := fillLoop_holds (s := s) fun n hn => (mem_addresses (g := g)).mp hn
  obtain ⟨r, hr, -, hiff⟩ := test_mem_iff false s' byte
  have hzero : r = 0 := hiff.mpr fun n hn => hall n (.inl (mem_addresses.mpr hn))
  exact ⟨s', hs', hzero ▸ hr⟩

/-! ## `test_mem_2` -/

/-- What the test expects of an entry. -/
def Expected (i : ℕ) (pte : Pte) : Prop :=
  if i = 10 ∨ i = 11 ∨ i = 12 then Readable pte ∧ ¬Writable pte
  else if i = 5 ∨ i = 6 ∨ i = 7 ∨ i = 8 then ¬Readable pte
  else Readable pte ∧ Writable pte

instance (i : ℕ) (pte : Pte) : Decidable (Expected i pte) :=
  inferInstanceAs (Decidable (ite _ _ _))

theorem testAddress_toNat {i : ℕ} (hi : i < 256) (j : ℕ) :
    (testAddress i j).toNat = i * 256 + j * 8 % 256 := by
  have hlow : ((BitVec.ofNat 16 j <<< 3) &&& 0xFF : BitVec 16).toNat = j * 8 % 256 := by
    have hmask : j % 2 ^ 16 * 2 ^ 3 % 2 ^ 16 &&& 255 = j % 2 ^ 16 * 2 ^ 3 % 2 ^ 16 % 2 ^ 8 :=
      Nat.and_two_pow_sub_one_eq_mod _ 8
    rw [BitVec.toNat_and, BitVec.toNat_shiftLeft, BitVec.toNat_ofNat, Nat.shiftLeft_eq]
    change j % 2 ^ 16 * 2 ^ 3 % 2 ^ 16 &&& 255 = _
    rw [hmask]
    omega
  have hhigh : (BitVec.ofNat 16 i <<< 8).toNat = 2 ^ 8 * i := by
    rw [BitVec.toNat_shiftLeft, BitVec.toNat_ofNat, Nat.shiftLeft_eq]
    omega
  rw [testAddress, BitVec.toNat_or, hlow, hhigh,
    ← Nat.two_pow_add_eq_or_of_lt (Nat.mod_lt _ (by decide))]
  omega

theorem roundAddress_lt (i j : ℕ) : ((testAddress i j).setWidth 32).toNat < 65536 := by
  rw [BitVec.toNat_setWidth]
  have := (testAddress i j).isLt
  omega

/-- The entry that a round is about. -/
def roundPte (table : Fin g.MEMORY_PAGE_NUM → Pte) (r : ℕ × ℕ) : Pte :=
  pteOf table (roundAddress_lt r.1 r.2)

section
variable {table : Fin g.MEMORY_PAGE_NUM → Pte} {i j : ℕ} {l : List (ℕ × ℕ)}

/-- A read in a round. -/
theorem round_read (hs : s.page_table = table) (i j : ℕ) (byte : Byte) :
    ∃ r, get_byte true s ((testAddress i j).setWidth 32) byte = some r ∧ r.state = s ∧
      (Readable (roundPte table (i, j)) ∧ r.ret = 0 ∨
        ¬Readable (roundPte table (i, j)) ∧ r.ret = -1) := by
  subst hs
  obtain ⟨r, hr, R⟩ := get_byte_checked s byte (roundAddress_lt i j)
  refine ⟨r, hr, R.state, ?_⟩
  by_cases hret : r.ret = 0
  · exact .inl ⟨R.success.mp hret, hret⟩
  · exact .inr ⟨mt R.success.mpr hret, (R.failure hret).1⟩

theorem round_write (hs : s.page_table = table) (i j : ℕ) (byte : Byte) :
    ∃ r, store_byte true s ((testAddress i j).setWidth 32) byte = some r ∧
      r.state.page_table = table ∧
      (Writable (roundPte table (i, j)) ∧ r.ret = 0 ∨
        ¬Writable (roundPte table (i, j)) ∧ r.ret = -1) := by
  subst hs
  obtain ⟨r, hr, W⟩ := store_byte_checked s byte (roundAddress_lt i j)
  refine ⟨r, hr, W.page_table, ?_⟩
  by_cases hret : r.ret = 0
  · exact .inl ⟨W.success.mp hret, hret⟩
  · exact .inr ⟨mt W.success.mpr hret, (W.failure hret).1⟩

/-- The outcome of the rounds that are left. -/
def Outcome (table : Fin g.MEMORY_PAGE_NUM → Pte) (l : List (ℕ × ℕ)) (x : Option Int) : Prop :=
  ∃ r, x = some r ∧ (r = 0 ∨ r = -1) ∧ (r = 0 ↔ ∀ ij ∈ l, Expected ij.1 (roundPte table ij))

theorem Outcome.stop (h : ¬Expected i (roundPte table (i, j))) :
    Outcome table ((i, j) :: l) (some (-1)) :=
  ⟨-1, rfl, .inr rfl, iff_of_false (by decide) fun hall => h (hall _ List.mem_cons_self)⟩

theorem Outcome.next {x : Option Int} (h : Expected i (roundPte table (i, j)))
    (ho : Outcome table l x) : Outcome table ((i, j) :: l) x := by
  obtain ⟨r, hr, hcases, hiff⟩ := ho
  exact ⟨r, hr, hcases, hiff.trans (by rw [List.forall_mem_cons, and_iff_right h])⟩

theorem testMem2Loop_outcome (hs : s.page_table = table) (byte : Byte) (l : List (ℕ × ℕ)) :
    Outcome table l (testMem2Loop true l s byte) := by
  induction l generalizing s byte with
  | nil => exact ⟨0, rfl, .inl rfl, iff_of_true rfl nofun⟩
  | cons ij l ih =>
    obtain ⟨i, j⟩ := ij
    obtain ⟨r, hr, hstate, hread⟩ := round_read hs i j byte
    obtain ⟨w, hw, htable, hwrite⟩ := round_write hs i j 0x01
    have hneg : (-1 : Int) < 0 := by decide
    have hnot : ¬(0 : Int) < 0 := by decide
    have hne : (0 : Int) ≠ -1 := by decide
    rw [testMem2Loop]
    split
    · next hro =>
      -- read-only pages
      have hiff : Expected i (roundPte table (i, j)) ↔
          Readable (roundPte table (i, j)) ∧ ¬Writable (roundPte table (i, j)) := by
        rw [Expected, if_pos hro]
      simp only [hr, hstate, hw, Option.bind_eq_bind, Option.bind_some]
      rcases hread with ⟨hreadable, hret⟩ | ⟨hreadable, hret⟩
      · rw [hret, if_neg hnot]
        rcases hwrite with ⟨hwritable, hret⟩ | ⟨hwritable, hret⟩
        · rw [hret, if_pos hne]
          exact .stop fun h => (hiff.mp h).2 hwritable
        · rw [hret, if_neg (not_not.mpr rfl)]
          exact .next (hiff.mpr ⟨hreadable, hwritable⟩) (ih htable _)
      · rw [hret, if_pos hneg]
        exact .stop fun h => hreadable (hiff.mp h).1
    · next hro =>
      split
      · next hinvalid =>
        -- pages that are not valid
        have hiff : Expected i (roundPte table (i, j)) ↔ ¬Readable (roundPte table (i, j)) := by
          rw [Expected, if_neg hro, if_pos hinvalid]
        simp only [hr, hstate, Option.bind_eq_bind, Option.bind_some]
        rcases hread with ⟨hreadable, hret⟩ | ⟨hreadable, hret⟩
        · rw [hret, if_pos hne]
          exact .stop fun h => hiff.mp h hreadable
        · rw [hret, if_neg (not_not.mpr rfl)]
          exact .next (hiff.mpr hreadable) (ih hs _)
      · next hinvalid =>
        have hiff : Expected i (roundPte table (i, j)) ↔
            Readable (roundPte table (i, j)) ∧ Writable (roundPte table (i, j)) := by
          rw [Expected, if_neg hro, if_neg hinvalid]
        simp only [hr, hstate, hw, Option.bind_eq_bind, Option.bind_some]
        rcases hread with ⟨hreadable, hret⟩ | ⟨hreadable, hret⟩
        · rw [hret, if_neg hnot]
          rcases hwrite with ⟨hwritable, hret⟩ | ⟨hwritable, hret⟩
          · rw [hret, if_neg hnot]
            exact .next (hiff.mpr ⟨hreadable, hwritable⟩) (ih htable _)
          · rw [hret, if_pos hneg]
            exact .stop fun h => hwritable (hiff.mp h).2
        · rw [hret, if_pos hneg]
          exact .stop fun h => hreadable (hiff.mp h).1

end

/-- The layout that the test is made for. -/
def Layout : (g : Geometry) → (Fin g.MEMORY_PAGE_NUM → Pte) → Prop
  | .small, table => ∀ p : Fin Geometry.small.MEMORY_PAGE_NUM, Expected p.val (table p)
  | .large, _ => False

theorem mem_rounds {i j : ℕ} :
    (i, j) ∈ rounds g ↔ i < g.MEMORY_PAGE_NUM ∧ j < g.MEMORY_PAGE_SIZE := by
  simp [rounds]

theorem roundAddress_toNat {i : ℕ} (hi : i < 256) (j : ℕ) :
    ((testAddress i j).setWidth 32).toNat = i * 256 + j * 8 % 256 := by
  have hlt := (testAddress i j).isLt
  rw [BitVec.toNat_setWidth, testAddress_toNat hi] at *
  omega

/-- The test passes exactly through the tables with small pages of which pages 10 to 12 can be read
and not written, pages 5 to 8 not be read, and all others be read and written. -/
theorem test_mem_2_iff (s : State g) : ∃ r, test_mem_2 true s = some r ∧ (r = 0 ∨ r = -1) ∧
    (r = 0 ↔ Layout g s.page_table) := by
  obtain ⟨r, hr, hcases, hiff⟩ := testMem2Loop_outcome (s := s) rfl 0 (rounds g)
  refine ⟨r, hr, hcases, hiff.trans ?_⟩
  cases g with
  | small =>
    have hpage : ∀ {i j : ℕ} (hi : i < 256), roundPte s.page_table (i, j) =
        s.page_table ⟨i, hi⟩ := by
      intro i j hi
      refine congrArg s.page_table (Fin.ext ?_)
      change ((testAddress i j).setWidth 32).toNat / 256 = i
      rw [roundAddress_toNat hi]
      omega
    constructor
    · intro h p
      have hp := h (p, 0) (mem_rounds.mpr ⟨p.isLt, by decide⟩)
      rwa [hpage p.isLt] at hp
    · rintro h ⟨i, j⟩ hij
      have hi : i < 256 := (mem_rounds.mp hij).1
      rw [hpage hi]
      exact h ⟨i, hi⟩
  | large =>
    -- pages 8 and 9 of the test are in one page
    refine iff_of_false (fun h => ?_) id
    have h8 := h (8, 0) (mem_rounds.mpr ⟨by decide, by decide⟩)
    have h9 := h (9, 0) (mem_rounds.mpr ⟨by decide, by decide⟩)
    have hsame : roundPte s.page_table (8, 0) = roundPte s.page_table (9, 0) := by
      refine congrArg s.page_table (Fin.ext ?_)
      change ((testAddress 8 0).setWidth 32).toNat / 1024 =
        ((testAddress 9 0).setWidth 32).toNat / 1024
      rw [roundAddress_toNat (by decide), roundAddress_toNat (by decide)]
    rw [Expected, if_neg (by decide), if_pos (by decide), hsame] at h8
    rw [Expected, if_neg (by decide), if_neg (by decide)] at h9
    exact h8 h9.1

/-- The table of `init_page_table` has the layout. -/
theorem start_layout : Layout .small (start .small true).page_table := by
  change ∀ p : Fin 256, Expected p.val (initPte .small true p.val)
  decide +kernel

/-- `main` finds no fault, except with attributes on large pages. -/
theorem main_passes_iff (g : Geometry) (attributes : Bool) (byte : Byte) :
    main g attributes byte = some 0 ↔ ¬(attributes = true ∧ g = .large) := by
  cases attributes with
  | false =>
    obtain ⟨s, hs, htest⟩ := fill_test_mem (start g false) byte
    refine iff_of_true ?_ nofun
    change (fill false (start g false) >>= fun s => test_mem false s byte) = some 0
    rw [hs]
    exact htest
  | true =>
    obtain ⟨r, hr, -, hiff⟩ := test_mem_2_iff (start g true)
    change test_mem_2 true (start g true) = some 0 ↔ _
    rw [hr, Option.some.injEq, hiff]
    cases g with
    | small => exact iff_of_true start_layout fun h => absurd h.2 nofun
    | large => exact iff_of_false id fun h => h ⟨rfl, rfl⟩

end SyeLabs.Memsim
