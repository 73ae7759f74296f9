import SyeLabs.Theory.FirstFit
import SyeLabs.Mmu.Header

/-!
# The entries of ARM

The parameters in the short format of the architecture: the two lower bits of an entry tell a
section (2) from a table (1), and the bits below the address are attributes.
-/

namespace SyeLabs.Mmu.Arm

variable {w b : Word} {k : Nat}

theorem or_toNat (hw : 2 ^ k ∣ w.toNat) (hb : b.toNat < 2 ^ k) :
    (w ||| b).toNat = w.toNat + b.toNat := by
  obtain ⟨q, hq⟩ := hw
  rw [BitVec.toNat_or, hq, ← Nat.two_pow_add_eq_or_of_lt hb]

theorem or_and_highMask (hk : k ≤ 32) (hw : 2 ^ k ∣ w.toNat) (hb : b.toNat < 2 ^ k) :
    (w ||| b) &&& Word.highMask k = w := by
  apply BitVec.eq_of_toNat_eq
  rw [Word.and_highMask_toNat _ hk, or_toNat hw hb, Nat.add_div_of_dvd_right hw,
    Nat.div_eq_of_lt hb, Nat.add_zero, Nat.div_mul_cancel hw]

theorem or_and_type (hk : 2 ≤ k) (hw : 2 ^ k ∣ w.toNat) (hb : b.toNat < 2 ^ k) :
    ((w ||| b) &&& 3).toNat = b.toNat % 4 := by
  have hmask : (3 : Word) = Word.lowMask 2 := by decide
  have h4 : 4 ∣ w.toNat := (pow_dvd_pow 2 hk).trans hw
  rw [hmask, Word.and_lowMask_toNat _ (by decide), or_toNat hw hb]
  omega

theorem or_ne_zero (hw : 2 ^ k ∣ w.toNat) (hb : b.toNat < 2 ^ k) (hpos : 0 < b.toNat) :
    w ||| b ≠ 0 := by
  intro h
  have h' := congrArg BitVec.toNat h
  rw [or_toNat hw hb, show (0 : Word).toNat = 0 from rfl] at h'
  omega

def l1pte_is_sect (l1pte : Word) : Bool := l1pte &&& 3 == 2

def sectBits (nocache : Bool) : Word := if nocache then 0xC02 else 0xC0E
def pageBits : Word := 1
def pteBits (nocache : Bool) : Word := if nocache then 0x32 else 0x3E

theorem l1pte_is_sect_or (hk : 2 ≤ k) (hw : 2 ^ k ∣ w.toNat) (hb : b.toNat < 2 ^ k) :
    l1pte_is_sect (w ||| b) = decide (b.toNat % 4 = 2) := by
  rw [l1pte_is_sect, Bool.eq_iff_iff, beq_iff_eq, decide_eq_true_iff, ← or_and_type hk hw hb]
  exact BitVec.toNat_inj.symm

def header : Header where
  l1sect_addr_end addr end_ :=
    let boundary := (addr + TTB_SECT_SIZE) &&& TTB_SECT_MASK
    if boundary - 1 < end_ - 1 then boundary else end_
  l1pte_is_sect := l1pte_is_sect
  set_l1_pte_sect_dcache w c := w ||| sectBits c
  set_l1_pte_page_dcache w _ := w ||| pageBits
  set_l2_pte_dcache w c := w ||| pteBits c
  l1sect_addr_end_eq _ _ := rfl
  sect_addr w c hw := or_and_highMask (by decide) hw (by cases c <;> decide)
  sect_is_sect w c hw := by
    rw [l1pte_is_sect_or (by decide) hw (by cases c <;> decide)]
    cases c <;> decide
  sect_ne_zero w c hw := or_ne_zero hw (by cases c <;> decide) (by cases c <;> decide)
  page_addr w c hw := or_and_highMask (by decide) hw (by decide)
  page_not_sect w c hw := by
    rw [l1pte_is_sect_or (by decide) hw (by decide)]
    decide
  page_ne_zero w c hw := or_ne_zero hw (by decide) (by decide)
  pte_addr w c hw := or_and_highMask (by decide) hw (by cases c <;> decide)
  pte_ne_zero w c hw := or_ne_zero hw (by cases c <;> decide) (by cases c <;> decide)

/-- The heap of the kernel starts at 1 MB, the free pages at 8 MB. -/
def allocators : Allocators where
  memalign h size align := firstFit 0x100000 align 64 (live h) size align
  get_free_page h := firstFit 0x800000 PAGE_SIZE 64 (live h) PAGE_SIZE PAGE_SIZE
  memalign_fresh h := firstFit_fresh h
  get_free_page_fresh h := firstFit_fresh h

/-- Each block behind those given out before, so that there is one place to try. The heap starts at
3 MB. -/
def ascending : Allocators where
  memalign h size align :=
    firstFit (0x300000 + BitVec.ofNat 32 (h.length * 0x4000)) align 1 (live h) size align
  get_free_page h :=
    firstFit (0x800000 + BitVec.ofNat 32 (h.length * PAGE_SIZE)) PAGE_SIZE 1 (live h) PAGE_SIZE
      PAGE_SIZE
  memalign_fresh h := firstFit_fresh h
  get_free_page_fresh h := firstFit_fresh h

/-- Empty memory, before anything has been allocated. -/
def start : Machine := ⟨fun _ => 0, [], 0, 0⟩

theorem start_blocks : BlocksOk (live start.trace) := BlocksOk.nil

/-- With a first root table, which is the current one. -/
def rooted : Machine :=
  ⟨start.mem.fill 0x100000 0 16384, [.alloc .heap ⟨0x100000, 16384⟩], 0, 0x100000⟩

end SyeLabs.Mmu.Arm
