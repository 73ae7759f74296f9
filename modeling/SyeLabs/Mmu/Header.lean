import SyeLabs.Theory.Bits
import SyeLabs.Theory.Blocks

/-!
# The memory management unit

Constants and helpers of `asm/mmu.h`, and the allocators of the kernel, neither of which is part
of the repository: they are parameters with what the code relies on. Pointers of the kernel are
represented by the physical addresses they stand for, so `__pa` and `__va` are the identity.
-/

namespace SyeLabs.Mmu

def PAGE_SHIFT : Nat := 12
def PAGE_SIZE : Nat := 4096
def PAGE_MASK : Word := .highMask 12

def TTB_L1_ENTRIES : Nat := 4096
def TTB_L2_ENTRIES : Nat := 256
def TTB_SECT_SIZE : Word := 0x100000
def TTB_SECT_MASK : Word := .highMask 20

def TTB_L1_SECT_ADDR_MASK : Word := .highMask 20
def TTB_L1_PAGE_ADDR_MASK : Word := .highMask 10
def TTB_L2_ADDR_MASK : Word := .highMask 12

def SZ_1K : Nat := 1024
def SZ_16K : Nat := 16384

def ALIGN_UP (x : Word) : Word := (x + .lowMask 12) &&& PAGE_MASK

/-- What `asm/mmu.h` defines over the entries of the two tables. The flag of the setters is
`nocache`; they work on an entry that has no attributes yet. -/
structure Header where
  l1sect_addr_end : Word → Word → Word
  l1pte_is_sect : Word → Bool
  set_l1_pte_sect_dcache : Word → Bool → Word
  set_l1_pte_page_dcache : Word → Bool → Word
  set_l2_pte_dcache : Word → Bool → Word
  /-- The nearer of the next section boundary and the end, where 0 is the end of memory. -/
  l1sect_addr_end_eq : ∀ addr end_, l1sect_addr_end addr end_ =
    if ((addr + TTB_SECT_SIZE) &&& TTB_SECT_MASK) - 1 < end_ - 1 then
      (addr + TTB_SECT_SIZE) &&& TTB_SECT_MASK
    else end_
  sect_addr : ∀ w c, 2 ^ 20 ∣ w.toNat → set_l1_pte_sect_dcache w c &&& TTB_L1_SECT_ADDR_MASK = w
  sect_is_sect : ∀ w c, 2 ^ 20 ∣ w.toNat → l1pte_is_sect (set_l1_pte_sect_dcache w c) = true
  sect_ne_zero : ∀ w c, 2 ^ 20 ∣ w.toNat → set_l1_pte_sect_dcache w c ≠ 0
  page_addr : ∀ w c, 2 ^ 10 ∣ w.toNat → set_l1_pte_page_dcache w c &&& TTB_L1_PAGE_ADDR_MASK = w
  page_not_sect : ∀ w c, 2 ^ 10 ∣ w.toNat → l1pte_is_sect (set_l1_pte_page_dcache w c) = false
  page_ne_zero : ∀ w c, 2 ^ 10 ∣ w.toNat → set_l1_pte_page_dcache w c ≠ 0
  pte_addr : ∀ w c, 2 ^ 12 ∣ w.toNat → set_l2_pte_dcache w c &&& TTB_L2_ADDR_MASK = w
  pte_ne_zero : ∀ w c, 2 ^ 12 ∣ w.toNat → set_l2_pte_dcache w c ≠ 0

/-- Where blocks come from: the kernel heap, the page frames, or the image of the kernel. -/
inductive Pool where
  | heap
  | frames
  | image
  deriving DecidableEq, Repr

/-- `memalign` (with `malloc` as the case of alignment 8) and `get_free_page`; `none` is NULL. -/
structure Allocators where
  memalign : List (Event Pool) → (size align : Nat) → Option Word
  get_free_page : List (Event Pool) → Option Word
  memalign_fresh : ∀ {h size align p}, memalign h size align = some p →
    Fresh (live h) p size align
  get_free_page_fresh : ∀ {h p}, get_free_page h = some p →
    Fresh (live h) p PAGE_SIZE PAGE_SIZE

inductive Fault where
  /-- `kernel_panic`, `BUG_ON` or `ASSERT` on an allocation that failed. -/
  | noMemory
  | bug
  | dataAbort
  /-- A string is copied past the end of its field. -/
  | overrun
  /-- `free` of something that is not a live block. -/
  | badFree
  | endless
  deriving DecidableEq, Repr

structure Machine where
  mem : Memory
  trace : List (Event Pool) := []
  sys_root_pgtable : Word := 0
  current_pgtable : Word := 0

namespace Machine

def memalign (al : Allocators) (m : Machine) (size align : Nat) : Except Fault (Word × Machine) :=
  match al.memalign m.trace size align with
  | none => throw .noMemory
  | some p => pure (p, { m with trace := .alloc .heap ⟨p, size⟩ :: m.trace })

def get_free_page (al : Allocators) (m : Machine) : Except Fault (Word × Machine) :=
  match al.get_free_page m.trace with
  | none => throw .noMemory
  | some p => pure (p, { m with trace := .alloc .frames ⟨p, PAGE_SIZE⟩ :: m.trace })

def free (m : Machine) (p : Word) : Except Fault Machine :=
  if (live m.trace).any fun b => b.1 = .heap && b.2.base = p then
    pure { m with trace := .free .heap p :: m.trace }
  else throw .badFree

def free_page (m : Machine) (p : Word) : Machine :=
  { m with trace := .free .frames p :: m.trace }

end Machine
end SyeLabs.Mmu
