import SyeLabs.Theory.Wp
import SyeLabs.Mmu.Header

/-!
# Page tables: `mmu.c`

The functions that build, release and read page tables, on byte memory. Cache and TLB
maintenance has no counterpart here: the hardware is taken to see the tables as they are.
-/

namespace SyeLabs.Mmu

/-- Bits 31..20. -/
def l1pte_index (addr : Word) : Nat := (addr >>> 20).toNat

/-- Bits 19..12. -/
def l2pte_index (addr : Word) : Nat := ((addr >>> 12) &&& Word.lowMask 8).toNat

/-- Entry `i` of a table. -/
def entry (table : Word) (i : Nat) : Word := table + BitVec.ofNat 32 (4 * i)

def l1pte_offset (pgtable addr : Word) : Word := entry pgtable (l1pte_index addr)

def l2pte_first (mem : Memory) (l1pte : Word) : Word := mem.load l1pte &&& TTB_L1_PAGE_ADDR_MASK

def l2pte_offset (mem : Memory) (l1pte addr : Word) : Word :=
  entry (l2pte_first mem l1pte) (l2pte_index addr)

def pte_index_to_vaddr (i j : Nat) : Word := BitVec.ofNat 32 (i * 2 ^ 20 + j * 2 ^ 12)

section
variable (H : Header) (al : Allocators)

/-! ## Mapping -/

structure PteLoop where
  mem : Memory
  l2pte : Word
  addr : Word
  pfn : Word

def setPte (nocache : Bool) (s : PteLoop) : Except Fault PteLoop :=
  let mem := s.mem.store s.l2pte (s.pfn <<< PAGE_SHIFT)
  let mem := mem.store s.l2pte (H.set_l2_pte_dcache (mem.load s.l2pte) nocache)
  pure { mem, pfn := s.pfn + 1, l2pte := s.l2pte + 4, addr := s.addr + BitVec.ofNat 32 PAGE_SIZE }

/-- The second-level table of an entry, allocated if the entry is empty. -/
def allocTable (m : Machine) (l1pte : Word) (nocache : Bool) : Except Fault Machine :=
  if m.mem.load l1pte = 0 then do
    let (l2pte, m) ← m.memalign al (4 * TTB_L2_ENTRIES) SZ_1K
    let mem := m.mem.fill l2pte 0 (4 * TTB_L2_ENTRIES)
    let mem := mem.store l1pte l2pte
    let mem := mem.store l1pte (H.set_l1_pte_page_dcache (mem.load l1pte) nocache)
    pure { m with mem }
  else pure m

/-- Addresses repeat after `2 ^ 20` pages: a loop that goes on longer never ends. -/
def alloc_init_pte (m : Machine) (l1pte addr end_ pfn : Word) (nocache : Bool) :
    Except Fault Machine := do
  let m ← allocTable H al m l1pte nocache
  let s ← doWhile .endless (setPte H nocache) (fun s => s.addr ≠ end_) (2 ^ 20)
    { mem := m.mem, l2pte := l2pte_offset m.mem l1pte addr, addr, pfn }
  return { m with mem := s.mem }

structure SectLoop where
  mem : Memory
  l1pte : Word
  addr : Word
  phys : Word

def setSect (nocache : Bool) (s : SectLoop) : Except Fault SectLoop :=
  let mem := s.mem.store s.l1pte s.phys
  let mem := mem.store s.l1pte (H.set_l1_pte_sect_dcache (mem.load s.l1pte) nocache)
  pure { mem, phys := s.phys + TTB_SECT_SIZE, l1pte := s.l1pte + 4, addr := s.addr + TTB_SECT_SIZE }

def alloc_init_section (m : Machine) (l1pte addr end_ phys : Word) (nocache : Bool) :
    Except Fault Machine := do
  if (addr ||| end_ ||| phys) &&& ~~~TTB_SECT_MASK = 0 then
    let s ← doWhile .endless (setSect H nocache) (fun s => s.addr ≠ end_) (2 ^ 12)
      { mem := m.mem, l1pte, addr, phys }
    return { m with mem := s.mem }
  else alloc_init_pte H al m l1pte addr end_ (phys >>> PAGE_SHIFT) nocache

structure MapLoop where
  m : Machine
  l1pte : Word
  addr : Word
  phys_base : Word

def mapChunk (end_ : Word) (nocache : Bool) (s : MapLoop) : Except Fault MapLoop := do
  let next := H.l1sect_addr_end s.addr end_
  let m ← alloc_init_section H al s.m s.l1pte s.addr next s.phys_base nocache
  return { m, phys_base := s.phys_base + (next - s.addr), addr := next, l1pte := s.l1pte + 4 }

def create_mapping (m : Machine) (l1pgtable virt_base phys_base size : Word) (nocache : Bool) :
    Except Fault Machine := do
  let l1pgtable := if l1pgtable = 0 then m.sys_root_pgtable else l1pgtable
  let addr := virt_base &&& PAGE_MASK
  let length := ALIGN_UP (size + (virt_base &&& ~~~PAGE_MASK))
  let end_ := addr + length
  let s ← doWhile .endless (mapChunk H al end_ nocache) (fun s => s.addr ≠ end_) (2 ^ 12)
    { m, l1pte := l1pte_offset l1pgtable addr, addr, phys_base }
  return s.m

/-! ## Releasing -/

structure FreeLoop where
  mem : Memory
  pte : Word
  addr : Word

/-- One round of the two loops that clear entries. -/
def clearEntry (size : Word) (s : FreeLoop) : Except Fault FreeLoop :=
  pure { mem := s.mem.store s.pte 0, pte := s.pte + 4, addr := s.addr + size }

def free_l2_mapping (m : Machine) (l1pte addr end_ : Word) : Except Fault Machine := do
  let s ← doWhile .endless (clearEntry (BitVec.ofNat 32 PAGE_SIZE)) (fun s => s.addr ≠ end_)
    (2 ^ 20) { mem := m.mem, pte := l2pte_offset m.mem l1pte addr, addr }
  let m := { m with mem := s.mem }
  let l2pte := l2pte_first m.mem l1pte
  let found := (List.range TTB_L2_ENTRIES).any fun i => m.mem.load (entry l2pte i) ≠ 0
  if found then return m
  else
    let m ← m.free l2pte
    return { m with mem := m.mem.store l1pte 0 }

def free_l1_mapping (m : Machine) (l1pte addr end_ : Word) : Except Fault Machine := do
  if (addr ||| end_) &&& ~~~TTB_SECT_MASK = 0 then
    let s ← doWhile .endless (clearEntry TTB_SECT_SIZE) (fun s => s.addr ≠ end_) (2 ^ 12)
      { mem := m.mem, pte := l1pte, addr }
    return { m with mem := s.mem }
  else free_l2_mapping m l1pte addr end_

structure ReleaseLoop where
  m : Machine
  l1pte : Word
  addr : Word

def releaseChunk (end_ : Word) (s : ReleaseLoop) : Except Fault ReleaseLoop := do
  let next := H.l1sect_addr_end s.addr end_
  let m ← free_l1_mapping s.m s.l1pte s.addr next
  return { m, addr := next, l1pte := s.l1pte + 4 }

def release_mapping (m : Machine) (pgtable virt_base size : Word) : Except Fault Machine := do
  let pgtable := if pgtable = 0 then m.sys_root_pgtable else pgtable
  let addr := virt_base &&& PAGE_MASK
  let length := ALIGN_UP (size + (virt_base &&& ~~~PAGE_MASK))
  let end_ := addr + length
  let s ← doWhile .endless (releaseChunk H end_) (fun s => s.addr ≠ end_) (2 ^ 12)
    { m, l1pte := l1pte_offset pgtable addr, addr }
  return s.m

/-! ## Root tables -/

/-- `l1pte_index(CONFIG_KERNEL_VADDR)` is a parameter of the functions that stop there. -/
def pgtable_copy_kernel_area (kernel : Nat) (m : Machine) (l1pgtable : Word) : Machine :=
  { m with
    mem := (List.range' kernel (TTB_L1_ENTRIES - kernel)).foldl
      (fun mem i => mem.store (entry l1pgtable i) (mem.load (entry m.sys_root_pgtable i))) m.mem }

def new_root_pgtable (m : Machine) : Except Fault (Word × Machine) := do
  let (pgtable, m) ← m.memalign al (4 * TTB_L1_ENTRIES) SZ_16K
  return (pgtable, { m with mem := m.mem.fill pgtable 0 (4 * TTB_L1_ENTRIES) })

def resetEntry (pgtable : Word) (i : Nat) (m : Machine) : Except Fault Machine := do
  let l1pte := entry pgtable i
  if m.mem.load l1pte ≠ 0 then
    let m ←
      if !H.l1pte_is_sect (m.mem.load l1pte) then
        m.free (m.mem.load l1pte &&& TTB_L1_PAGE_ADDR_MASK)
      else pure m
    return { m with mem := m.mem.store l1pte 0 }
  else return m

def reset_root_pgtable (kernel : Nat) (m : Machine) (pgtable : Word) (remove : Bool) :
    Except Fault Machine := do
  let m ← forLoop kernel (resetEntry H pgtable) m
  if remove then m.free pgtable else return m

/-! ## Reading -/

def virt_to_phys_pt (m : Machine) (vaddr : Word) : Except Fault Word := do
  let l1pte := l1pte_offset m.current_pgtable vaddr
  let offset := vaddr &&& ~~~PAGE_MASK
  if m.mem.load l1pte = 0 then throw .bug
  else if H.l1pte_is_sect (m.mem.load l1pte) then
    return (m.mem.load l1pte &&& TTB_L1_SECT_ADDR_MASK) ||| offset
  else
    let l2pte := l2pte_offset m.mem l1pte vaddr
    return (m.mem.load l2pte &&& TTB_L2_ADDR_MASK) ||| offset

def do_translate (m : Machine) (vaddr : Word) : Except Fault Word := virt_to_phys_pt H m vaddr

/-- The walk of the hardware, which takes 20 bits of offset in a section; `none` is a fault. -/
def translate (pgtable : Word) (mem : Memory) (vaddr : Word) : Option Word :=
  let l1pte := l1pte_offset pgtable vaddr
  if mem.load l1pte = 0 then none
  else if H.l1pte_is_sect (mem.load l1pte) then
    some ((mem.load l1pte &&& TTB_L1_SECT_ADDR_MASK) ||| (vaddr &&& .lowMask 20))
  else
    let l2pte := l2pte_offset mem l1pte vaddr
    if mem.load l2pte = 0 then none
    else some ((mem.load l2pte &&& TTB_L2_ADDR_MASK) ||| (vaddr &&& .lowMask 12))

end
end SyeLabs.Mmu
