import SyeLabs.Mmu.Translation

/-!
# The first table of the system

`mmu_configure` runs before the MMU is on and maps sections only: the first megabyte of the RAM to
itself, the window of the kernel, the device tree and the UART.
-/

namespace SyeLabs.Mmu

variable {H : Header} {mem mem' : Memory} {root v : Word} {i k n : Nat}

/-- The constants of a board. -/
structure Board where
  CONFIG_RAM_BASE : Word
  CONFIG_KERNEL_VADDR : Word
  CONFIG_UART_LL_PADDR : Word
  TTB_L1_SYS_OFFSET : Word

/-- `__pgtable[i] = phys`, and the attributes of a section. -/
def mapSection (H : Header) (mem : Memory) (pgtable : Word) (i : Nat) (phys : Word)
    (nocache : Bool) : Memory :=
  let mem := mem.store (entry pgtable i) phys
  mem.store (entry pgtable i) (H.set_l1_pte_sect_dcache (mem.load (entry pgtable i)) nocache)

/-- `mmu_configure`, as far as memory goes. The pointer to the table is its physical address. -/
def mmu_configure (H : Header) (b : Board) (m : Machine) (l1pgtable fdt_addr : Word) : Machine :=
  let mem := (List.range TTB_L1_ENTRIES).foldl (fun mem i => mem.store (entry l1pgtable i) 0) m.mem
  let mem := mapSection H mem l1pgtable (l1pte_index b.CONFIG_RAM_BASE) b.CONFIG_RAM_BASE false
  let mem := (List.range 64).foldl (fun mem i =>
    mapSection H mem l1pgtable (l1pte_index b.CONFIG_KERNEL_VADDR + i)
      (b.CONFIG_RAM_BASE + BitVec.ofNat 32 i * TTB_SECT_SIZE) false) mem
  let mem := mapSection H mem l1pgtable (l1pte_index fdt_addr) fdt_addr false
  let mem := mapSection H mem l1pgtable (l1pte_index b.CONFIG_UART_LL_PADDR)
    b.CONFIG_UART_LL_PADDR true
  { m with
    mem
    sys_root_pgtable := b.CONFIG_RAM_BASE + b.TTB_L1_SYS_OFFSET
    current_pgtable := l1pgtable }

/-! ## Entries -/

theorem l1_store_zero (hi : i < 4096) (hk : k < 4096) :
    l1 (mem.store (entry root i) 0) root k = if k = i then 0 else l1 mem root k := by
  split
  · next h =>
    subst h
    exact Memory.load_store_self _ _ _
  · next h => exact Memory.load_store_of_disjoint (disjoint_entry (by omega) (by omega) h)

theorem l1_mapSection (hi : i < 4096) (hk : k < 4096) (phys : Word) (nocache : Bool) :
    l1 (mapSection H mem root i phys nocache) root k =
      if k = i then H.set_l1_pte_sect_dcache phys nocache else l1 mem root k := by
  rw [mapSection, Memory.store_store_self, Memory.load_store_self]
  split
  · next h =>
    subst h
    exact Memory.load_store_self _ _ _
  · next h => exact Memory.load_store_of_disjoint (disjoint_entry (by omega) (by omega) h)

/-- The loop that empties the table. -/
theorem l1_cleared (mem : Memory) (hn : n ≤ 4096) (hk : k < 4096) :
    l1 ((List.range n).foldl (fun mem i => mem.store (entry root i) 0) mem) root k =
      if k < n then 0 else l1 mem root k := by
  induction n with
  | zero => exact (if_neg (Nat.not_lt_zero k)).symm
  | succ n ih =>
    rw [List.range_succ, List.foldl_append, List.foldl_cons, List.foldl_nil,
      l1_store_zero (by omega) hk, ih (by omega)]
    split_ifs <;> first | rfl | omega

/-- The loop over the window of the kernel. -/
theorem l1_window (mem : Memory) (phys : Nat → Word) {base : Nat} (hn : base + n ≤ 4096)
    (hk : k < 4096) :
    l1 ((List.range n).foldl (fun mem i => mapSection H mem root (base + i) (phys i) false) mem)
        root k =
      if base ≤ k ∧ k < base + n then H.set_l1_pte_sect_dcache (phys (k - base)) false
      else l1 mem root k := by
  induction n with
  | zero => exact (if_neg (by omega)).symm
  | succ n ih =>
    rw [List.range_succ, List.foldl_append, List.foldl_cons, List.foldl_nil,
      l1_mapSection (by omega) hk, ih (by omega)]
    by_cases hkn : k = base + n
    · subst hkn
      rw [if_pos rfl, if_pos (by omega), Nat.add_sub_cancel_left]
    · rw [if_neg hkn]
      exact if_congr (by omega) rfl rfl

/-! ## The walk -/

/-- An address in a section. -/
theorem translate_section {phys : Word} {c : Bool} (hphys : 2 ^ 20 ∣ phys.toNat)
    (h : l1 mem root (l1pte_index v) = H.set_l1_pte_sect_dcache phys c) :
    ∃ x : Word, translate H root mem v = some x ∧ x.toNat = phys.toNat + v.toNat % 2 ^ 20 := by
  have hload : mem.load (l1pte_offset root v) = H.set_l1_pte_sect_dcache phys c := h
  refine ⟨phys ||| (v &&& Word.lowMask 20), ?_, ?_⟩
  · simp only [translate, hload]
    rw [if_neg (H.sect_ne_zero _ _ hphys), if_pos (H.sect_is_sect _ _ hphys),
      H.sect_addr _ _ hphys]
  · have hlow : (v &&& Word.lowMask 20).toNat = v.toNat % 2 ^ 20 :=
      Word.and_lowMask_toNat _ (by decide)
    have hlt : (v &&& Word.lowMask 20).toNat < 2 ^ 20 := by
      rw [hlow]
      exact Nat.mod_lt _ (by decide)
    rw [Arm.or_toNat hphys hlt, hlow]

theorem translate_empty (h : l1 mem root (l1pte_index v) = 0) : translate H root mem v = none :=
  if_pos h

/-- The walk ends at an entry that refers to no second-level table. -/
theorem translate_of_not_isTable {root' : Word} (hs : ¬IsTable H (l1 mem root (l1pte_index v)))
    (h : l1 mem' root' (l1pte_index v) = l1 mem root (l1pte_index v)) :
    translate H root' mem' v = translate H root mem v := by
  have hload : mem'.load (l1pte_offset root' v) = mem.load (l1pte_offset root v) := h
  simp only [translate, hload]
  split
  · rfl
  · next h0 =>
    split
    · rfl
    · next hsect => exact absurd ⟨h0, Bool.eq_false_of_not_eq_true hsect⟩ hs

/-- The RAM lies below the kernel area, and the window of the kernel ends in the address space. -/
structure Board.Ok (b : Board) : Prop where
  ram : 2 ^ 20 ∣ b.CONFIG_RAM_BASE.toNat
  kernel : 2 ^ 20 ∣ b.CONFIG_KERNEL_VADDR.toNat
  below : b.CONFIG_RAM_BASE.toNat < b.CONFIG_KERNEL_VADDR.toNat
  room : b.CONFIG_KERNEL_VADDR.toNat + 2 ^ 26 ≤ 2 ^ 32

section
variable {b : Board} {m : Machine} {fdt_addr : Word}

theorem mmu_configure_l1 (hb : b.Ok) (hk : k < 4096) :
    l1 (mmu_configure H b m root fdt_addr).mem root k =
      if k = l1pte_index b.CONFIG_UART_LL_PADDR then
        H.set_l1_pte_sect_dcache b.CONFIG_UART_LL_PADDR true
      else if k = l1pte_index fdt_addr then H.set_l1_pte_sect_dcache fdt_addr false
      else if l1pte_index b.CONFIG_KERNEL_VADDR ≤ k ∧
          k < l1pte_index b.CONFIG_KERNEL_VADDR + 64 then
        H.set_l1_pte_sect_dcache (b.CONFIG_RAM_BASE +
          BitVec.ofNat 32 (k - l1pte_index b.CONFIG_KERNEL_VADDR) * TTB_SECT_SIZE) false
      else if k = l1pte_index b.CONFIG_RAM_BASE then
        H.set_l1_pte_sect_dcache b.CONFIG_RAM_BASE false
      else 0 := by
  have hbase : l1pte_index b.CONFIG_KERNEL_VADDR + 64 ≤ 4096 := by
    have := hb.room
    rw [l1pte_index_eq]
    omega
  rw [mmu_configure, l1_mapSection (l1pte_index_lt _) hk, l1_mapSection (l1pte_index_lt _) hk,
    l1_window _ (fun i => b.CONFIG_RAM_BASE + BitVec.ofNat 32 i * TTB_SECT_SIZE) hbase hk,
    l1_mapSection (l1pte_index_lt _) hk, l1_cleared m.mem (n := TTB_L1_ENTRIES) le_rfl hk,
    if_pos (show k < TTB_L1_ENTRIES from hk)]

/-- What the CPU finds at each address when the MMU has been switched on: the first megabyte of the
RAM where it is, and 64 megabytes of the RAM in the window of the kernel. -/
theorem mmu_configure_translate (hb : b.Ok) (hfdt : l1pte_index v ≠ l1pte_index fdt_addr)
    (huart : l1pte_index v ≠ l1pte_index b.CONFIG_UART_LL_PADDR) :
    translate H root (mmu_configure H b m root fdt_addr).mem v =
      if l1pte_index v = l1pte_index b.CONFIG_RAM_BASE then some v
      else if (v - b.CONFIG_KERNEL_VADDR).toNat < 2 ^ 26 then
        some (v - b.CONFIG_KERNEL_VADDR + b.CONFIG_RAM_BASE)
      else none := by
  have hentry : l1 (mmu_configure H b m root fdt_addr).mem root (l1pte_index v) = _ :=
    mmu_configure_l1 hb (l1pte_index_lt v)
  rw [if_neg huart, if_neg hfdt] at hentry
  have hv := v.isLt
  have hvi := l1pte_index_eq v
  have hrami := l1pte_index_eq b.CONFIG_RAM_BASE
  have hkerneli := l1pte_index_eq b.CONFIG_KERNEL_VADDR
  have hsub : (v - b.CONFIG_KERNEL_VADDR).toNat =
      (2 ^ 32 - b.CONFIG_KERNEL_VADDR.toNat + v.toNat) % 2 ^ 32 := BitVec.toNat_sub ..
  obtain ⟨hram20, hkernel, hbelow, hroom⟩ := hb
  by_cases hsame : l1pte_index v = l1pte_index b.CONFIG_RAM_BASE
  · rw [if_neg (by omega), if_pos hsame] at hentry
    obtain ⟨x, hx, hto⟩ := translate_section hram20 hentry
    rw [if_pos hsame, hx]
    exact congrArg some (BitVec.eq_of_toNat_eq (by omega))
  · rw [if_neg hsame]
    by_cases hwin : (v - b.CONFIG_KERNEL_VADDR).toNat < 2 ^ 26
    · rw [if_pos (by omega)] at hentry
      have hphys : (b.CONFIG_RAM_BASE + BitVec.ofNat 32 (l1pte_index v -
          l1pte_index b.CONFIG_KERNEL_VADDR) * TTB_SECT_SIZE).toNat = b.CONFIG_RAM_BASE.toNat +
            (l1pte_index v - l1pte_index b.CONFIG_KERNEL_VADDR) * 2 ^ 20 := by
        have hsize : TTB_SECT_SIZE.toNat = 2 ^ 20 := rfl
        rw [BitVec.toNat_add, BitVec.toNat_mul, BitVec.toNat_ofNat, hsize]
        omega
      obtain ⟨x, hx, hto⟩ := translate_section (by omega) hentry
      rw [if_pos hwin, hx]
      refine congrArg some (BitVec.eq_of_toNat_eq ?_)
      rw [hto, hphys, BitVec.toNat_add, hsub]
      omega
    · rw [if_neg (by omega), if_neg hsame] at hentry
      rw [if_neg hwin]
      exact translate_empty hentry

end

end SyeLabs.Mmu
