import SyeLabs.Mmu.Configure
import SyeLabs.Kernel.Privacy

/-!
# From `mmu_configure` to the first process

The table that `mmu_configure` makes is all that the calls of the kernel rely on: its window of the
kernel is what each process gets, and nothing of the user area.
-/

namespace SyeLabs.Kernel

open Mmu

variable {H : Header} {al : Allocators} {cfg : Config} {b : Board} {m m' : Machine}
  {root fdt_addr v : Word}

/-- Where the image of the kernel, the device tree and the UART are. -/
structure BootLayout (cfg : Config) (b : Board) (m : Machine) (root fdt_addr : Word) : Prop where
  board : b.Ok
  kernel : cfg.kernel = l1pte_index b.CONFIG_KERNEL_VADDR
  sys : b.CONFIG_RAM_BASE + b.TTB_L1_SYS_OFFSET = root
  blocks : BlocksOk (live m.trace)
  table : (.image, rootRegion root) ∈ live m.trace
  frames : onPool .frames m.trace = []
  image : cfg.RootLive m
  outside : ∀ q, cfg.InRootImage q → (rootRegion root).Disjoint (frameRegion q)
  fdt_page : 2 ^ 12 ∣ fdt_addr.toNat
  uart_page : 2 ^ 12 ∣ b.CONFIG_UART_LL_PADDR.toNat
  fixmap : l1pte_index b.CONFIG_KERNEL_VADDR + 64 ≤ l1pte_index cfg.FIXMAP_MAPPING
  fixmap_fdt : l1pte_index cfg.FIXMAP_MAPPING ≠ l1pte_index fdt_addr
  fixmap_uart : l1pte_index cfg.FIXMAP_MAPPING ≠ l1pte_index b.CONFIG_UART_LL_PADDR

/-- The kernel when the MMU has been switched on. -/
def configuredWorld (H : Header) (b : Board) (m : Machine) (root fdt_addr : Word) : World where
  procs := {}
  m := mmu_configure H b m root fdt_addr
  refcount := fun _ => 0

/-- What the CPU finds at the addresses of the kernel window. -/
def kernelWindow (b : Board) (v : Word) : Option Word :=
  if (v - b.CONFIG_KERNEL_VADDR).toNat < 2 ^ 26 then
    some (v - b.CONFIG_KERNEL_VADDR + b.CONFIG_RAM_BASE)
  else none

/-- The walks of the hardware at the addresses that are not in the sections of the device tree and
the UART, in the table of the system and in that of a process. -/
structure BootView (H : Header) (al : Allocators) (cfg : Config) (b : Board) (m : Machine)
    (root fdt_addr : Word) : Prop where
  system : ∀ v, l1pte_index v ≠ l1pte_index fdt_addr →
    l1pte_index v ≠ l1pte_index b.CONFIG_UART_LL_PADDR →
      translate H root (mmu_configure H b m root fdt_addr).mem v =
        if l1pte_index v = l1pte_index b.CONFIG_RAM_BASE then some v else kernelWindow b v
  process : ∀ pgtable m', newImage al cfg (mmu_configure H b m root fdt_addr) = .ok (pgtable, m') →
    ∀ v, (l1pte_index v < cfg.kernel → translate H pgtable m'.mem v = none) ∧
      (cfg.kernel ≤ l1pte_index v → l1pte_index v ≠ l1pte_index fdt_addr →
        l1pte_index v ≠ l1pte_index b.CONFIG_UART_LL_PADDR →
          translate H pgtable m'.mem v = kernelWindow b v)
  started : World.Started H cfg (configuredWorld H b m root fdt_addr)

section
variable (L : BootLayout cfg b m root fdt_addr)
include L

/-- The walk in the window of the kernel comes from the entry alone. -/
theorem BootLayout.window_entry : l1 (mmu_configure H b m root fdt_addr).mem root
    (l1pte_index cfg.FIXMAP_MAPPING) = 0 := by
  have hfix := L.fixmap
  have hbelow := L.board.below
  have hram := l1pte_index_eq b.CONFIG_RAM_BASE
  have hkernel := l1pte_index_eq b.CONFIG_KERNEL_VADDR
  rw [mmu_configure_l1 L.board (l1pte_index_lt _), if_neg L.fixmap_uart, if_neg L.fixmap_fdt,
    if_neg (by omega), if_neg (by omega)]

section
variable (hset : ∀ w c, 2 ^ 12 ∣ w.toNat → H.l1pte_is_sect (H.set_l1_pte_sect_dcache w c) = true)
include hset

theorem BootLayout.not_isTable {i : Nat} (hi : i < 4096) :
    ¬IsTable H (l1 (mmu_configure H b m root fdt_addr).mem root i) := by
  have hsect : ∀ w c, 2 ^ 12 ∣ w.toNat → ¬IsTable H (H.set_l1_pte_sect_dcache w c) :=
    fun w c hw => not_isTable_sect (hset w c hw)
  have hram := L.board.ram
  have hsize : TTB_SECT_SIZE.toNat = 2 ^ 20 := rfl
  rw [mmu_configure_l1 L.board hi]
  split_ifs
  · exact hsect _ _ L.uart_page
  · exact hsect _ _ L.fdt_page
  · refine hsect _ _ ?_
    rw [BitVec.toNat_add, BitVec.toNat_mul, BitVec.toNat_ofNat, hsize]
    omega
  · exact hsect _ _ (by omega)
  · exact not_isTable_zero

theorem BootLayout.started : World.Started H cfg (configuredWorld H b m root fdt_addr) where
  proc_list := rfl
  refcount _ := rfl
  frames := L.frames
  sys := by
    have hsys : (configuredWorld H b m root fdt_addr).m.sys_root_pgtable = root := L.sys
    refine ⟨?_, fun i hi => ?_, ?_, L.image⟩
    · rw [hsys]
      exact ⟨L.blocks, ⟨_, L.table⟩, fun i hi ht => absurd ht (L.not_isTable hset hi),
        fun i hi _ _ ht => absurd ht (L.not_isTable hset hi)⟩
    · rw [hsys]
      have hroom := L.board.room
      have hkernel := l1pte_index_eq b.CONFIG_KERNEL_VADDR
      have hn := L.kernel
      exact L.not_isTable hset (by omega)
    · rw [hsys]
      exact L.window_entry
  outside q hq := by
    have hsys : (configuredWorld H b m root fdt_addr).m.sys_root_pgtable = root := L.sys
    rw [hsys]
    exact L.outside q hq

/-- What there is after `mmu_configure`: the table of the system, the table of any process that is
made from it, and the state from which all runs start. -/
theorem mmu_configure_bootView : BootView H al cfg b m root fdt_addr where
  system v hfdt huart := mmu_configure_translate L.board hfdt huart
  process pgtable m' h v := by
    have hn : cfg.kernel ≤ 4096 := by
      have := L.board.room
      have := l1pte_index_eq b.CONFIG_KERNEL_VADDR
      have := L.kernel
      omega
    have hsys : (mmu_configure H b m root fdt_addr).sys_root_pgtable = root := L.sys
    have hlive : (Pool.image, rootRegion (mmu_configure H b m root fdt_addr).sys_root_pgtable) ∈
        live (mmu_configure H b m root fdt_addr).trace := by
      rw [hsys]
      exact L.table
    have hblocks : BlocksOk (live (mmu_configure H b m root fdt_addr).trace) := L.blocks
    have N := (newImage_spec hblocks hn hlive).of_ok h
    have hentry := N.entries _ (l1pte_index_lt v)
    rw [hsys] at hentry
    refine ⟨fun hv => ?_, fun hv hfdt huart => ?_⟩
    · rw [if_pos hv] at hentry
      exact translate_empty hentry
    · rw [if_neg (Nat.not_lt.mpr hv)] at hentry
      rw [translate_of_not_isTable (L.not_isTable hset (l1pte_index_lt v)) hentry,
        mmu_configure_translate L.board hfdt huart, if_neg, kernelWindow]
      -- the RAM is below the kernel area
      have hbelow := L.board.below
      have hram := l1pte_index_eq b.CONFIG_RAM_BASE
      have hkernel := l1pte_index_eq b.CONFIG_KERNEL_VADDR
      have hram20 := L.board.ram
      have hkernel20 := L.board.kernel
      have hcfg := L.kernel
      omega
  started := L.started hset

end

end

/-! ## A board -/

/-- RAM from 0 on, the kernel from 16 MB on. -/
def smallBoard : Board where
  CONFIG_RAM_BASE := 0
  CONFIG_KERNEL_VADDR := 0x1000000
  CONFIG_UART_LL_PADDR := 0x9000000
  TTB_L1_SYS_OFFSET := 0x300000

theorem mmu_configure_bootView_small : BootView Arm.header World.zoned World.narrow smallBoard
    World.booted.m 0x300000 0x8000000 := by
  refine mmu_configure_bootView ?_ fun w c hw => ?_
  · exact
      { board := ⟨by decide, by decide, by decide, by decide⟩
        kernel := by decide
        sys := by decide
        blocks := World.booted_booted.sys.tables.blocks
        table := by decide
        frames := rfl
        image := World.booted_booted.sys.image
        outside := World.started.outside
        fdt_page := by decide
        uart_page := by decide
        fixmap := by decide
        fixmap_fdt := by decide
        fixmap_uart := by decide }
  · change Arm.l1pte_is_sect (w ||| Arm.sectBits c) = true
    rw [Arm.l1pte_is_sect_or (by decide) hw (by cases c <;> decide)]
    cases c <;> decide

end SyeLabs.Kernel
