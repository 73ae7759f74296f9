import Mathlib.Data.Nat.Bitwise
import SyeLabs.Theory.Bytes

/-!
# Paged memory: `memsim.c`

The program is built in one of two geometries, with or without the attributes of step 3. An index
outside an array has no outcome. Printing is left out.
-/

namespace SyeLabs.Memsim

/-- `MEMORY_SIZE_SMALL` is 1 or 0. -/
inductive Geometry where
  | small
  | large
  deriving DecidableEq, Repr

namespace Geometry

def MEMORY_PAGE_NUM : Geometry → Nat
  | .small => 256
  | .large => 64

def MEMORY_PAGE_SIZE : Geometry → Nat
  | .small => 256
  | .large => 1024

def SHIFT_RIGHT : Geometry → Nat
  | .small => 8
  | .large => 10

def MASK : Geometry → BitVec 16
  | .small => 0xFF
  | .large => 0x3FF

end Geometry

abbrev Pte := BitVec 16

def VALID_BIT : Pte := 1
def RWX_BITS : Pte := 0x06
def RWX_POS : Nat := 1
def R_PATTERN : Pte := 0b01
def W_PATTERN : Pte := 0b10
def X_PATTERN : Pte := 0b11
def RWX_PATTERN : Pte := 0b00
def VALID_MASK : Pte := 0xFFFF

structure State (g : Geometry) where
  page_table : Fin g.MEMORY_PAGE_NUM → Pte
  main_mem : Fin g.MEMORY_PAGE_NUM → Fin g.MEMORY_PAGE_SIZE → Byte

variable {g : Geometry}

def virt_to_pte (s : State g) (vaddr : BitVec 16) : Option Pte :=
  let i := ((vaddr >>> g.SHIFT_RIGHT) &&& g.MASK).toNat
  if h : i < g.MEMORY_PAGE_NUM then some (s.page_table ⟨i, h⟩) else none

/-- The indices of `main_mem[pte >> SHIFT_RIGHT][((uint16_t)vaddr) & MASK]`. -/
def cell (g : Geometry) (pte : Pte) (vaddr : Word) :
    Option (Fin g.MEMORY_PAGE_NUM × Fin g.MEMORY_PAGE_SIZE) :=
  let i := (pte >>> g.SHIFT_RIGHT).toNat
  let j := (vaddr.setWidth 16 &&& g.MASK).toNat
  if hi : i < g.MEMORY_PAGE_NUM then
    if hj : j < g.MEMORY_PAGE_SIZE then some (⟨i, hi⟩, ⟨j, hj⟩) else none
  else none

def accessBits (pte : Pte) : Pte := (pte &&& RWX_BITS) >>> RWX_POS

/-- The tests of step 3 in `get_byte`; they pass if the attributes are not active. -/
def readFault (attributes : Bool) (pte : Pte) : Bool :=
  attributes && (pte &&& VALID_BIT != VALID_BIT ||
    (accessBits pte == W_PATTERN || accessBits pte == X_PATTERN))

/-- The tests of step 3 in `store_byte`. -/
def writeFault (attributes : Bool) (pte : Pte) : Bool :=
  attributes && (pte &&& VALID_BIT != VALID_BIT ||
    (accessBits pte != RWX_PATTERN && accessBits pte != W_PATTERN))

/-- The returned value, with `*byte` and the state after a call. -/
structure Result (g : Geometry) where
  ret : Int
  byte : Byte
  state : State g

def get_byte (attributes : Bool) (s : State g) (vaddr : Word) (byte : Byte) :
    Option (Result g) := do
  let pte ← virt_to_pte s (vaddr.setWidth 16)
  if readFault attributes pte then return ⟨-1, byte, s⟩
  else
    let (i, j) ← cell g pte vaddr
    return ⟨0, s.main_mem i j, s⟩

def State.setCell (s : State g) (i : Fin g.MEMORY_PAGE_NUM) (j : Fin g.MEMORY_PAGE_SIZE)
    (byte : Byte) : State g :=
  { s with main_mem := Function.update s.main_mem i (Function.update (s.main_mem i) j byte) }

@[simp] theorem State.setCell_self (s : State g) (i : Fin g.MEMORY_PAGE_NUM)
    (j : Fin g.MEMORY_PAGE_SIZE) (byte : Byte) :
    (s.setCell i j byte).main_mem i = Function.update (s.main_mem i) j byte :=
  Function.update_self _ _ _

theorem State.setCell_of_ne (s : State g) {i k : Fin g.MEMORY_PAGE_NUM}
    (j : Fin g.MEMORY_PAGE_SIZE) (byte : Byte) (h : k ≠ i) :
    (s.setCell i j byte).main_mem k = s.main_mem k := Function.update_of_ne h _ _

def store_byte (attributes : Bool) (s : State g) (vaddr : Word) (byte : Byte) :
    Option (Result g) := do
  let pte ← virt_to_pte s (vaddr.setWidth 16)
  if writeFault attributes pte then return ⟨-1, byte, s⟩
  else
    let (i, j) ← cell g pte vaddr
    return ⟨0, byte, s.setCell i j byte⟩

/-- Entry `i` of the table that `init_page_table` sets up. -/
def initPte (g : Geometry) (attributes : Bool) (i : Nat) : Pte :=
  let pte := BitVec.ofNat 16 ((g.MEMORY_PAGE_NUM - 1 - i) <<< g.SHIFT_RIGHT)
  if attributes then
    let pte := if 10 ≤ i ∧ i ≤ 12 then pte ||| (R_PATTERN <<< RWX_POS) else pte
    let pte := pte ||| VALID_BIT
    if 5 ≤ i ∧ i ≤ 8 then pte &&& (VALID_MASK - 1) else pte
  else pte

def init_page_table (attributes : Bool) (s : State g) : State g :=
  { s with page_table := fun i => initPte g attributes i }

/-- The state when `main` has called `init_page_table`. -/
def start (g : Geometry) (attributes : Bool) : State g :=
  init_page_table attributes ⟨fun _ => 0, fun _ _ => 0⟩

/-- A call; `byte` is the byte to store, or what the caller's variable holds before a read. -/
inductive Call where
  | get_byte (vaddr : Word) (byte : Byte)
  | store_byte (vaddr : Word) (byte : Byte)

def Call.vaddr : Call → Word
  | .get_byte vaddr _ => vaddr
  | .store_byte vaddr _ => vaddr

def step (attributes : Bool) (s : State g) : Call → Option (Result g)
  | .get_byte vaddr byte => get_byte attributes s vaddr byte
  | .store_byte vaddr byte => store_byte attributes s vaddr byte

/-- The results of a sequence of calls. -/
def run (attributes : Bool) (s : State g) : List Call → Option (List (Result g))
  | [] => some []
  | c :: calls => do
    let r ← step attributes s c
    let rs ← run attributes r.state calls
    return r :: rs

/-! ## Indices -/

section
variable {vaddr : Word}

theorem setWidth_toNat (h : vaddr.toNat < 65536) : (vaddr.setWidth 16).toNat = vaddr.toNat := by
  rw [BitVec.toNat_setWidth]
  exact Nat.mod_eq_of_lt h

/-- The page number of an address, and its offset. -/
def page (g : Geometry) (vaddr : Word) : Nat := vaddr.toNat / g.MEMORY_PAGE_SIZE
def offset (g : Geometry) (vaddr : Word) : Nat := vaddr.toNat % g.MEMORY_PAGE_SIZE

theorem page_lt (h : vaddr.toNat < 65536) : page g vaddr < g.MEMORY_PAGE_NUM := by
  unfold page
  cases g <;> simp only [Geometry.MEMORY_PAGE_NUM, Geometry.MEMORY_PAGE_SIZE] <;> omega

theorem offset_lt (vaddr : Word) : offset g vaddr < g.MEMORY_PAGE_SIZE :=
  Nat.mod_lt _ (by cases g <;> decide)

theorem pageIndex (h : vaddr.toNat < 65536) :
    ((vaddr.setWidth 16 >>> g.SHIFT_RIGHT) &&& g.MASK).toNat = page g vaddr := by
  rw [BitVec.toNat_and, BitVec.toNat_ushiftRight, setWidth_toNat h, Nat.shiftRight_eq_div_pow]
  unfold page
  cases g with
  | small =>
    have hmask := Nat.and_two_pow_sub_one_eq_mod (vaddr.toNat / 2 ^ 8) 8
    exact hmask.trans (Nat.mod_eq_of_lt (by omega))
  | large =>
    have hmask := Nat.and_two_pow_sub_one_eq_mod (vaddr.toNat / 2 ^ 10) 10
    exact hmask.trans (Nat.mod_eq_of_lt (by omega))

theorem offsetIndex (h : vaddr.toNat < 65536) :
    (vaddr.setWidth 16 &&& g.MASK).toNat = offset g vaddr := by
  rw [BitVec.toNat_and, setWidth_toNat h]
  cases g with
  | small => exact Nat.and_two_pow_sub_one_eq_mod vaddr.toNat 8
  | large => exact Nat.and_two_pow_sub_one_eq_mod vaddr.toNat 10

theorem frame_lt (pte : Pte) : (pte >>> g.SHIFT_RIGHT).toNat < g.MEMORY_PAGE_NUM := by
  have := pte.isLt
  rw [BitVec.toNat_ushiftRight, Nat.shiftRight_eq_div_pow]
  cases g <;> simp only [Geometry.MEMORY_PAGE_NUM, Geometry.SHIFT_RIGHT] <;> omega

/-- The frame that an entry names. -/
def frame (g : Geometry) (pte : Pte) : Fin g.MEMORY_PAGE_NUM := ⟨_, frame_lt pte⟩

/-- The entry that an address selects. -/
def pteOf (table : Fin g.MEMORY_PAGE_NUM → Pte) (h : vaddr.toNat < 65536) : Pte :=
  table ⟨page g vaddr, page_lt h⟩

theorem virt_to_pte_eq (s : State g) (h : vaddr.toNat < 65536) :
    virt_to_pte s (vaddr.setWidth 16) = some (pteOf s.page_table h) := by
  have hlt : ((vaddr.setWidth 16 >>> g.SHIFT_RIGHT) &&& g.MASK).toNat < g.MEMORY_PAGE_NUM := by
    rw [pageIndex h]
    exact page_lt h
  rw [virt_to_pte, dif_pos hlt, pteOf]
  simp only [pageIndex h]

theorem cell_eq (pte : Pte) (h : vaddr.toNat < 65536) :
    cell g pte vaddr = some (frame g pte, ⟨offset g vaddr, offset_lt vaddr⟩) := by
  have hlt : (vaddr.setWidth 16 &&& g.MASK).toNat < g.MEMORY_PAGE_SIZE := by
    rw [offsetIndex h]
    exact offset_lt vaddr
  rw [cell, dif_pos (frame_lt pte), dif_pos hlt]
  simp only [offsetIndex h, frame]

end

/-! ## The two calls -/

section
variable {attributes : Bool} {s : State g} {vaddr : Word} {byte : Byte}

theorem get_byte_eq (h : vaddr.toNat < 65536) : get_byte attributes s vaddr byte =
    some (if readFault attributes (pteOf s.page_table h) then ⟨-1, byte, s⟩
      else ⟨0, s.main_mem (frame g (pteOf s.page_table h)) ⟨offset g vaddr, offset_lt vaddr⟩,
        s⟩) := by
  rw [get_byte, virt_to_pte_eq s h, Option.bind_eq_bind, Option.bind_some]
  split
  · rfl
  · rw [cell_eq _ h]
    rfl

theorem store_byte_eq (h : vaddr.toNat < 65536) : store_byte attributes s vaddr byte =
    some (if writeFault attributes (pteOf s.page_table h) then ⟨-1, byte, s⟩
      else ⟨0, byte,
        s.setCell (frame g (pteOf s.page_table h)) ⟨offset g vaddr, offset_lt vaddr⟩ byte⟩) := by
  rw [store_byte, virt_to_pte_eq s h, Option.bind_eq_bind, Option.bind_some]
  split
  · rfl
  · rw [cell_eq _ h]
    rfl

end
end SyeLabs.Memsim
