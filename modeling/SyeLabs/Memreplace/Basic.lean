import Mathlib.Logic.Function.Basic
import Mathlib.Data.Fintype.Basic
import SyeLabs.Theory.Scan

/-!
# The page replacement simulator `memreplace.c`

The global arrays of the program are functions on `Fin n`, for any number `n` of pages where
the code only loops over `NB_PAGES`. A `uint8_t` is a `BitVec 8`; the masks are applied to
promoted integers in the source and truncated on assignment, which is the same operation on
eight bits. Printing and the graphical front end are left out.
-/

namespace SyeLabs.Memreplace
open SyeLabs.Scan

abbrev NB_PAGES : Nat := 16
def DELTA : Int := 2

def REF_BIT_MASK : BitVec 8 := 0x04
def SWAP_BIT_MASK : BitVec 8 := 0x02
def VALID_BIT_MASK : BitVec 8 := 0x01

/-! ## Entries of the page table -/

section
variable (e : BitVec 8)

/-- `e & VALID_BIT_MASK`, as a condition. -/
def isValid : Bool := e &&& VALID_BIT_MASK != 0

/-- `e & SWAP_BIT_MASK`, as a condition. -/
def isSwapped : Bool := e &&& SWAP_BIT_MASK != 0

/-- `e & REF_BIT_MASK`, as a condition. -/
def isReferenced : Bool := e &&& REF_BIT_MASK != 0

/-- `e &= ~VALID_BIT_MASK; e |= SWAP_BIT_MASK;` -/
def swapOut : BitVec 8 := e &&& ~~~VALID_BIT_MASK ||| SWAP_BIT_MASK

/-- `e &= ~SWAP_BIT_MASK; e |= VALID_BIT_MASK;` -/
def swapIn : BitVec 8 := e &&& ~~~SWAP_BIT_MASK ||| VALID_BIT_MASK

/-- `e &= ~SWAP_BIT_MASK;` -/
def clearSwap : BitVec 8 := e &&& ~~~SWAP_BIT_MASK

/-- `e &= ~REF_BIT_MASK;` -/
def clearRef : BitVec 8 := e &&& ~~~REF_BIT_MASK

/-- `e |= REF_BIT_MASK; e |= VALID_BIT_MASK;` -/
def reference : BitVec 8 := e ||| REF_BIT_MASK ||| VALID_BIT_MASK

/-- The page number and the unused bit of an entry. -/
def tag : BitVec 8 := e &&& ~~~(REF_BIT_MASK ||| SWAP_BIT_MASK ||| VALID_BIT_MASK)

/-- Each mask is one bit. -/
theorem and_twoPow_ne_zero (i : Nat) (hi : i < 8) :
    (e &&& BitVec.twoPow 8 i != 0) = e.getLsbD i := by
  rw [BitVec.and_twoPow]
  cases e.getLsbD i with
  | false => rfl
  | true =>
    have hbit : (BitVec.twoPow 8 i).getLsbD i = true := by simp [hi]
    rw [if_pos rfl, bne_iff_ne]
    intro h0
    simp [h0] at hbit

theorem isValid_eq : isValid e = e.getLsbD 0 := and_twoPow_ne_zero e 0 (by decide)
theorem isSwapped_eq : isSwapped e = e.getLsbD 1 := and_twoPow_ne_zero e 1 (by decide)
theorem isReferenced_eq : isReferenced e = e.getLsbD 2 := and_twoPow_ne_zero e 2 (by decide)

@[simp] theorem isValid_swapOut : isValid (swapOut e) = false := by
  simp [isValid_eq, swapOut, VALID_BIT_MASK, SWAP_BIT_MASK]
@[simp] theorem isValid_swapIn : isValid (swapIn e) = true := by
  simp [isValid_eq, swapIn, VALID_BIT_MASK, SWAP_BIT_MASK]
@[simp] theorem isValid_clearSwap : isValid (clearSwap e) = isValid e := by
  simp [isValid_eq, clearSwap, SWAP_BIT_MASK]
@[simp] theorem isValid_clearRef : isValid (clearRef e) = isValid e := by
  simp [isValid_eq, clearRef, REF_BIT_MASK]
@[simp] theorem isValid_reference : isValid (reference e) = true := by
  simp [isValid_eq, reference, VALID_BIT_MASK]

@[simp] theorem isSwapped_swapOut : isSwapped (swapOut e) = true := by
  simp [isSwapped_eq, swapOut, SWAP_BIT_MASK]
@[simp] theorem isSwapped_swapIn : isSwapped (swapIn e) = false := by
  simp [isSwapped_eq, swapIn, VALID_BIT_MASK, SWAP_BIT_MASK]
@[simp] theorem isSwapped_clearSwap : isSwapped (clearSwap e) = false := by
  simp [isSwapped_eq, clearSwap, SWAP_BIT_MASK]
@[simp] theorem isSwapped_clearRef : isSwapped (clearRef e) = isSwapped e := by
  simp [isSwapped_eq, clearRef, REF_BIT_MASK]
@[simp] theorem isSwapped_reference : isSwapped (reference e) = isSwapped e := by
  simp [isSwapped_eq, reference, REF_BIT_MASK, VALID_BIT_MASK]

@[simp] theorem isReferenced_swapOut : isReferenced (swapOut e) = isReferenced e := by
  simp [isReferenced_eq, swapOut, VALID_BIT_MASK, SWAP_BIT_MASK]
@[simp] theorem isReferenced_swapIn : isReferenced (swapIn e) = isReferenced e := by
  simp [isReferenced_eq, swapIn, VALID_BIT_MASK, SWAP_BIT_MASK]
@[simp] theorem isReferenced_clearSwap : isReferenced (clearSwap e) = isReferenced e := by
  simp [isReferenced_eq, clearSwap, SWAP_BIT_MASK]
@[simp] theorem isReferenced_clearRef : isReferenced (clearRef e) = false := by
  simp [isReferenced_eq, clearRef, REF_BIT_MASK]
@[simp] theorem isReferenced_reference : isReferenced (reference e) = true := by
  simp [isReferenced_eq, reference, REF_BIT_MASK]

/-- Setting a bit of the state. -/
theorem tag_or {m : BitVec 8}
    (h : m &&& ~~~(REF_BIT_MASK ||| SWAP_BIT_MASK ||| VALID_BIT_MASK) = 0#8) :
    tag (e ||| m) = tag e := by
  rw [tag, BitVec.and_or_distrib_right, h, BitVec.or_zero]
  rfl

/-- Clearing one. -/
theorem tag_and {m : BitVec 8}
    (h : m &&& ~~~(REF_BIT_MASK ||| SWAP_BIT_MASK ||| VALID_BIT_MASK) =
      ~~~(REF_BIT_MASK ||| SWAP_BIT_MASK ||| VALID_BIT_MASK)) :
    tag (e &&& m) = tag e := by
  rw [tag, BitVec.and_assoc, h]
  rfl

@[simp] theorem tag_clearSwap : tag (clearSwap e) = tag e := tag_and e rfl
@[simp] theorem tag_clearRef : tag (clearRef e) = tag e := tag_and e rfl
@[simp] theorem tag_swapOut : tag (swapOut e) = tag e := (tag_or _ rfl).trans (tag_and e rfl)
@[simp] theorem tag_swapIn : tag (swapIn e) = tag e := (tag_or _ rfl).trans (tag_and e rfl)
@[simp] theorem tag_reference : tag (reference e) = tag e := (tag_or _ rfl).trans (tag_or e rfl)

theorem clearRef_of_not_referenced {e : BitVec 8} (h : isReferenced e = false) :
    clearRef e = e := by
  revert e; decide

end

/-! ## The program -/

/-- The global variables of the program. -/
structure State (n : Nat) where
  page_table : Fin n → BitVec 8
  TDU : Fin n → BitVec 8
  compteur_global : BitVec 8
  TVC : BitVec 8

namespace State

variable {n : Nat} (s : State n) (i j : Fin n) (f : BitVec 8 → BitVec 8)

def valid : Bool := isValid (s.page_table i)
def swapped : Bool := isSwapped (s.page_table i)
def referenced : Bool := isReferenced (s.page_table i)

/-- Assign `f page_table[i]` to `page_table[i]`. -/
def modify : State n :=
  { s with page_table := Function.update s.page_table i (f (s.page_table i)) }

theorem page_table_modify : (s.modify i f).page_table j =
    if j = i then f (s.page_table i) else s.page_table j := by
  simp only [modify, Function.update_apply]

@[simp] theorem TDU_modify : (s.modify i f).TDU = s.TDU := rfl
@[simp] theorem TVC_modify : (s.modify i f).TVC = s.TVC := rfl

@[simp] theorem valid_modify : (s.modify i f).valid j =
    if j = i then isValid (f (s.page_table i)) else s.valid j := by
  simp only [valid, page_table_modify]
  split <;> rfl

@[simp] theorem swapped_modify : (s.modify i f).swapped j =
    if j = i then isSwapped (f (s.page_table i)) else s.swapped j := by
  simp only [swapped, page_table_modify]
  split <;> rfl

@[simp] theorem referenced_modify : (s.modify i f).referenced j =
    if j = i then isReferenced (f (s.page_table i)) else s.referenced j := by
  simp only [referenced, page_table_modify]
  split <;> rfl

section
variable {f}

theorem valid_modify_of (h : ∀ e, isValid (f e) = isValid e) :
    (s.modify i f).valid j = s.valid j := by
  rw [valid_modify]
  split
  · next e => rw [h, e, valid]
  · rfl

theorem swapped_modify_of (h : ∀ e, isSwapped (f e) = isSwapped e) :
    (s.modify i f).swapped j = s.swapped j := by
  rw [swapped_modify]
  split
  · next e => rw [h, e, swapped]
  · rfl

theorem referenced_modify_of (h : ∀ e, isReferenced (f e) = isReferenced e) :
    (s.modify i f).referenced j = s.referenced j := by
  rw [referenced_modify]
  split
  · next e => rw [h, e, referenced]
  · rfl

theorem tag_modify (h : ∀ e, tag (f e) = tag e) :
    tag ((s.modify i f).page_table j) = tag (s.page_table j) := by
  rw [page_table_modify]
  split
  · next e => rw [h, e]
  · rfl

end

/-- `++TVC;` -/
def tick : State n := { s with TVC := s.TVC + 1 }

@[simp] theorem page_table_tick : s.tick.page_table = s.page_table := rfl
@[simp] theorem valid_tick : s.tick.valid i = s.valid i := rfl
@[simp] theorem swapped_tick : s.tick.swapped i = s.swapped i := rfl
@[simp] theorem referenced_tick : s.tick.referenced i = s.referenced i := rfl
@[simp] theorem TDU_tick : s.tick.TDU = s.TDU := rfl
@[simp] theorem TVC_tick : s.tick.TVC = s.TVC + 1 := rfl

end State

/-- The index `lowestPage` that the loop of `replaceLRU` ends with; `none` is `-1`. -/
def lowestPage {n : Nat} (s : State n) : Option (Fin n) :=
  (List.finRange n).foldl (selectMin s.valid fun i => (s.TDU i).toNat) none

/-- `none` is the undefined access `page_table[-1]`. -/
def replaceLRU {n : Nat} (s : State n) : Option (State n) :=
  (lowestPage s).map fun v => s.modify v swapOut

def inc_compteur {n : Nat} (s : State n) (no_page : Fin n) : State n :=
  { s with
    TDU := Function.update s.TDU no_page (s.compteur_global + 1)
    compteur_global := s.compteur_global + 1 }

/-- `TVC - TDU[i] > DELTA`, on promoted integers. -/
def aged {n : Nat} (s : State n) (i : Fin n) : Bool :=
  decide (DELTA < (s.TVC.toNat : Int) - (s.TDU i).toNat)

/-- The loop of `replaceWSC` over the indices that are left, with the candidate so far. -/
def scanWSC {n : Nat} : List (Fin n) → State n → Option (Fin n) → State n × Option (Fin n)
  | [], s, lowest => (s, lowest)
  | i :: is, s, lowest =>
    if !s.valid i then scanWSC is s lowest
    else
      let lowest := lowest.or (some i)
      if s.referenced i then scanWSC is (s.modify i clearRef) lowest
      else if aged s i then (s, some i)
      else scanWSC is s lowest

def replaceWSC {n : Nat} (s : State n) : State n :=
  match scanWSC (List.finRange n) s none with
  | (s, none) => s
  | (s, some v) => s.modify v swapOut

/-- The condition is `page_table[i] & REF_BIT_MASK & VALID_BIT_MASK`. -/
def updateTDU {n : Nat} (s : State n) : State n :=
  { s with
    TDU := fun i =>
      if s.page_table i &&& REF_BIT_MASK &&& VALID_BIT_MASK != 0 then s.TVC else s.TDU i }

/-- The zero-initialised globals after `init_page_table`. -/
def init_page_table : State NB_PAGES where
  page_table i :=
    let e : BitVec 8 := 0 ||| (BitVec.ofNat 8 i &&& 0xF) <<< 4
    if i.val < 3 then e ||| VALID_BIT_MASK
    else if i.val = 3 then e ||| SWAP_BIT_MASK
    else e
  TDU _ := 0
  compteur_global := 0
  TVC := 0

/-- The value of `LRU_run`. -/
inductive Mode where
  | LRU | WSC

variable {n : Nat}

/-- The LRU branch of the loop of `main`. -/
def accessLRU (s : State n) (page_no : Fin n) : Option (State n) := do
  let s ←
    if !s.valid page_no then (replaceLRU s).map fun s => s.modify page_no swapIn else some s
  return inc_compteur s page_no

/-- The WSC branch of the loop of `main`. -/
def accessWSC (s : State n) (page_no : Fin n) : State n :=
  let s := if !s.valid page_no then (replaceWSC s).modify page_no clearSwap else s
  let s := s.modify page_no reference
  updateTDU s.tick

def access : Mode → State n → Fin n → Option (State n)
  | .LRU, s, p => accessLRU s p
  | .WSC, s, p => some (accessWSC s p)

/-- The loop of `main` over the accesses `h`. -/
def run (mode : Mode) (h : List (Fin NB_PAGES)) : Option (State NB_PAGES) :=
  h.foldlM (access mode) init_page_table

@[simp] theorem run_nil (mode : Mode) : run mode [] = some init_page_table := rfl

@[simp] theorem run_snoc (mode : Mode) (h : List (Fin NB_PAGES)) (p : Fin NB_PAGES) :
    run mode (h ++ [p]) = (run mode h).bind (access mode · p) := by
  simp [run, List.foldlM_append]

end SyeLabs.Memreplace
