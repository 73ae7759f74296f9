import SyeLabs.Theory.Walk
import SyeLabs.Kernel.Image

/-!
# The break of a process

`do_sbrk` checks the new size of the heap in signed integers. However far the increment goes, the
break stays in the heap, so the blocks that calls hand out stay apart until they are given back.
-/

namespace SyeLabs.Kernel

inductive SbrkErrno where
  | ESRCH
  | ENOMEM
  deriving DecidableEq, Repr

/-- The result of a call, as the word of an `int`, and `errno`. -/
structure SbrkRet where
  value : Word
  errno : Option SbrkErrno := none
  deriving DecidableEq

/-- `do_sbrk` of a process. -/
def Pcb.sbrk (cfg : Config) (pcb : Pcb) (increment : Word) : SbrkRet × Pcb :=
  let ret_pointer := pcb.heap_pointer
  let cur_sz := pcb.heap_pointer - pcb.heap_base
  let req_sz := cur_sz + increment
  if req_sz.toInt ≥ cfg.HEAP_SIZE.toInt ∨ req_sz.toInt < 0 then
    ({ value := -1, errno := some .ENOMEM }, pcb)
  else ({ value := ret_pointer }, { pcb with heap_pointer := pcb.heap_pointer + increment })

/-- `none` is a thread without a process. -/
def do_sbrk (cfg : Config) (pcb : Option Pcb) (increment : Word) : SbrkRet × Option Pcb :=
  match pcb with
  | none => ({ value := -1, errno := some .ESRCH }, none)
  | some pcb =>
    let (r, pcb) := pcb.sbrk cfg increment
    (r, some pcb)

/-- Where the break is in the heap. -/
def Pcb.brk (pcb : Pcb) : Nat := (pcb.heap_pointer - pcb.heap_base).toNat

section
variable (cfg : Config) (pcb : Pcb) (increments : ℕ → Word)

/-- The PCB after the first calls of a sequence. -/
def sbrks : ℕ → Pcb
  | 0 => pcb
  | k + 1 => ((sbrks k).sbrk cfg (increments k)).2

/-- What call `k` returns. -/
def sbrkRet (k : ℕ) : SbrkRet := ((sbrks cfg pcb increments k).sbrk cfg (increments k)).1

/-- By how much call `k` moves the break. -/
def sbrkMove (k : ℕ) : Int :=
  if (sbrkRet cfg pcb increments k).errno = none then (increments k).toInt else 0

/-- The block that call `k` hands out, if it lets the heap grow. -/
def sbrkBlock (k : ℕ) : Region :=
  ⟨(sbrkRet cfg pcb increments k).value, (sbrkMove cfg pcb increments k).toNat⟩

/-- What call `k` gives back, if it lets the heap shrink. -/
def sbrkReturned (k : ℕ) : Region :=
  ⟨(sbrks cfg pcb increments (k + 1)).heap_pointer, (-sbrkMove cfg pcb increments k).toNat⟩

/-- The part of the block of call `k` that no later one of the first `n` calls has given back. -/
def sbrkHeld (n k : ℕ) : Set Word :=
  {x | x ∈ sbrkBlock cfg pcb increments k ∧
    ∀ j, k < j → j < n → x ∉ sbrkReturned cfg pcb increments j}

end

/-- The call returns the break and moves it by the increment, or fails and changes nothing. -/
def MovesBreak (pcb : Pcb) (increment : Word) (out : SbrkRet × Option Pcb) : Prop :=
  (∃ pcb', out = ({ value := pcb.heap_pointer }, some pcb') ∧
    pcb' = { pcb with heap_pointer := pcb.heap_pointer + increment } ∧
    (pcb'.brk : Int) = pcb.brk + increment.toInt) ∨
  out = ({ value := -1, errno := some .ENOMEM }, some pcb)

/-- What a sequence of calls keeps to; with a heap that does not go around the end of the address
space, the break is in order between its bounds. -/
structure BreakOk (cfg : Config) (pcb : Pcb) (increments : ℕ → Word) : Prop where
  base : ∀ k, (sbrks cfg pcb increments k).heap_base = pcb.heap_base
  inside : ∀ k, (sbrks cfg pcb increments k).brk < cfg.HEAP_SIZE.toNat
  bounds : pcb.heap_base.toNat + cfg.HEAP_SIZE.toNat ≤ 2 ^ 32 → ∀ k,
    pcb.heap_base.toNat ≤ (sbrks cfg pcb increments k).heap_pointer.toNat ∧
      (sbrks cfg pcb increments k).heap_pointer.toNat <
        pcb.heap_base.toNat + cfg.HEAP_SIZE.toNat
  moves : ∀ k, MovesBreak (sbrks cfg pcb increments k) (increments k)
    (do_sbrk cfg (some (sbrks cfg pcb increments k)) (increments k))
  /-- A call fails exactly if the break would leave the heap. -/
  fails : ∀ k, sbrkRet cfg pcb increments k = { value := -1, errno := some .ENOMEM } ↔
    ((sbrks cfg pcb increments k).brk : Int) + (increments k).toInt ≥ cfg.HEAP_SIZE.toNat ∨
      ((sbrks cfg pcb increments k).brk : Int) + (increments k).toInt < 0
  within : ∀ k, ∀ x ∈ sbrkBlock cfg pcb increments k,
    x ∈ (⟨pcb.heap_base, cfg.HEAP_SIZE.toNat⟩ : Region)
  apart : ∀ i k n, i < k → k < n →
    Disjoint (sbrkHeld cfg pcb increments n i) (sbrkHeld cfg pcb increments n k)

/-! ## One call -/

section
variable {cfg : Config} {pcb : Pcb} {increment : Word} {increments : ℕ → Word} {k : ℕ}

/-- Where the break would be. Beyond `INT_MAX` the sum is negative. -/
theorem Pcb.sbrk_size (hsize : cfg.HEAP_SIZE.toNat < 2 ^ 30)
    (hbrk : pcb.brk < cfg.HEAP_SIZE.toNat) (increment : Word) :
    (pcb.heap_pointer - pcb.heap_base + increment).toInt ≥ cfg.HEAP_SIZE.toInt ∨
        (pcb.heap_pointer - pcb.heap_base + increment).toInt < 0 ↔
      (pcb.brk : Int) + increment.toInt ≥ cfg.HEAP_SIZE.toNat ∨
        (pcb.brk : Int) + increment.toInt < 0 := by
  have hcur : (pcb.heap_pointer - pcb.heap_base).toInt = pcb.brk := by
    rw [Pcb.brk] at hbrk ⊢
    rw [BitVec.toInt_eq_toNat_cond, if_pos (by omega)]
  have hmax : cfg.HEAP_SIZE.toInt = cfg.HEAP_SIZE.toNat := by
    rw [BitVec.toInt_eq_toNat_cond, if_pos (by omega)]
  have hlo := BitVec.le_toInt increment
  have hhi := BitVec.toInt_lt (x := increment)
  rw [BitVec.toInt_add, hcur, hmax, Int.bmod_def]
  omega

theorem Pcb.sbrk_fails_iff (hsize : cfg.HEAP_SIZE.toNat < 2 ^ 30)
    (hbrk : pcb.brk < cfg.HEAP_SIZE.toNat) (increment : Word) :
    (pcb.sbrk cfg increment).1 = { value := -1, errno := some .ENOMEM } ↔
      (pcb.brk : Int) + increment.toInt ≥ cfg.HEAP_SIZE.toNat ∨
        (pcb.brk : Int) + increment.toInt < 0 := by
  have hiff := Pcb.sbrk_size hsize hbrk increment
  by_cases h : (pcb.brk : Int) + increment.toInt ≥ cfg.HEAP_SIZE.toNat ∨
      (pcb.brk : Int) + increment.toInt < 0
  · have heq : pcb.sbrk cfg increment = ({ value := -1, errno := some .ENOMEM }, pcb) :=
      if_pos (hiff.mpr h)
    exact iff_of_true (congrArg Prod.fst heq) h
  · have heq : pcb.sbrk cfg increment = ({ value := pcb.heap_pointer },
        { pcb with heap_pointer := pcb.heap_pointer + increment }) := if_neg (mt hiff.mp h)
    refine iff_of_false (fun hfail => ?_) h
    rw [heq] at hfail
    exact absurd (congrArg SbrkRet.errno hfail) nofun

theorem brk_add {pcb' : Pcb} (hbase : pcb'.heap_base = pcb.heap_base)
    (hpointer : pcb'.heap_pointer = pcb.heap_pointer + increment)
    (h0 : 0 ≤ (pcb.brk : Int) + increment.toInt)
    (hlt : (pcb.brk : Int) + increment.toInt < 2 ^ 32) :
    (pcb'.brk : Int) = pcb.brk + increment.toInt := by
  have hsum : pcb'.heap_pointer - pcb'.heap_base =
      (pcb.heap_pointer - pcb.heap_base) + increment := by
    rw [hbase, hpointer]
    bv_omega
  have hinc := BitVec.toInt_eq_toNat_bmod increment
  have hlt' := increment.isLt
  rw [Pcb.brk, hsum, BitVec.toNat_add]
  change ((((pcb.brk : Nat) + increment.toNat) % 2 ^ 32 : Nat) : Int) = _
  rw [Int.bmod_def] at hinc
  omega

theorem Pcb.sbrk_spec (hsize : cfg.HEAP_SIZE.toNat < 2 ^ 30)
    (hbrk : pcb.brk < cfg.HEAP_SIZE.toNat) (increment : Word) :
    MovesBreak pcb increment (do_sbrk cfg (some pcb) increment) ∧
      (pcb.sbrk cfg increment).2.heap_base = pcb.heap_base ∧
      (pcb.sbrk cfg increment).2.brk < cfg.HEAP_SIZE.toNat := by
  have hiff := Pcb.sbrk_size hsize hbrk increment
  by_cases h : (pcb.brk : Int) + increment.toInt ≥ cfg.HEAP_SIZE.toNat ∨
      (pcb.brk : Int) + increment.toInt < 0
  · have heq : pcb.sbrk cfg increment = ({ value := -1, errno := some .ENOMEM }, pcb) :=
      if_pos (hiff.mpr h)
    rw [do_sbrk, heq]
    exact ⟨.inr rfl, rfl, hbrk⟩
  · have heq : pcb.sbrk cfg increment = ({ value := pcb.heap_pointer },
        { pcb with heap_pointer := pcb.heap_pointer + increment }) := if_neg (mt hiff.mp h)
    have hnew : ((pcb.sbrk cfg increment).2.brk : Int) = pcb.brk + increment.toInt :=
      heq ▸ brk_add rfl rfl (by omega) (by omega)
    rw [do_sbrk]
    rw [heq] at hnew ⊢
    exact ⟨.inl ⟨_, rfl, rfl, hnew⟩, rfl, by omega⟩

/-- The places of a region that starts in the heap. -/
theorem mem_region_iff (base : Word) {p y : Word} {size : Nat}
    (h : (p - base).toNat + size ≤ 2 ^ 32) :
    y ∈ (⟨p, size⟩ : Region) ↔
      (p - base).toNat ≤ (y - base).toNat ∧ (y - base).toNat < (p - base).toNat + size := by
  have hdiff : y - p = (y - base) - (p - base) := by bv_omega
  have hy := (y - base).isLt
  rw [Region.mem_def, hdiff, BitVec.toNat_sub]
  omega

end

/-! ## A sequence of calls -/

section
variable {cfg : Config} {pcb : Pcb} (increments : ℕ → Word)
  (hsize : cfg.HEAP_SIZE.toNat < 2 ^ 30) (hpos : 0 < cfg.HEAP_SIZE.toNat)
  (hstart : pcb.heap_pointer = pcb.heap_base)
include hsize hpos hstart

theorem sbrks_inside (k : ℕ) : (sbrks cfg pcb increments k).heap_base = pcb.heap_base ∧
    (sbrks cfg pcb increments k).brk < cfg.HEAP_SIZE.toNat := by
  induction k with
  | zero =>
    refine ⟨rfl, ?_⟩
    rw [sbrks, Pcb.brk, hstart, BitVec.sub_self]
    exact hpos
  | succ k ih =>
    obtain ⟨-, hbase, hbrk⟩ := Pcb.sbrk_spec hsize ih.2 (increments k)
    exact ⟨hbase.trans ih.1, hbrk⟩

/-- How the break moves in the heap. -/
theorem sbrkMove_eq (k : ℕ) : ((sbrks cfg pcb increments (k + 1)).brk : Int) =
      (sbrks cfg pcb increments k).brk + sbrkMove cfg pcb increments k ∧
    (sbrkMove cfg pcb increments k ≠ 0 →
      (sbrkRet cfg pcb increments k).value = (sbrks cfg pcb increments k).heap_pointer) := by
  have hin := (sbrks_inside increments hsize hpos hstart k).2
  rcases (Pcb.sbrk_spec hsize hin (increments k)).1 with ⟨pcb', heq, -, hbrk⟩ | heq
  · have hret : sbrkRet cfg pcb increments k =
        { value := (sbrks cfg pcb increments k).heap_pointer } := congrArg Prod.fst heq
    have hnext : sbrks cfg pcb increments (k + 1) = pcb' :=
      Option.some.inj (congrArg Prod.snd heq)
    rw [sbrkMove, hret, hnext, if_pos rfl]
    exact ⟨hbrk, fun _ => rfl⟩
  · have hret : sbrkRet cfg pcb increments k = { value := -1, errno := some .ENOMEM } :=
      congrArg Prod.fst heq
    have hsame : sbrks cfg pcb increments (k + 1) = sbrks cfg pcb increments k :=
      Option.some.inj (congrArg Prod.snd heq)
    rw [sbrkMove, hret, hsame, if_neg (Option.some_ne_none _)]
    exact ⟨(add_zero _).symm, fun h => absurd rfl h⟩

theorem mem_sbrkBlock {k : ℕ} {y : Word} : y ∈ sbrkBlock cfg pcb increments k ↔
    (y - pcb.heap_base).toNat ∈ gained (fun k => (sbrks cfg pcb increments k).brk) k := by
  obtain ⟨hbase, hbrk⟩ := sbrks_inside increments hsize hpos hstart k
  obtain ⟨-, hbrk'⟩ := sbrks_inside increments hsize hpos hstart (k + 1)
  obtain ⟨hmove, hvalue⟩ := sbrkMove_eq increments hsize hpos hstart k
  rw [gained, Set.mem_Ico]
  by_cases h0 : sbrkMove cfg pcb increments k = 0
  · rw [sbrkBlock, h0, Region.mem_def]
    omega
  · have hstart' : ((sbrkRet cfg pcb increments k).value - pcb.heap_base).toNat =
        (sbrks cfg pcb increments k).brk := by
      rw [hvalue h0, ← hbase]
      rfl
    rw [sbrkBlock, mem_region_iff pcb.heap_base (by omega), hstart']
    omega

theorem mem_sbrkReturned {k : ℕ} {y : Word} : y ∈ sbrkReturned cfg pcb increments k ↔
    (y - pcb.heap_base).toNat ∈ givenBack (fun k => (sbrks cfg pcb increments k).brk) k := by
  obtain ⟨-, hbrk⟩ := sbrks_inside increments hsize hpos hstart k
  obtain ⟨hbase, hbrk'⟩ := sbrks_inside increments hsize hpos hstart (k + 1)
  obtain ⟨hmove, -⟩ := sbrkMove_eq increments hsize hpos hstart k
  have hstart' : ((sbrks cfg pcb increments (k + 1)).heap_pointer - pcb.heap_base).toNat =
      (sbrks cfg pcb increments (k + 1)).brk := by
    rw [← hbase]
    rfl
  rw [givenBack, Set.mem_Ico, sbrkReturned, mem_region_iff pcb.heap_base (by omega),
    hstart']
  omega

theorem sbrkHeld_eq (n k : ℕ) : sbrkHeld cfg pcb increments n k =
    {y | (y - pcb.heap_base).toNat ∈
      held (fun k => (sbrks cfg pcb increments k).brk) n k} := by
  ext y
  simp only [sbrkHeld, held, Set.mem_ofPred_eq, mem_sbrkBlock increments hsize hpos hstart,
    mem_sbrkReturned increments hsize hpos hstart]

end

/-- In every sequence of calls from an empty heap, the break stays in the heap, each call moves it
by its increment or fails, and the blocks that are not given back lie in the heap, apart from each
other. -/
theorem sbrks_breakOk (cfg : Config) (pcb : Pcb) (increments : ℕ → Word)
    (hsize : cfg.HEAP_SIZE.toNat < 2 ^ 30) (hpos : 0 < cfg.HEAP_SIZE.toNat)
    (hstart : pcb.heap_pointer = pcb.heap_base) : BreakOk cfg pcb increments := by
  have hinside := sbrks_inside increments hsize hpos hstart
  constructor
  case base => exact fun k => (hinside k).1
  case inside => exact fun k => (hinside k).2
  case bounds =>
    intro hend k
    obtain ⟨hbase, hbrk⟩ := hinside k
    rw [Pcb.brk, hbase, BitVec.toNat_sub] at hbrk
    have := (sbrks cfg pcb increments k).heap_pointer.isLt
    omega
  case moves => exact fun k => (Pcb.sbrk_spec hsize (hinside k).2 (increments k)).1
  case fails => exact fun k => Pcb.sbrk_fails_iff hsize (hinside k).2 (increments k)
  case within =>
    intro k y hy
    have hin := (mem_sbrkBlock increments hsize hpos hstart).mp hy
    exact (gained_subset (fun _ => Nat.zero_le _) (fun k => (hinside k).2.le) k hin).2
  case apart =>
    intro i k n hik hkn
    rw [sbrkHeld_eq increments hsize hpos hstart, sbrkHeld_eq increments hsize hpos hstart]
    exact (held_disjoint hik hkn).preimage _

/-- A heap of one page at `0x3000`; calls that grow it, shrink it, and ask for far too much. -/
theorem sbrks_breakOk_small : BreakOk smallConfig
    { pid := 1, heap_base := 0x3000, heap_pointer := 0x3000 }
    fun k => [0x800, -0x400, 0x7FFFFFFF, 0x80000000].getD k 0x100 :=
  sbrks_breakOk smallConfig _ _ (by decide) (by decide) rfl

end SyeLabs.Kernel
