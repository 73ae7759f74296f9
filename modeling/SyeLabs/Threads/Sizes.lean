import SyeLabs.Threads.Basic

/-!
# The number of threads as a `size_t`

`main` clamps the number from above only, and then converts it to a `size_t` of 32 or 64 bits in
the divisions, the allocations and the loop tests.
-/

namespace SyeLabs.Threads

/-- What the program is compiled for. -/
structure Target where
  width : ℕ
  sizeof_pthread_t : ℕ
  width_eq : width = 32 ∨ width = 64
  pthread_small : sizeof_pthread_t ≤ 8

/-- A `size_t`. -/
abbrev Target.Size (T : Target) := BitVec T.width

/-- A pointer, a size and the counters. -/
def Target.sizeof_count_param_t (T : Target) : ℕ := (2 + LETTERS_NB) * (T.width / 8)

/-- What `main` gets from the library: whether there is memory for `params` and for `threads`, and
which threads can be created. -/
structure Library (T : Target) where
  params : Bool
  threads : Bool
  pthread_create : T.Size → Bool

/-- What `main` does with the number. -/
inductive Use (T : Target) where
  /-- A division or a remainder. -/
  | divide (dividend divisor : T.Size)
  /-- An allocation for that number of elements. -/
  | malloc (sizeof : ℕ) (size : T.Size)
  | loop (rounds : ℕ)

theorem toNat_succ {w : ℕ} {i bound : BitVec w} (h : i < bound) :
    (i + 1#w).toNat = i.toNat + 1 := by
  have hlt : i.toNat + 1 < 2 ^ w := Nat.lt_of_le_of_lt (BitVec.lt_def.mp h) bound.isLt
  rw [BitVec.toNat_add, BitVec.toNat_ofNat, Nat.add_mod_mod, Nat.mod_eq_of_lt hlt]

/-- `for (; i < bound; ++i)`: the rounds that are begun, and whether none of them ends the
program. -/
def forLoop {w : ℕ} (bound : BitVec w) (ok : BitVec w → Bool) (i : BitVec w) : ℕ × Bool :=
  if _hi : i < bound then
    if ok i then
      let (rounds, done) := forLoop bound ok (i + 1#w)
      (rounds + 1, done)
    else (1, false)
  else (0, true)
termination_by bound.toNat - i.toNat
decreasing_by
  have hsucc := toNat_succ _hi
  have hlt := BitVec.lt_def.mp _hi
  omega

def clamp (thread_num : Int) : Int :=
  if thread_num > CHILDREN_LIMIT then CHILDREN_LIMIT else thread_num

section
variable (T : Target) (lib : Library T) (text_size : T.Size) (thread_num : Int)

/-- The conversion of `thread_num` to a `size_t`. -/
def count : T.Size := BitVec.ofInt T.width (clamp thread_num)

/-- The argument of `malloc`. -/
def mallocSize (sizeof : ℕ) : T.Size := count T thread_num * BitVec.ofNat T.width sizeof

/-- What `main` does with the number, up to its end or the first error. -/
def uses : List (Use T) :=
  .divide text_size (count T thread_num) ::
  if count T thread_num = 0 then [] else
  .divide text_size (count T thread_num) ::
  .malloc T.sizeof_count_param_t (mallocSize T thread_num T.sizeof_count_param_t) ::
  if !lib.params then [] else
  .malloc T.sizeof_pthread_t (mallocSize T thread_num T.sizeof_pthread_t) ::
  if !lib.threads then [] else
  let (created, done) := forLoop (count T thread_num) lib.pthread_create 0
  .loop created ::
  if !done then [] else
  let (rounds, _) := forLoop (count T thread_num) (fun _ => true) 0
  .loop rounds :: List.replicate LETTERS_NB (.loop rounds)

/-- No division by zero, no size that wraps around, no loop of more than 15 rounds. -/
def Use.Defined : Use T → Prop
  | .divide _ divisor => divisor ≠ 0
  | .malloc sizeof size => (size.toNat : Int) = clamp thread_num * sizeof
  | .loop rounds => rounds ≤ 15

def Defined : Prop := ∀ u ∈ uses T lib text_size thread_num, u.Defined T thread_num

end

section
variable {T : Target} {lib : Library T} {text_size : T.Size} {thread_num : Int} {w : ℕ}

theorem forLoop_le (bound : BitVec w) (ok : BitVec w → Bool) (i : BitVec w) :
    (forLoop bound ok i).1 ≤ bound.toNat - i.toNat := by
  fun_induction forLoop bound ok i with
  | case1 i hi hok rounds done hnext ih =>
    have hsucc := toNat_succ hi
    have hlt := BitVec.lt_def.mp hi
    have hle : rounds ≤ bound.toNat - (i + 1#w).toNat := by rwa [hnext] at ih
    change rounds + 1 ≤ _
    omega
  | case2 i hi hok =>
    have hlt := BitVec.lt_def.mp hi
    change 1 ≤ _
    omega
  | case3 i hi => exact Nat.zero_le _

theorem pow_le_width (T : Target) : 2 ^ 32 ≤ 2 ^ T.width := by
  rcases T.width_eq with h | h
  · rw [h]
  · rw [h]
    decide

theorem sizeof_bounds (T : Target) :
    0 < T.sizeof_count_param_t ∧ T.sizeof_count_param_t ≤ 224 := by
  rw [Target.sizeof_count_param_t, LETTERS_NB]
  rcases T.width_eq with h | h <;> (rw [h]; decide)

theorem clamp_bounds (h : 0 < thread_num) : 0 < clamp thread_num ∧ clamp thread_num ≤ 15 := by
  rw [clamp, CHILDREN_LIMIT]
  split <;> omega

theorem clamp_of_nonpos (h : thread_num ≤ 0) : clamp thread_num = thread_num := by
  rw [clamp, CHILDREN_LIMIT, if_neg (by omega)]

/-- A positive number keeps its value. -/
theorem count_toNat (h : 0 < thread_num) : (count T thread_num).toNat = threadNum thread_num := by
  obtain ⟨hpos, hle⟩ := clamp_bounds h
  have hwidth : (2 ^ 32 : Int) ≤ 2 ^ T.width := by exact_mod_cast pow_le_width T
  have hmod : clamp thread_num % 2 ^ T.width = clamp thread_num :=
    Int.emod_eq_of_lt hpos.le (by omega)
  rw [count, BitVec.toNat_ofInt]
  push_cast
  rw [hmod]
  rfl

theorem threadNum_bounds (h : 0 < thread_num) :
    0 < threadNum thread_num ∧ threadNum thread_num ≤ 15 := by
  obtain ⟨hpos, hle⟩ := clamp_bounds h
  have heq : threadNum thread_num = (clamp thread_num).toNat := rfl
  omega

theorem mallocSize_toNat (h : 0 < thread_num) {sizeof : ℕ} (hsize : sizeof ≤ 224) :
    ((mallocSize T thread_num sizeof).toNat : Int) = clamp thread_num * sizeof := by
  obtain ⟨hpos, hle⟩ := threadNum_bounds h
  have hclamp : (threadNum thread_num : Int) = clamp thread_num :=
    Int.toNat_of_nonneg (clamp_bounds h).1.le
  have hwidth := pow_le_width T
  have hprod : threadNum thread_num * sizeof ≤ 15 * 224 := Nat.mul_le_mul hle hsize
  rw [mallocSize, BitVec.toNat_mul, count_toNat h, BitVec.toNat_ofNat, Nat.mul_mod_mod,
    Nat.mod_eq_of_lt (by omega), ← hclamp]
  push_cast
  rfl

theorem Use.loop_defined (h : 0 < thread_num) (ok : T.Size → Bool) :
    (Use.loop (T := T) (forLoop (count T thread_num) ok 0).1).Defined T thread_num := by
  have hle := forLoop_le (count T thread_num) ok 0
  rw [count_toNat h] at hle
  exact (hle.trans (Nat.sub_le _ _)).trans (threadNum_bounds h).2

theorem count_ne_zero (h : 0 < thread_num) : count T thread_num ≠ 0 := by
  intro h0
  have hcount := count_toNat (T := T) h
  rw [h0] at hcount
  exact (threadNum_bounds h).1.ne hcount

/-- The first allocation is made unless the first division is by zero. -/
theorem malloc_mem (h : count T thread_num ≠ 0) :
    Use.malloc T.sizeof_count_param_t (mallocSize T thread_num T.sizeof_count_param_t) ∈
      uses T lib text_size thread_num := by
  rw [uses, if_neg h]
  exact .tail _ (.tail _ (.head _))

/-- A size is no negative number. -/
theorem not_malloc_defined (h : thread_num < 0) {sizeof : ℕ} (hsize : 0 < sizeof)
    (size : T.Size) : ¬(Use.malloc sizeof size).Defined T thread_num := by
  intro hdef
  have hneg : clamp thread_num * sizeof < 0 := by
    rw [clamp_of_nonpos h.le]
    exact Int.mul_neg_of_neg_of_pos h (Int.natCast_pos.mpr hsize)
  have hsize : (size.toNat : Int) = clamp thread_num * sizeof := hdef
  omega

theorem not_defined_of_neg (h : thread_num < 0) : ¬Defined T lib text_size thread_num := by
  intro D
  by_cases h0 : count T thread_num = 0
  · exact D (.divide text_size (count T thread_num)) List.mem_cons_self h0
  · exact not_malloc_defined h (sizeof_bounds T).1 _ (D _ (malloc_mem h0))

theorem not_defined_zero : ¬Defined T lib text_size 0 := by
  intro D
  exact D (.divide text_size (count T 0)) List.mem_cons_self rfl

theorem defined_of_pos (h : 0 < thread_num) : Defined T lib text_size thread_num := by
  have hdivide : (Use.divide text_size (count T thread_num)).Defined T thread_num :=
    count_ne_zero h
  have hparams := mallocSize_toNat (T := T) h (sizeof_bounds T).2
  have hthreads := mallocSize_toNat (T := T) h (T.pthread_small.trans (by decide))
  have hcreate := Use.loop_defined h lib.pthread_create
  have hrounds := Use.loop_defined (T := T) h fun _ => true
  rw [Defined, uses, if_neg (count_ne_zero h)]
  refine List.forall_mem_cons.mpr ⟨hdivide, List.forall_mem_cons.mpr ⟨hdivide,
    List.forall_mem_cons.mpr ⟨hparams, ?_⟩⟩⟩
  split
  · exact List.forall_mem_nil _
  refine List.forall_mem_cons.mpr ⟨hthreads, ?_⟩
  split
  · exact List.forall_mem_nil _
  refine List.forall_mem_cons.mpr ⟨hcreate, ?_⟩
  split
  · exact List.forall_mem_nil _
  refine List.forall_mem_cons.mpr ⟨hrounds, fun u hu => ?_⟩
  rw [List.eq_of_mem_replicate hu]
  exact hrounds

/-- The arithmetic is defined exactly for the positive numbers. -/
theorem defined_iff (T : Target) (lib : Library T) (text_size : T.Size) (thread_num : Int) :
    Defined T lib text_size thread_num ↔ 0 < thread_num := by
  refine ⟨fun D => ?_, defined_of_pos⟩
  rcases lt_trichotomy thread_num 0 with hneg | rfl | hpos
  · exact absurd D (not_defined_of_neg hneg)
  · exact absurd D not_defined_zero
  · exact hpos

/-- 32 bits, and no lack of memory or threads. -/
def narrow : Target := ⟨32, 4, .inl rfl, by decide⟩

def plenty : Library narrow := ⟨true, true, fun _ => true⟩

/-- `threads 0 file` divides by zero; `threads -1 file` asks for 2^32 - 112 bytes; and
`threads -2147483648 file` for none. -/
theorem not_defined_nonpos :
    uses narrow plenty 5 0 = [.divide 5 0] ∧ ¬Defined narrow plenty 5 0 ∧
      .malloc 112 4294967184 ∈ uses narrow plenty 5 (-1) ∧ ¬Defined narrow plenty 5 (-1) ∧
      .malloc 112 0 ∈ uses narrow plenty 5 (-2147483648) ∧
      ¬Defined narrow plenty 5 (-2147483648) :=
  ⟨rfl, not_defined_zero, malloc_mem (by decide), not_defined_of_neg (by decide),
    malloc_mem (by decide), not_defined_of_neg (by decide)⟩

end
end SyeLabs.Threads
