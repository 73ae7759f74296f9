import SyeLabs.Kernel.Args

/-!
# Relocating the page of arguments

`post_setup_image` copies the page to the user area and makes its pointers relative to the new
place. A process that reads the page there finds the arguments and the environment it was given.
-/

namespace SyeLabs.Kernel

open Mmu (PAGE_SIZE)

variable {m m' : Memory} {p args : Word} {base : Nat → Word} {argc : Word}
  {strs : List (List Byte)} {j : Nat}

/-! ## The relocation -/

/-- The same page elsewhere. -/
theorem Layout.move (L : Layout m p base argc strs strs.length) (hf : Fits strs) {q : Word}
    (h : ∀ k < PAGE_SIZE, m' (q + BitVec.ofNat 32 k) = m (p + BitVec.ofNat 32 k)) :
    Layout m' q base argc strs strs.length := by
  have hword : ∀ k, k + 4 ≤ PAGE_SIZE →
      m'.load (q + BitVec.ofNat 32 k) = m.load (p + BitVec.ofNat 32 k) := by
    intro k hk
    refine Memory.load_eq_load fun i hi => ?_
    rw [BitVec.add_assoc, BitVec.add_assoc, ← BitVec.ofNat_add]
    exact h (k + i) (by omega)
  have hslot : ∀ j ≤ strs.length, m'.load (slot q j) = m.load (slot p j) := by
    intro j hj
    unfold Fits headerSize PAGE_SIZE at hf
    exact hword _ (by unfold PAGE_SIZE; omega)
  constructor
  case count =>
    have hzero := hword 0 (by decide)
    rw [BitVec.add_zero, BitVec.add_zero] at hzero
    exact hzero.trans L.count
  case ptr => exact fun j hj => (hslot j hj.le).trans (L.ptr j hj)
  case str =>
    intro j hj hjl k hk
    have hle := hf.strOffset_add_le hj
    rw [← L.str j hj hjl k hk, BitVec.add_assoc, BitVec.add_assoc, ← BitVec.ofNat_add]
    exact h _ (by unfold PAGE_SIZE; omega)
  case null => exact fun j hj hjl => (hslot j hjl).trans (L.null j hj hjl)

theorem Layout.setPtr (L : Layout m p base argc strs strs.length) (hf : Fits strs)
    (hj : j < strs.length) (b : Word) :
    Layout (m.store (slot p j) (b + BitVec.ofNat 32 (strOffset strs j))) p
      (Function.update base j b) argc strs strs.length := by
  constructor
  case count =>
    rw [Memory.load_store_of_disjoint (disjoint_count_slot hj.le hf), L.count]
  case ptr =>
    intro i hi
    by_cases hij : i = j
    · subst hij
      rw [Memory.load_store_self, Function.update_self]
    · rw [Memory.load_store_of_disjoint (disjoint_slot_slot hi.le hj.le hf hij), L.ptr i hi,
        Function.update_of_ne hij]
  case str =>
    intro i hi hil
    have hle := hf.strOffset_add_le hi
    refine (L.str i hi hil).congr ((Memory.eqOff_store _ _ _).eqOn ?_) (by omega)
    exact (disjoint_slot_str hf hj.le hi).symm
  case null =>
    intro i hi hil
    rw [Memory.load_store_of_disjoint (disjoint_slot_slot hil hj.le hf (by omega)),
      L.null i hi hil]

/-- Whatever is written to the page at `frame`, the page at `v` is mapped to it. -/
def MapsPage (tr : Memory → Word → Option Word) (m : Memory) (v frame : Word) : Prop :=
  ∀ m', m.EqOff m' ⟨frame, PAGE_SIZE⟩ → ∀ k < PAGE_SIZE,
    tr m' (v + BitVec.ofNat 32 k) = some (frame + BitVec.ofNat 32 k)

section
variable {tr : Memory → Word → Option Word} {args_base frame : Word}

theorem MapsPage.eqOff (H : MapsPage tr m args_base frame)
    (h : m.EqOff m' ⟨frame, PAGE_SIZE⟩) : MapsPage tr m' args_base frame :=
  fun _ h' => H _ (h.trans h')

theorem MapsPage.slot (H : MapsPage tr m args_base frame) (hf : Fits strs)
    (hj : j ≤ strs.length) : tr m (slot args_base j) = some (slot frame j) := by
  unfold Fits headerSize PAGE_SIZE at hf
  exact H m (fun _ _ => rfl) _ (by unfold PAGE_SIZE; omega)

/-- The first `j` pointers are relocated. -/
def relocated (args_base args : Word) (j : Nat) : Nat → Word :=
  fun i => if i < j then args_base else args

theorem relocated_succ (args_base args : Word) (j : Nat) :
    Function.update (relocated args_base args j) j args_base =
      relocated args_base args (j + 1) := by
  funext i
  by_cases hij : i = j
  · subst hij
    rw [Function.update_self, relocated, if_pos (Nat.lt_succ_self i)]
  · rw [Function.update_of_ne hij, relocated, relocated]
    have hiff : i < j ↔ i < j + 1 := by omega
    simp only [hiff]

theorem Layout.relocate (H : MapsPage tr m args_base frame) (hf : Fits strs)
    (hj : j < strs.length)
    (L : Layout m frame (relocated args_base args j) argc strs strs.length) :
    ∃ m', relocate tr args_base args (slot args_base j) m = some m' ∧
      m.EqOff m' ⟨frame, PAGE_SIZE⟩ ∧
      Layout m' frame (relocated args_base args (j + 1)) argc strs strs.length := by
  have hptr : m.load (slot frame j) - args + args_base =
      args_base + BitVec.ofNat 32 (strOffset strs j) := by
    rw [L.ptr j hj, relocated, if_neg (lt_irrefl j)]
    bv_omega
  refine ⟨m.store (slot frame j) (args_base + BitVec.ofNat 32 (strOffset strs j)), ?_,
    (Memory.eqOff_store _ _ _).mono (slot_sub hj.le hf), ?_⟩
  · simp only [Kernel.relocate, H.slot hf hj.le, Option.bind_eq_bind, Option.bind_some,
      Option.pure_def, hptr]
  · rw [← relocated_succ]
    exact L.setPtr hf hj args_base

theorem Layout.relocateArgs (hf : Fits strs) (n : Nat) (hn : j + n ≤ strs.length)
    (H : MapsPage tr m args_base frame)
    (L : Layout m frame (relocated args_base args j) argc strs strs.length) :
    ∃ m', relocateArgs tr args_base args n (slot args_base j) m = some m' ∧
      m.EqOff m' ⟨frame, PAGE_SIZE⟩ ∧
      Layout m' frame (relocated args_base args (j + n)) argc strs strs.length := by
  induction n generalizing j m with
  | zero => exact ⟨m, rfl, fun _ _ => rfl, L⟩
  | succ n ih =>
    obtain ⟨m1, hm1, hoff, L1⟩ := L.relocate H hf (by omega)
    obtain ⟨m2, hm2, hoff', L2⟩ := ih (by omega) (H.eqOff hoff) L1
    refine ⟨m2, ?_, hoff.trans hoff', ?_⟩
    · rw [Kernel.relocateArgs, hm1, slot_succ]
      exact hm2
    · rwa [Nat.add_assoc, Nat.add_comm 1 n] at L2

/-- The pointers are not null, so the loop stops behind the last of them. -/
theorem Layout.relocateEnv (hf : Fits strs) (hargs : args ≠ 0)
    (hend : args.toNat + PAGE_SIZE ≤ 2 ^ 32) (n fuel : Nat) (hn : j + n = strs.length)
    (hfuel : n < fuel) (H : MapsPage tr m args_base frame)
    (L : Layout m frame (relocated args_base args j) argc strs strs.length) :
    ∃ m', relocateEnv tr args_base args fuel (slot args_base j) m = some m' ∧
      m.EqOff m' ⟨frame, PAGE_SIZE⟩ ∧
      Layout m' frame (relocated args_base args strs.length) argc strs strs.length := by
  induction n generalizing j m fuel with
  | zero =>
    obtain ⟨fuel, rfl⟩ := Nat.exists_eq_succ_of_ne_zero (Nat.ne_of_gt hfuel)
    have hj : j = strs.length := hn
    subst hj
    refine ⟨m, ?_, fun _ _ => rfl, L⟩
    simp only [Kernel.relocateEnv, H.slot hf le_rfl, L.null _ le_rfl le_rfl, Option.bind_eq_bind,
      Option.bind_some, if_true, Option.pure_def]
  | succ n ih =>
    obtain ⟨fuel, rfl⟩ := Nat.exists_eq_succ_of_ne_zero (Nat.ne_of_gt (Nat.zero_lt_of_lt hfuel))
    have hj : j < strs.length := by omega
    have hnonzero : m.load (Kernel.slot frame j) ≠ 0 := by
      have hlt := hf.strOffset_add_le hj
      rw [L.ptr j hj, relocated, if_neg (lt_irrefl j)]
      rw [List.length_append, List.length_singleton] at hlt
      unfold PAGE_SIZE at hend
      bv_omega
    obtain ⟨m1, hm1, hoff, L1⟩ := L.relocate H hf hj
    obtain ⟨m2, hm2, hoff', L2⟩ := ih fuel (by omega) (by omega) (H.eqOff hoff) L1
    refine ⟨m2, ?_, hoff.trans hoff', L2⟩
    rw [Kernel.relocateEnv, H.slot hf hj.le]
    simp only [Option.bind_eq_bind, Option.bind_some, hnonzero, if_false, hm1, slot_succ]
    exact hm2

/-- The memory as a process sees it. -/
def userView (tr : Memory → Word → Option Word) (m : Memory) : Memory :=
  fun x => ((tr m x).map m).getD 0

/-- What a process reads in the page at `base`: `argc`, pointers into the page to the arguments
and to the environment, and a null pointer. -/
structure ArgsPage (m : Memory) (base : Word) (argv env : List (List Byte)) : Prop where
  count : m.load base = BitVec.ofNat 32 argv.length
  args : ∀ i (h : i < argv.length), m.load (slot base i) ∈ (⟨base, PAGE_SIZE⟩ : Region) ∧
    m.Holds (m.load (slot base i)) (argv[i] ++ [0])
  vars : ∀ i (h : i < env.length),
    m.load (slot base (argv.length + i)) ∈ (⟨base, PAGE_SIZE⟩ : Region) ∧
      m.Holds (m.load (slot base (argv.length + i))) (env[i] ++ [0])
  last : m.load (slot base (argv.length + env.length)) = 0

theorem Layout.argsPage {argv env : List (List Byte)} (hf : Fits (argv ++ env))
    (L : Layout m p (fun _ => p) (BitVec.ofNat 32 argv.length) (argv ++ env) (argv ++ env).length) :
    ArgsPage m p argv env := by
  have hptr : ∀ j (hj : j < (argv ++ env).length),
      m.load (slot p j) ∈ (⟨p, PAGE_SIZE⟩ : Region) ∧
        m.Holds (m.load (slot p j)) ((argv ++ env)[j] ++ [0]) := by
    intro j hj
    have hle := hf.strOffset_add_le hj
    rw [List.length_append, List.length_singleton] at hle
    rw [L.ptr j hj]
    exact ⟨Region.mem_add (by unfold PAGE_SIZE; omega) (by decide), L.str j hj hj⟩
  constructor
  case count => exact L.count
  case args =>
    intro i hi
    have h := hptr i (by rw [List.length_append]; omega)
    rwa [List.getElem_append_left hi] at h
  case vars =>
    intro i hi
    have h := hptr (argv.length + i) (by rw [List.length_append]; omega)
    rw [List.getElem_append_right (Nat.le_add_right _ _)] at h
    simpa using h
  case last =>
    have h := L.null _ le_rfl le_rfl
    rwa [List.length_append] at h

/-- The page of arguments is copied to the frame and relocated there; memory changes in the frame
only. -/
theorem Layout.post_setup_image (hf : Fits strs) {c : Nat} (hc : c ≤ strs.length)
    (L : Layout m args (fun _ => args) (BitVec.ofNat 32 c) strs strs.length) (hargs : args ≠ 0)
    (hend : args.toNat + PAGE_SIZE ≤ 2 ^ 32) (hmap : MapsPage tr m args_base frame)
    (hdisj : (⟨frame, PAGE_SIZE⟩ : Region).Disjoint ⟨args, PAGE_SIZE⟩) :
    ∃ m', post_setup_image tr m args_base args = some m' ∧ m.EqOff m' ⟨frame, PAGE_SIZE⟩ ∧
      Layout m' frame (fun _ => args_base) (BitVec.ofNat 32 c) strs strs.length := by
  -- the copy
  have hcopy : m.memcpy tr (fun _ => some) args_base args PAGE_SIZE =
      some (m.copy frame args PAGE_SIZE) :=
    Memory.memcpy_eq_copy (fun _ h => hmap _ h) (fun _ _ _ _ => rfl) hdisj (by decide)
  have hoff := Memory.eqOff_copy m frame args PAGE_SIZE
  have L0 : Layout (m.copy frame args PAGE_SIZE) frame (relocated args_base args 0)
      (BitVec.ofNat 32 c) strs strs.length := by
    have hbase : relocated args_base args 0 = fun _ => args := by
      funext i
      exact if_neg (Nat.not_lt_zero i)
    rw [hbase]
    exact L.move hf fun k hk => Memory.copy_apply k hk (by decide)
  -- the two loops
  have hcount : (BitVec.ofNat 32 c).toInt.toNat = c := by
    unfold Fits headerSize PAGE_SIZE at hf
    rw [BitVec.toInt_eq_toNat_of_lt (by rw [BitVec.toNat_ofNat]; omega), Int.toNat_natCast,
      BitVec.toNat_ofNat]
    omega
  obtain ⟨m2, hm2, hoff2, L2⟩ := L0.relocateArgs hf c (by omega) (hmap.eqOff hoff)
  rw [Nat.zero_add] at L2
  have H2 := (hmap.eqOff hoff).eqOff hoff2
  obtain ⟨m3, hm3, hoff3, L3⟩ := L2.relocateEnv hf hargs hend (strs.length - c) (2 ^ 30)
    (Nat.add_sub_cancel' hc) (by unfold Fits headerSize PAGE_SIZE at hf; omega) H2
  refine ⟨m3, ?_, (hoff.trans hoff2).trans hoff3,
    ⟨L3.count, fun j hj => by rw [L3.ptr j hj, relocated, if_pos hj], L3.str, L3.null⟩⟩
  have hfirst : tr (m.copy frame args PAGE_SIZE) args_base = some frame := by
    have h := (hmap.eqOff hoff) _ (fun _ _ => rfl) 0 (by decide)
    rwa [BitVec.add_zero, BitVec.add_zero] at h
  have hslot : args_base + 4 + BitVec.ofNat 32 c * 4 = slot args_base c := by
    unfold slot
    bv_omega
  have hslot0 : args_base + 4 = slot args_base 0 := rfl
  simp only [Kernel.post_setup_image, hcopy, Option.bind_eq_bind, Option.bind_some, hfirst,
    L0.count, hcount]
  rw [hslot0, hm2, ← hslot0, hslot]
  exact hm3

/-- A page that `preserve_args_and_env` returns, copied to `args_base` and relocated there, holds
the arguments, or the name of the process if there are none, and the environment. -/
theorem post_setup_image_argsPage (tr : Memory → Word → Option Word) (m m₁ : Memory)
    (args args_base frame : Word) (name : ProcName) (n : Nat)
    (argv envp : Option (List ArgString)) (hlen : (argv.getD []).length = n)
    (hpage : (preserve_args_and_env m args name n argv envp).page ≠ 0)
    (hend : args.toNat + PAGE_SIZE ≤ 2 ^ 32)
    (hkeep : (preserve_args_and_env m args name n argv envp).mem.EqOn m₁ ⟨args, PAGE_SIZE⟩)
    (hmap : MapsPage tr m₁ args_base frame)
    (hdisj : (⟨frame, PAGE_SIZE⟩ : Region).Disjoint ⟨args, PAGE_SIZE⟩) :
    ∃ m₂, post_setup_image tr m₁ args_base args = some m₂ ∧
      ArgsPage (userView tr m₂) args_base (argStrings name n argv) (envStrings envp) := by
  have hf := fits_of_preserve hlen hpage
  obtain ⟨m', hm', -, L⟩ := preserve_layout m args hlen hf
  rw [hm'] at hpage hkeep
  have hc : (argStrings name n argv).length ≤
      (argStrings name n argv ++ envStrings envp).length := by
    rw [List.length_append]
    exact Nat.le_add_right _ _
  have L1 := L.move hf fun k hk => (hkeep _ (Region.mem_add hk (by decide))).symm
  obtain ⟨m₂, hrun, hoff, L2⟩ := L1.post_setup_image hf hc hpage hend hmap hdisj
  refine ⟨m₂, hrun, Layout.argsPage hf (L2.move hf fun k hk => ?_)⟩
  rw [userView, (hmap.eqOff hoff) _ (fun _ _ => rfl) k hk]
  rfl

end

/-- The page at `0xBFFFF000` mapped to the frame at `0x60000000`, and its neighbours likewise. -/
def argsMapping : Memory → Word → Option Word := fun _ x => some (0x60000000 + (x - 0xBFFFF000))

def shName : ProcName := ⟨[115, 104], by decide⟩

/-- `ls -l`. -/
def lsArgs : Option (List ArgString) := some [⟨[108, 115], by decide⟩, ⟨[45, 108], by decide⟩]

/-- The arguments `ls -l` without an environment, preserved in the block at `0x60100000`. -/
theorem post_setup_image_argsPage_ls :
    ∃ m₂, post_setup_image argsMapping
        (preserve_args_and_env (fun _ => 0xff) 0x60100000 shName 2 lsArgs none).mem
        0xBFFFF000 0x60100000 = some m₂ ∧
      ArgsPage (userView argsMapping m₂) 0xBFFFF000 [[108, 115], [45, 108]] [] := by
  refine post_setup_image_argsPage argsMapping (fun _ => 0xff) _ 0x60100000 0xBFFFF000 0x60000000
    shName 2 lsArgs none rfl ?_ (by decide) (fun _ _ => rfl) (fun m' _ k _ => ?_)
    (fun x hx hx' => ?_)
  · have hf : Fits (argStrings shName 2 lsArgs ++ envStrings none) := by
      unfold Fits
      decide
    have hlen : (lsArgs.getD []).length = 2 := rfl
    obtain ⟨m', hm', -⟩ := preserve_layout (fun _ => 0xff) 0x60100000 hlen hf
    rw [hm']
    exact (by decide : (0x60100000 : Word) ≠ 0)
  · simp only [argsMapping, Option.some.injEq]
    bv_omega
  · rw [Region.mem_def] at hx hx'
    unfold PAGE_SIZE at hx hx'
    bv_omega

end SyeLabs.Kernel
