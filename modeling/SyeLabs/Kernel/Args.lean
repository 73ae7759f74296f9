import SyeLabs.Mmu.Header
import SyeLabs.Kernel.Process

/-!
# The page of arguments: `preserve_args_and_env` and `post_setup_image`

The page holds `argc`, a pointer to each argument, a pointer to each environment string, a null
pointer, and then the strings. It is built in a block of the kernel heap, copied to the top of
the user area and relocated there.
-/

namespace SyeLabs.Kernel

open Mmu (PAGE_SIZE)

/-- A string that a caller passes; all of it lies in the user area, below `0xC0000000`. -/
abbrev ArgString := {s : List Byte // (0 : Byte) ∉ s ∧ s.length < 0xC0000000}

def strcpy (m : Memory) (p : Word) (s : List Byte) : Memory := m.write p (s ++ [0])

/-- One string: `__args[i] = args_str_p; strcpy(__args[i], s); args_str_p += strlen(s) + 1`. -/
def placeString (slot : Word) (s : List Byte) (st : Memory × Word) : Memory × Word :=
  let m := st.1.store slot st.2
  (strcpy m (m.load slot) s, st.2 + BitVec.ofNat 32 (s.length + 1))

/-- The loops over `argv` and `envp`; `false` once a string has ended beyond the page. -/
def placeStrings (args slot : Word) : List (List Byte) → Memory × Word → Bool × Memory × Word
  | [], st => (true, st)
  | s :: l, st =>
    let st := placeString slot s st
    if (st.2 - args).toNat > PAGE_SIZE then (false, st) else placeStrings args (slot + 4) l st

/-- The pointer that `preserve_args_and_env` returns, with 0 for NULL, and the memory. -/
structure Preserved where
  page : Word
  mem : Memory
  errno : Option Errno := none

/-- The cleared page with its first word, and the end of the pointers. -/
def argsHeader (m : Memory) (args : Word) (argc : Nat) (envp : Option (List ArgString)) :
    Memory × Word :=
  let m := m.fill args 0 PAGE_SIZE
  let m := m.store args (if argc = 0 then 1 else BitVec.ofNat 32 argc)
  let args_p := args + 4
  let args_p := if argc = 0 then args_p + 4 else args_p + 4 * BitVec.ofNat 32 argc
  match envp with
  | none => (m.store args_p 0, args_p + 4)
  | some envp => (m, args_p + 4 * BitVec.ofNat 32 (envp.length + 1))

/-- `args` is the block that `malloc` gives, and not NULL. -/
def preserve_args_and_env (m : Memory) (args : Word) (name : ProcName) (argc : Nat)
    (argv envp : Option (List ArgString)) : Preserved :=
  if 0 < argc && argv.isNone then { page := 0, mem := m, errno := some .EINVAL }
  else
    let st := argsHeader m args argc envp
    let __args := args + 4
    let st := if argc = 0 then placeString __args name st else st
    let (fits, st) := placeStrings args __args (((argv.getD []).take argc).map Subtype.val) st
    if !fits then { page := 0, mem := st.1, errno := some .ENOMEM }
    else
      let __args := args + 4 + 4 * st.1.load args
      let (fits, st) := placeStrings args __args ((envp.getD []).map Subtype.val) st
      if !fits then { page := 0, mem := st.1, errno := some .ENOMEM }
      else { page := args, mem := st.1 }

/-- `__args[i] = ((addr_t) __args[i] - (addr_t) args_env) + args_base`, through the MMU. -/
def relocate (tr : Memory → Word → Option Word) (args_base args_env slot : Word) (m : Memory) :
    Option Memory := do
  let p ← tr m slot
  return m.store p (m.load p - args_env + args_base)

/-- The loop over the first `n` pointers. -/
def relocateArgs (tr : Memory → Word → Option Word) (args_base args_env : Word) :
    Nat → Word → Memory → Option Memory
  | 0, _, m => some m
  | n + 1, slot, m => do
    let m ← relocate tr args_base args_env slot m
    relocateArgs tr args_base args_env n (slot + 4) m

/-- The loop up to the null pointer, for as many rounds as the address space has slots. -/
def relocateEnv (tr : Memory → Word → Option Word) (args_base args_env : Word) :
    Nat → Word → Memory → Option Memory
  | 0, _, _ => none
  | fuel + 1, slot, m => do
    let p ← tr m slot
    if m.load p = 0 then return m
    else
      let m ← relocate tr args_base args_env slot m
      relocateEnv tr args_base args_env fuel (slot + 4) m

/-- `post_setup_image`, apart from its `free(args_env)`. The kernel reaches `args_env` directly
and the user area through the translation `tr` of the current page table; `none` is a fault. -/
def post_setup_image (tr : Memory → Word → Option Word) (m : Memory) (args_base args_env : Word) :
    Option Memory := do
  let m ← m.memcpy tr (fun _ => some) args_base args_env PAGE_SIZE
  let p ← tr m args_base
  let argc := m.load p
  let m ← relocateArgs tr args_base args_env argc.toInt.toNat (args_base + 4) m
  relocateEnv tr args_base args_env (2 ^ 30) (args_base + 4 + argc * 4) m

/-! ## The layout -/

/-- The room that strings take with their terminators. -/
def stringsSize (l : List (List Byte)) : Nat := (l.map fun s => s.length + 1).sum

@[simp] theorem stringsSize_nil : stringsSize [] = 0 := rfl

@[simp] theorem stringsSize_cons (s : List Byte) (l : List (List Byte)) :
    stringsSize (s :: l) = s.length + 1 + stringsSize l := by simp [stringsSize]

@[simp] theorem stringsSize_append (l l' : List (List Byte)) :
    stringsSize (l ++ l') = stringsSize l + stringsSize l' := by simp [stringsSize]

theorem length_le_stringsSize (l : List (List Byte)) : l.length ≤ stringsSize l := by
  induction l with
  | nil => exact le_rfl
  | cons s l ih =>
    rw [List.length_cons, stringsSize_cons]
    omega

/-- The word before the pointers, the pointers and the null pointer. -/
def headerSize (n : Nat) : Nat := 4 * (n + 2)

/-- Where pointer `j` is kept. -/
def slot (p : Word) (j : Nat) : Word := p + BitVec.ofNat 32 (4 * (j + 1))

/-- Where string `j` starts. -/
def strOffset (strs : List (List Byte)) (j : Nat) : Nat :=
  headerSize strs.length + stringsSize (strs.take j)

theorem strOffset_succ {strs : List (List Byte)} {j : Nat} (h : j < strs.length) :
    strOffset strs (j + 1) = strOffset strs j + (strs[j].length + 1) := by
  rw [strOffset, strOffset, List.take_succ_eq_append_getElem h, stringsSize_append]
  simp only [stringsSize_cons, stringsSize_nil]
  omega

theorem strOffset_mono (strs : List (List Byte)) {i j : Nat} (h : i ≤ j) :
    strOffset strs i ≤ strOffset strs j := by
  obtain ⟨k, rfl⟩ := Nat.exists_eq_add_of_le h
  rw [strOffset, strOffset, List.take_add, stringsSize_append]
  omega

theorem strOffset_length (strs : List (List Byte)) :
    strOffset strs strs.length = headerSize strs.length + stringsSize strs := by
  rw [strOffset, List.take_length]

/-- The page at `p` with the first `k` strings of `strs` in place. Pointer `j` is relative to
`base j`, which changes as the pointers are relocated. -/
structure Layout (m : Memory) (p : Word) (base : Nat → Word) (argc : Word)
    (strs : List (List Byte)) (k : Nat) : Prop where
  count : m.load p = argc
  ptr : ∀ j < k, m.load (slot p j) = base j + BitVec.ofNat 32 (strOffset strs j)
  str : ∀ j (h : j < strs.length), j < k →
    m.Holds (p + BitVec.ofNat 32 (strOffset strs j)) (strs[j] ++ [0])
  null : ∀ j, k ≤ j → j ≤ strs.length → m.load (slot p j) = 0

variable {m m' : Memory} {p args slotPtr : Word} {base : Nat → Word} {argc : Word}
  {strs l l' : List (List Byte)} {k j : Nat} {st : Memory × Word}

/-- The page: all strings end in it. -/
def Fits (strs : List (List Byte)) : Prop := headerSize strs.length + stringsSize strs ≤ PAGE_SIZE

theorem Fits.strOffset_le (h : Fits strs) (hk : k ≤ strs.length) : strOffset strs k ≤ 4096 :=
  (strOffset_mono strs hk).trans (strOffset_length strs ▸ h)

theorem headerSize_le_strOffset (strs : List (List Byte)) (k : Nat) :
    headerSize strs.length ≤ strOffset strs k := Nat.le_add_right _ _

theorem slot_sub (h : j ≤ strs.length) (hf : Fits strs) :
    (⟨slot p j, 4⟩ : Region) ⊆ ⟨p, PAGE_SIZE⟩ := by
  unfold Fits headerSize PAGE_SIZE at hf
  exact Region.sub_add (by unfold PAGE_SIZE; omega) (by decide)

theorem disjoint_slot_slot (hj : j ≤ strs.length) (hk : k ≤ strs.length) (hf : Fits strs)
    (hne : j ≠ k) : (⟨slot p j, 4⟩ : Region).Disjoint ⟨slot p k, 4⟩ := by
  unfold Fits headerSize PAGE_SIZE at hf
  rcases lt_or_gt_of_ne hne with h | h
  · exact Region.disjoint_add (by omega) (by omega)
  · exact (Region.disjoint_add (by omega) (by omega)).symm

theorem disjoint_count_slot (hk : k ≤ strs.length) (hf : Fits strs) :
    (⟨p, 4⟩ : Region).Disjoint ⟨slot p k, 4⟩ := by
  unfold Fits headerSize PAGE_SIZE at hf
  have h : (⟨p + BitVec.ofNat 32 0, 4⟩ : Region).Disjoint ⟨slot p k, 4⟩ :=
    Region.disjoint_add (by omega) (by omega)
  simpa using h

/-- String `j` with its terminator. -/
def strRegion (p : Word) (strs : List (List Byte)) (j : Nat) (h : j < strs.length) : Region :=
  ⟨p + BitVec.ofNat 32 (strOffset strs j), (strs[j] ++ [0]).length⟩

theorem Fits.strOffset_add_le (hf : Fits strs) (h : j < strs.length) :
    strOffset strs j + (strs[j] ++ [0]).length ≤ 4096 := by
  have := hf.strOffset_le (k := j + 1) h
  rw [strOffset_succ h] at this
  simpa using this

theorem disjoint_slot_str (hf : Fits strs) (hj : j ≤ strs.length) (hk : k < strs.length) :
    (⟨slot p j, 4⟩ : Region).Disjoint (strRegion p strs k hk) := by
  have h := headerSize_le_strOffset strs k
  have h' := hf.strOffset_add_le hk
  unfold headerSize at h
  exact Region.disjoint_add (by omega) (by omega)

theorem disjoint_count_str (hf : Fits strs) (hk : k < strs.length) :
    (⟨p, 4⟩ : Region).Disjoint (strRegion p strs k hk) := by
  have h := headerSize_le_strOffset strs k
  have h' := hf.strOffset_add_le hk
  unfold headerSize at h
  have hd : (⟨p + BitVec.ofNat 32 0, 4⟩ : Region).Disjoint (strRegion p strs k hk) :=
    Region.disjoint_add (by omega) (by omega)
  simpa using hd

theorem disjoint_str_str (hf : Fits strs) (hjk : j < k) (hk : k < strs.length) :
    (strRegion p strs j (by omega)).Disjoint (strRegion p strs k hk) := by
  have hj : j < strs.length := hjk.trans hk
  have h := strOffset_mono strs (Nat.succ_le_of_lt hjk)
  have h' := hf.strOffset_add_le hk
  rw [Nat.succ_eq_add_one, strOffset_succ hj] at h
  exact Region.disjoint_add (by simpa using h) (by omega)

/-! ## Placing the strings -/

theorem placeString_fst (slotPtr : Word) (s : List Byte) (st : Memory × Word) :
    (placeString slotPtr s st).1 = (st.1.store slotPtr st.2).write st.2 (s ++ [0]) := by
  rw [placeString, strcpy, Memory.load_store_self]

theorem placeString_snd (slotPtr : Word) (s : List Byte) (st : Memory × Word) :
    (placeString slotPtr s st).2 = st.2 + BitVec.ofNat 32 (s.length + 1) := rfl

/-- Placing a string changes its pointer and its bytes. -/
theorem placeString_eqOn {s : List Byte} {r : Region} (hslot : r.Disjoint ⟨slotPtr, 4⟩)
    (hstr : r.Disjoint ⟨st.2, (s ++ [0]).length⟩) :
    Memory.EqOn st.1 (placeString slotPtr s st).1 r := by
  have h1 := (Memory.eqOff_store st.1 slotPtr st.2).eqOn hslot
  have h2 := (Memory.eqOff_write (st.1.store slotPtr st.2) st.2 (s ++ [0])).eqOn hstr
  exact placeString_fst slotPtr s st ▸ h1.trans h2

/-- Both lie in the page. -/
theorem placeString_eqOff (hf : Fits strs) (hk : k < strs.length)
    (hst : st.2 = p + BitVec.ofNat 32 (strOffset strs k)) :
    st.1.EqOff (placeString (slot p k) strs[k] st).1 ⟨p, PAGE_SIZE⟩ := by
  have hslot := (Memory.eqOff_store st.1 (slot p k) st.2).mono (slot_sub hk.le hf)
  have hstr : (⟨st.2, (strs[k] ++ [0]).length⟩ : Region) ⊆ ⟨p, PAGE_SIZE⟩ := by
    rw [hst]
    exact Region.sub_add (hf.strOffset_add_le hk) (by decide)
  rw [placeString_fst]
  exact hslot.trans ((Memory.eqOff_write _ _ _).mono hstr)

theorem Layout.place (L : Layout st.1 p (fun _ => p) argc strs k) (hf : Fits strs)
    (hk : k < strs.length) (hst : st.2 = p + BitVec.ofNat 32 (strOffset strs k)) :
    Layout (placeString (slot p k) strs[k] st).1 p (fun _ => p) argc strs (k + 1) := by
  have hregion : (⟨st.2, (strs[k] ++ [0]).length⟩ : Region) = strRegion p strs k hk := by
    rw [hst, strRegion]
  have hsame : ∀ {r : Region}, r.Disjoint ⟨slot p k, 4⟩ → r.Disjoint (strRegion p strs k hk) →
      Memory.EqOn st.1 (placeString (slot p k) strs[k] st).1 r := fun h h' =>
    placeString_eqOn h (hregion ▸ h')
  constructor
  case count =>
    rw [← L.count]
    exact (Memory.load_congr
      (hsame (disjoint_count_slot hk.le hf) (disjoint_count_str hf hk))).symm
  case ptr =>
    intro j hj
    rcases Nat.lt_succ_iff_lt_or_eq.mp hj with hj | rfl
    · rw [← L.ptr j hj]
      exact (Memory.load_congr (hsame (disjoint_slot_slot (by omega) hk.le hf (by omega))
        (disjoint_slot_str hf (by omega) hk))).symm
    · have hkeep := (Memory.eqOff_write (st.1.store (slot p j) st.2) st.2 (strs[j] ++ [0])).eqOn
        (hregion ▸ disjoint_slot_str (p := p) hf hk.le hk)
      have hload := Memory.load_congr hkeep
      rw [Memory.load_store_self] at hload
      rw [placeString_fst, ← hload, hst]
  case str =>
    intro j hjl hj
    rcases Nat.lt_succ_iff_lt_or_eq.mp hj with hj | rfl
    · refine (L.str j hjl hj).congr (hsame ?_ (disjoint_str_str hf hj hk)) ?_
      · exact (disjoint_slot_str hf hk.le hjl).symm
      · have := hf.strOffset_add_le hjl
        omega
    · rw [← hst]
      have := hf.strOffset_add_le hjl
      rw [placeString_fst]
      exact Memory.holds_write _ _ (by omega)
  case null =>
    intro j hkj hj
    rw [← L.null j (by omega) hj]
    exact (Memory.load_congr (hsame (disjoint_slot_slot hj hk.le hf (by omega))
      (disjoint_slot_str hf hj hk))).symm

theorem add_strOffset_succ (p : Word) (hk : k < strs.length) :
    p + BitVec.ofNat 32 (strOffset strs k) + BitVec.ofNat 32 (strs[k].length + 1) =
      p + BitVec.ofNat 32 (strOffset strs (k + 1)) := by
  rw [strOffset_succ hk, BitVec.add_assoc, ← BitVec.ofNat_add]

theorem slot_succ (p : Word) (j : Nat) : slot p j + 4 = slot p (j + 1) := by
  unfold slot
  bv_omega

/-- The loop places the strings of `l` after the `k` that are there. -/
theorem Layout.placeAll (hf : Fits strs) (l l' : List (List Byte)) (hl : strs.drop k = l ++ l')
    (L : Layout st.1 p (fun _ => p) argc strs k) (hk : k + l.length ≤ strs.length)
    (hst : st.2 = p + BitVec.ofNat 32 (strOffset strs k)) :
    ∃ st', placeStrings p (slot p k) l st = (true, st') ∧ st.1.EqOff st'.1 ⟨p, PAGE_SIZE⟩ ∧
      Layout st'.1 p (fun _ => p) argc strs (k + l.length) ∧
      st'.2 = p + BitVec.ofNat 32 (strOffset strs (k + l.length)) := by
  induction l generalizing k st with
  | nil => exact ⟨st, rfl, fun _ _ => rfl, L, hst⟩
  | cons s l ih =>
    rw [List.length_cons] at hk
    have hlt : k < strs.length := by omega
    obtain ⟨rfl, hrest⟩ : strs[k] = s ∧ strs.drop (k + 1) = l ++ l' := by
      rw [List.drop_eq_getElem_cons hlt] at hl
      exact List.cons.inj hl
    have hnext : (placeString (slot p k) strs[k] st).2 =
        p + BitVec.ofNat 32 (strOffset strs (k + 1)) := by
      rw [placeString_snd, hst, add_strOffset_succ p hlt]
    have hcheck : ¬((placeString (slot p k) strs[k] st).2 - p).toNat > PAGE_SIZE := by
      have := hf.strOffset_le (k := k + 1) hlt
      rw [hnext, PAGE_SIZE]
      bv_omega
    obtain ⟨st', hrun, hoff, L', hst'⟩ := ih hrest (L.place hf hlt hst) (by omega) hnext
    have hlen : k + (strs[k] :: l).length = k + 1 + l.length := by
      rw [List.length_cons]
      omega
    refine ⟨st', ?_, (placeString_eqOff hf hlt hst).trans hoff, hlen ▸ L', hlen ▸ hst'⟩
    rw [placeStrings, if_neg hcheck, slot_succ, hrun]

/-! ## What the checks of the two loops ensure -/

/-- Short enough for a length not to wrap an offset in the page. -/
def Short (l : List (List Byte)) : Prop := ∀ s ∈ l, s.length < 0xC0000000

theorem short_map (l : List ArgString) : Short (l.map Subtype.val) := by
  intro s hs
  obtain ⟨t, -, rfl⟩ := List.mem_map.mp hs
  exact t.property.2

/-- From an offset in the page the loop moves by the size of the strings. -/
theorem placeStrings_offset (hl : Short l) {st' : Memory × Word}
    (h : placeStrings args slotPtr l st = (true, st')) (hst : (st.2 - args).toNat ≤ PAGE_SIZE) :
    (st'.2 - args).toNat = (st.2 - args).toNat + stringsSize l ∧
      (st'.2 - args).toNat ≤ PAGE_SIZE := by
  induction l generalizing slotPtr st with
  | nil =>
    cases h
    exact ⟨rfl, hst⟩
  | cons s l ih =>
    rw [placeStrings] at h
    split at h
    · cases h
    · next hcheck =>
      obtain ⟨hs, hl⟩ := List.forall_mem_cons.mp hl
      obtain ⟨hoff, hle⟩ := ih hl h (not_lt.mp hcheck)
      refine ⟨?_, hle⟩
      rw [hoff, stringsSize_cons, placeString_snd]
      unfold PAGE_SIZE at hst
      bv_omega

/-- Whatever the offset is at first, after one string it is in the page: so a loop that comes to
its end has at most as many strings as the page has bytes, and one more. -/
theorem placeStrings_length (hl : Short l) (hne : l ≠ []) {st' : Memory × Word}
    (h : placeStrings args slotPtr l st = (true, st')) :
    l.length ≤ PAGE_SIZE + 1 ∧ (st'.2 - args).toNat ≤ PAGE_SIZE := by
  cases l with
  | nil => exact absurd rfl hne
  | cons s l =>
    rw [placeStrings] at h
    split at h
    · cases h
    · next hcheck =>
      obtain ⟨-, hl⟩ := List.forall_mem_cons.mp hl
      obtain ⟨hoff, hle⟩ := placeStrings_offset hl h (not_lt.mp hcheck)
      have := length_le_stringsSize l
      rw [List.length_cons]
      exact ⟨by omega, hle⟩

/-- A loop that starts less than `2 ^ 16` bytes from the page and comes to its end stays in it. -/
theorem placeStrings_fits (hl : Short l) (hne : l ≠ []) {st' : Memory × Word}
    (h : placeStrings args slotPtr l st = (true, st')) (hst : (st.2 - args).toNat ≤ 2 ^ 16) :
    (st'.2 - args).toNat = (st.2 - args).toNat + stringsSize l := by
  cases l with
  | nil => exact absurd rfl hne
  | cons s l =>
    rw [placeStrings] at h
    split at h
    · cases h
    · next hcheck =>
      obtain ⟨hs, hl⟩ := List.forall_mem_cons.mp hl
      obtain ⟨hoff, -⟩ := placeStrings_offset hl h (not_lt.mp hcheck)
      rw [hoff, stringsSize_cons, placeString_snd]
      bv_omega

/-! ## The page that `preserve_args_and_env` returns -/

/-- The strings of the arguments: the name of the process if there are none. -/
def argStrings (name : List Byte) (argc : Nat) (argv : Option (List ArgString)) :
    List (List Byte) :=
  if argc = 0 then [name] else (argv.getD []).map Subtype.val

def envStrings (envp : Option (List ArgString)) : List (List Byte) :=
  (envp.getD []).map Subtype.val

variable {name : ProcName} {n : Nat} {argv envp : Option (List ArgString)}

/-- The number of arguments that the page records. -/
theorem argStrings_length (name : List Byte) (hlen : (argv.getD []).length = n) :
    (argStrings name n argv).length = if n = 0 then 1 else n := by
  unfold argStrings
  split <;> simp_all

theorem argsHeader_snd (m : Memory) (args : Word) (name : List Byte)
    (envp : Option (List ArgString)) (hlen : (argv.getD []).length = n) :
    (argsHeader m args n envp).2 =
      args + BitVec.ofNat 32 (headerSize (argStrings name n argv ++ envStrings envp).length) := by
  rw [List.length_append, argStrings_length name hlen, headerSize]
  cases envp <;> by_cases hn : n = 0 <;> simp only [argsHeader, envStrings, hn, if_true, if_false,
    Option.getD_none, Option.getD_some, List.map_nil, List.length_nil, List.length_map] <;> bv_omega

/-- The strings are placed in the order of `argStrings` and `envStrings`; of the two checks only
that for the name is missing. -/
theorem preserve_eq (hlen : (argv.getD []).length = n) :
    preserve_args_and_env m args name n argv envp =
      let (fits, st) :=
        if n = 0 then (true, placeString (args + 4) name (argsHeader m args n envp))
        else placeStrings args (args + 4) (argStrings name n argv) (argsHeader m args n envp)
      if !fits then { page := 0, mem := st.1, errno := some .ENOMEM }
      else
        let (fits, st) := placeStrings args (args + 4 + 4 * st.1.load args) (envStrings envp) st
        if !fits then { page := 0, mem := st.1, errno := some .ENOMEM }
        else { page := args, mem := st.1 } := by
  have hguard : ¬((0 < n && argv.isNone) = true) := by
    cases argv with
    | none => simp_all
    | some l => simp
  rw [preserve_args_and_env, if_neg hguard]
  by_cases hn : n = 0
  · simp [hn, placeStrings, envStrings]
  · simp [hn, argStrings, envStrings, List.take_of_length_le hlen.le]

/-- A page is returned only if everything fits into it. -/
theorem fits_of_preserve (hlen : (argv.getD []).length = n)
    (h : (preserve_args_and_env m args name n argv envp).page ≠ 0) :
    Fits (argStrings name n argv ++ envStrings envp) := by
  have hstart := argsHeader_snd m args name envp hlen
  have henv : Short (envStrings envp) := short_map _
  have hN := argStrings_length name hlen
  rw [preserve_eq hlen] at h
  rw [List.length_append, headerSize] at hstart
  rw [Fits, headerSize, List.length_append, stringsSize_append]
  generalize argsHeader m args n envp = st0 at h hstart
  by_cases hn : n = 0
  · -- the name is not checked, but it is short
    have hname : argStrings name n argv = [name.val] := if_pos hn
    have hsize : name.val.length < 80 := name.property.2
    rw [hname, List.length_singleton] at hstart ⊢
    rw [stringsSize_cons, stringsSize_nil]
    simp only [hn, if_true, Bool.not_true, Bool.false_eq_true, if_false] at h
    have hst1 := placeString_snd (args + 4) name st0
    generalize placeString (args + 4) name st0 = st1 at h hst1
    rcases hrun : placeStrings args (args + 4 + 4 * st1.1.load args) (envStrings envp) st1
      with ⟨fits, st2⟩
    rw [hrun] at h
    cases fits with
    | false => simp at h
    | true =>
      by_cases hnil : envStrings envp = []
      · rw [hnil, List.length_nil, stringsSize_nil, PAGE_SIZE]
        omega
      · obtain ⟨hcount, hle⟩ := placeStrings_length henv hnil hrun
        unfold PAGE_SIZE at hcount
        have hoff : (st1.2 - args).toNat =
            4 * (1 + (envStrings envp).length + 2) + (name.val.length + 1) := by
          rw [hst1, hstart]
          bv_omega
        have := placeStrings_fits henv hnil hrun (by omega)
        omega
  · -- both loops are checked, which bounds the number of strings first
    have hargs : Short (argStrings name n argv) := by
      rw [argStrings, if_neg hn]
      exact short_map _
    have hnil : argStrings name n argv ≠ [] := by
      rw [← List.length_pos_iff, hN, if_neg hn]
      omega
    simp only [hn, if_false] at h
    rcases hrun : placeStrings args (args + 4) (argStrings name n argv) st0 with ⟨fits, st1⟩
    rw [hrun] at h
    cases fits with
    | false => simp at h
    | true =>
      simp only [Bool.not_true, Bool.false_eq_true, if_false] at h
      rcases hrun' : placeStrings args (args + 4 + 4 * st1.1.load args) (envStrings envp) st1
        with ⟨fits, st2⟩
      rw [hrun'] at h
      cases fits with
      | false => simp at h
      | true =>
        obtain ⟨hcount, hle⟩ := placeStrings_length hargs hnil hrun
        obtain ⟨hoff', hle'⟩ := placeStrings_offset henv hrun' hle
        have := length_le_stringsSize (envStrings envp)
        unfold PAGE_SIZE at hcount hle hle' ⊢
        have hoff0 : (st0.2 - args).toNat =
            4 * ((argStrings name n argv).length + (envStrings envp).length + 2) := by
          rw [hstart]
          bv_omega
        have := placeStrings_fits hargs hnil hrun (by omega)
        omega

theorem load_fill_slot (m : Memory) (hf : Fits strs) (hj : j ≤ strs.length) :
    (m.fill args 0 PAGE_SIZE).load (slot args j) = 0 :=
  Memory.load_fill_zero (slot_sub hj hf)

/-- The cleared page with its first word; without an environment the null pointer is written once
more. -/
theorem argsHeader_fst (m : Memory) (args : Word) (name : List Byte)
    (envp : Option (List ArgString)) (hlen : (argv.getD []).length = n) :
    let cleared := (m.fill args 0 PAGE_SIZE).store args
      (BitVec.ofNat 32 (argStrings name n argv).length)
    (argsHeader m args n envp).1 = cleared ∨ (argsHeader m args n envp).1 =
      cleared.store (slot args (argStrings name n argv ++ envStrings envp).length) 0 := by
  have hN := argStrings_length name hlen
  have hcount : (if n = 0 then 1 else BitVec.ofNat 32 n) =
      BitVec.ofNat 32 (argStrings name n argv).length := by
    rw [hN]
    split <;> rfl
  unfold argsHeader
  rw [hcount]
  cases envp with
  | none =>
    right
    have hend : (if n = 0 then args + 4 + 4 else args + 4 + 4 * BitVec.ofNat 32 n) =
        slot args (argStrings name n argv ++ envStrings none).length := by
      rw [List.length_append, hN, slot]
      by_cases hn : n = 0 <;> simp only [hn, envStrings, if_true, if_false, Option.getD_none,
        List.map_nil, List.length_nil] <;> bv_omega
    simp only [hend]
  | some envp => exact .inl rfl

theorem argsHeader_eqOff (m : Memory) (args : Word) (hlen : (argv.getD []).length = n)
    (hf : Fits (argStrings name n argv ++ envStrings envp)) :
    m.EqOff (argsHeader m args n envp).1 ⟨args, PAGE_SIZE⟩ := by
  have hfirst : m.EqOff ((m.fill args 0 PAGE_SIZE).store args
      (BitVec.ofNat 32 (argStrings name n argv).length)) ⟨args, PAGE_SIZE⟩ :=
    (Memory.eqOff_fill _ _ _ _).trans
      ((Memory.eqOff_store _ _ _).mono (Region.sub_size (show 4 ≤ 4096 by decide)))
  rcases argsHeader_fst m args name envp hlen with h | h <;> rw [h]
  · exact hfirst
  · exact hfirst.trans ((Memory.eqOff_store _ _ _).mono (slot_sub le_rfl hf))

/-- Before the strings are placed. -/
theorem argsHeader_layout (m : Memory) (args : Word) (hlen : (argv.getD []).length = n)
    (hf : Fits (argStrings name n argv ++ envStrings envp)) :
    Layout (argsHeader m args n envp).1 args (fun _ => args)
      (BitVec.ofNat 32 (argStrings name n argv).length)
      (argStrings name n argv ++ envStrings envp) 0 := by
  have hfst := argsHeader_fst m args name envp hlen
  generalize argStrings name n argv ++ envStrings envp = strs at hf hfst
  have hm : ∀ j ≤ strs.length, ((m.fill args 0 PAGE_SIZE).store args
      (BitVec.ofNat 32 (argStrings name n argv).length)).load (slot args j) = 0 := by
    intro j hj
    rw [Memory.load_store_of_disjoint (disjoint_count_slot hj hf).symm, load_fill_slot m hf hj]
  rcases hfst with hfst | hfst <;> rw [hfst]
  · exact ⟨Memory.load_store_self _ _ _, nofun, nofun, fun j _ => hm j⟩
  · refine ⟨?_, nofun, nofun, fun j _ hj => ?_⟩
    · rw [Memory.load_store_of_disjoint (disjoint_count_slot le_rfl hf), Memory.load_store_self]
    · by_cases hjl : j = strs.length
      · rw [hjl, Memory.load_store_self]
      · rw [Memory.load_store_of_disjoint (disjoint_slot_slot hj le_rfl hf hjl), hm j hj]

/-- If everything fits, the page is returned, complete, and memory has changed in it only. -/
theorem preserve_layout (m : Memory) (args : Word) (hlen : (argv.getD []).length = n)
    (hf : Fits (argStrings name n argv ++ envStrings envp)) :
    ∃ m', preserve_args_and_env m args name n argv envp = { page := args, mem := m' } ∧
      m.EqOff m' ⟨args, PAGE_SIZE⟩ ∧
      Layout m' args (fun _ => args) (BitVec.ofNat 32 (argStrings name n argv).length)
        (argStrings name n argv ++ envStrings envp)
        (argStrings name n argv ++ envStrings envp).length := by
  have hstart := argsHeader_snd m args name envp hlen
  have hoff := argsHeader_eqOff m args hlen hf
  have L := argsHeader_layout m args hlen hf
  generalize hstrs : argStrings name n argv ++ envStrings envp = strs at hstart L hf ⊢
  have hN := argStrings_length name hlen
  have hl : strs.length = (argStrings name n argv).length + (envStrings envp).length := by
    rw [← hstrs, List.length_append]
  have hslot : slot args 0 = args + 4 := rfl
  rw [preserve_eq hlen]
  -- the arguments, or the name
  obtain ⟨st, hst, hoff1, L, hp⟩ : ∃ st, (if n = 0 then
        (true, placeString (args + 4) name (argsHeader m args n envp))
      else placeStrings args (args + 4) (argStrings name n argv) (argsHeader m args n envp)) =
        (true, st) ∧
      (argsHeader m args n envp).1.EqOff st.1 ⟨args, PAGE_SIZE⟩ ∧
      Layout st.1 args (fun _ => args) (BitVec.ofNat 32 (argStrings name n argv).length) strs
        (argStrings name n argv).length ∧
      st.2 = args + BitVec.ofNat 32 (strOffset strs (argStrings name n argv).length) := by
    by_cases hn : n = 0
    · have hpos : 0 < strs.length := by
        rw [hl, hN, if_pos hn]
        omega
      have hname : strs[0] = name.val := by
        simp only [← hstrs, argStrings, hn, if_true, List.singleton_append,
          List.getElem_cons_zero]
      have hone : (argStrings name n argv).length = 0 + 1 := by rw [hN, if_pos hn]
      rw [if_pos hn]
      refine ⟨_, rfl, ?_, ?_, ?_⟩
      · have h := placeString_eqOff hf hpos hstart
        rwa [hslot, hname] at h
      · have L1 := L.place hf hpos hstart
        rwa [hslot, hname, ← hone] at L1
      · rw [hone, ← hname, placeString_snd, hstart]
        exact add_strOffset_succ args hpos
    · obtain ⟨st, hst, hoff1, L, hp⟩ := L.placeAll hf (argStrings name n argv) (envStrings envp)
        (by rw [← hstrs, List.drop_zero]) (by omega) (by rw [hstart]; rfl)
      rw [Nat.zero_add] at L hp
      exact ⟨st, by rw [if_neg hn, ← hst, hslot], hoff1, L, hp⟩
  -- the environment
  obtain ⟨st', hst', hoff2, L', -⟩ := L.placeAll hf (envStrings envp) []
    (by rw [← hstrs, List.drop_left, List.append_nil]) hl.ge hp
  have henv : args + 4 + 4 * st.1.load args = slot args (argStrings name n argv).length := by
    rw [L.count, slot]
    bv_omega
  rw [hst]
  simp only [Bool.not_true, Bool.false_eq_true, if_false, henv, hst']
  exact ⟨_, rfl, (hoff.trans hoff1).trans hoff2, hl ▸ L'⟩

/-- An argument that is longer than a page. -/
def longArg : ArgString :=
  ⟨List.replicate 5000 97, fun h => absurd (List.eq_of_mem_replicate h) (by decide),
    List.length_replicate.trans_lt (by decide)⟩

end SyeLabs.Kernel
