import SyeLabs.Mmu.Release
import SyeLabs.Mmu.Translation

/-!
# A step on one tree, seen from the others

A step on the tree of one process may change this tree, and the blocks that are as large as a
page: these are no tables. Some slots of each process are its own: their tables are in no other
tree. The trees beside the one that is changed keep their entries, and the tables in these slots.
-/

namespace SyeLabs.Mmu

variable {H : Header} {al : Allocators} {m m' m'' : Machine} {a c p root : Word} {i k n : Nat}
  {S U : Nat → Prop} {mem mem' mem'' : Memory} {pool : Pool} {r : Region} {b : Pool × Region}

/-- The tree at `c` is as before: its entries, and its tables in the slots `U`. -/
structure Stays (H : Header) (U : Nat → Prop) (c : Word) (mem mem' : Memory) : Prop where
  entries : ∀ i < 4096, l1 mem c i = l1 mem' c i
  tables : ∀ i < 4096, U i → IsTable H (l1 mem' c i) → ∀ j < 256, l2 mem c i j = l2 mem' c i j

theorem Stays.refl (mem : Memory) : Stays H U c mem mem :=
  ⟨fun _ _ => rfl, fun _ _ _ _ _ _ => rfl⟩

theorem Stays.trans (h : Stays H U c mem mem') (h' : Stays H U c mem' mem'') :
    Stays H U c mem mem'' where
  entries i hi := (h.entries i hi).trans (h'.entries i hi)
  tables i hi hU ht j hj := by
    have ht' := h'.entries i hi ▸ ht
    exact (h.tables i hi hU ht' j hj).trans (h'.tables i hi hU ht j hj)

theorem Stays.of_eqOn (hroot : mem.EqOn mem' (rootRegion c))
    (htable : ∀ i < 4096, U i → IsTable H (l1 mem c i) →
      mem.EqOn mem' (tableRegion (tableOf (l1 mem c i)))) : Stays H U c mem mem' where
  entries := l1_eq_of_eqOn hroot
  tables i hi hU ht j hj := by
    have hl1 := l1_eq_of_eqOn hroot i hi
    exact l2_congr hl1 (htable i hi hU (hl1 ▸ ht)) hj

theorem Stays.sameSlots (h : Stays H U c mem mem') (hn : n ≤ 4096) (hU : ∀ i < n, U i) :
    SameSlots H n c mem mem' := fun i hi =>
  ⟨h.entries i (lt_of_lt_of_le hi hn), h.tables i (lt_of_lt_of_le hi hn) (hU i hi)⟩

/-- The tree at `c` beside that at `a`: the slots `U` of both are their own. -/
structure Beside (H : Header) (U : Nat → Prop) (a c : Word) (m : Machine) : Prop where
  ne : a ≠ c
  tables : TablesOk H m c
  alone : ∀ i < 4096, U i → Alone H m.mem a c i
  alone' : ∀ i < 4096, U i → Alone H m.mem c a i

theorem Beside.of_entries (B : Beside H U a c m) (T : TablesOk H m' c)
    (ha : ∀ i < 4096, l1 m.mem a i = l1 m'.mem a i)
    (hc : ∀ i < 4096, l1 m.mem c i = l1 m'.mem c i) : Beside H U a c m' :=
  ⟨B.ne, T, fun i hi hU => (B.alone i hi hU).of_entries hi ha hc,
    fun i hi hU => (B.alone' i hi hU).of_entries hi hc ha⟩

theorem Beside.symm (B : Beside H U a c m) (T : TablesOk H m a) : Beside H U c a m :=
  ⟨B.ne.symm, T, B.alone', B.alone⟩

/-- Slot `i` does not hold a section. -/
def NoSect (H : Header) (mem : Memory) (root : Word) (i : Nat) : Prop :=
  H.l1pte_is_sect (l1 mem root i) = false ∨ l1 mem root i = 0

theorem NoSect.congr (h : NoSect H mem root i) (hl1 : l1 mem' root i = l1 mem root i) :
    NoSect H mem' root i := by
  rw [NoSect, hl1]
  exact h

theorem IsTable.noSect (h : IsTable H (l1 mem root i)) : NoSect H mem root i := .inl h.2

/-! ## Steps on blocks of the size of a page -/

/-- A step that leaves alone all blocks that are not as large as a page. Those that are may be
written to, given out or given back, apart from the image of the kernel. -/
structure Quiet (m m' : Machine) : Prop where
  blocks : BlocksOk (live m'.trace)
  block : ∀ b ∈ live m.trace, b.2.size ≠ PAGE_SIZE → b ∈ live m'.trace ∧ m.mem.EqOn m'.mem b.2
  image : ∀ b ∈ live m.trace, b.1 = .image → b ∈ live m'.trace
  sys_root : m'.sys_root_pgtable = m.sys_root_pgtable
  current : m'.current_pgtable = m.current_pgtable

theorem Quiet.refl (B : BlocksOk (live m.trace)) : Quiet m m :=
  ⟨B, fun _ hb _ => ⟨hb, fun _ _ => rfl⟩, fun _ hb _ => hb, rfl, rfl⟩

theorem Quiet.trans (Q : Quiet m m') (Q' : Quiet m' m'') : Quiet m m'' where
  blocks := Q'.blocks
  block b hb hsize := by
    obtain ⟨hlive, heq⟩ := Q.block b hb hsize
    obtain ⟨hlive', heq'⟩ := Q'.block b hlive hsize
    exact ⟨hlive', heq.trans heq'⟩
  image b hb himage := Q'.image b (Q.image b hb himage) himage
  sys_root := Q'.sys_root.trans Q.sys_root
  current := Q'.current.trans Q.current

/-- A block is given out. -/
theorem Quiet.alloc (B : BlocksOk (live m.trace)) {align : Nat}
    (F : Fresh (live m.trace) p PAGE_SIZE align) (pool : Pool) :
    Quiet m { m with trace := .alloc pool ⟨p, PAGE_SIZE⟩ :: m.trace } where
  blocks := B.cons F (by decide) pool
  block _ hb _ := ⟨List.mem_cons_of_mem _ hb, fun _ _ => rfl⟩
  image _ hb _ := List.mem_cons_of_mem _ hb
  sys_root := rfl
  current := rfl

/-- A block is given back. -/
theorem Quiet.free (B : BlocksOk (live m.trace)) (hb : (pool, ⟨p, PAGE_SIZE⟩) ∈ live m.trace)
    (hpool : pool ≠ .image) : Quiet m { m with trace := .free pool p :: m.trace } where
  blocks := B.sublist List.filter_sublist
  block b hb' hsize := by
    refine ⟨(B.mem_live_free hb).mpr ⟨hb', fun h => hsize ?_⟩, fun _ _ => rfl⟩
    rw [h]
  image b hb' himage := mem_live_free.mpr ⟨hb', fun h => hpool (h.1.symm.trans himage)⟩
  sys_root := rfl
  current := rfl

/-- A block is written to. -/
theorem Quiet.write (B : BlocksOk (live m.trace)) (hr : (pool, r) ∈ live m.trace)
    (hsize : r.size = PAGE_SIZE) (hw : m.mem.EqOff mem' r) : Quiet m { m with mem := mem' } where
  blocks := B
  block b hb hne := by
    refine ⟨hb, hw.eqOn (B.disjoint hb hr fun h => hne ?_)⟩
    exact (congrArg (fun x => x.2.size) h).trans hsize
  image _ hb _ := hb
  sys_root := rfl
  current := rfl

section
variable (Q : Quiet m m') (T : TablesOk H m c)
include Q T

theorem Quiet.entries (i : Nat) (hi : i < 4096) : l1 m.mem c i = l1 m'.mem c i := by
  obtain ⟨pool, hpool⟩ := T.root_live
  exact l1_eq_of_eqOn (Q.block _ hpool (show 16384 ≠ 4096 by decide)).2 i hi

theorem Quiet.tables : TablesOk H m' c :=
  T.of_entries (Q.entries T) (fun b hb hsize => (Q.block b hb hsize).1) Q.blocks

theorem Quiet.sameSlots : SameSlots H 4096 c m.mem m'.mem := by
  obtain ⟨pool, hpool⟩ := T.root_live
  refine SameSlots.of_eqOn le_rfl (Q.block _ hpool (show 16384 ≠ 4096 by decide)).2 ?_
  exact fun i hi ht => (Q.block _ (T.table_live i hi ht) (show 1024 ≠ 4096 by decide)).2

theorem Quiet.stays : Stays H U c m.mem m'.mem :=
  ⟨Q.entries T, fun i hi _ => (Q.sameSlots T i hi).2⟩

end

/-! ## Steps on the tree at `a` -/

/-- What a step on the tree at `a` is to the trees beside it. Root tables stay where they are. -/
structure Confined (H : Header) (U : Nat → Prop) (a : Word) (m m' : Machine) : Prop where
  tables : TablesOk H m' a
  beside : ∀ c, Beside H U a c m → Beside H U a c m' ∧ Stays H U c m.mem m'.mem
  root : ∀ b ∈ live m.trace, b.2.size = 16384 → b ∈ live m'.trace
  image : ∀ b ∈ live m.trace, b.1 = .image → b ∈ live m'.trace
  sys_root : m'.sys_root_pgtable = m.sys_root_pgtable
  current : m'.current_pgtable = m.current_pgtable

theorem Confined.refl (T : TablesOk H m a) : Confined H U a m m :=
  ⟨T, fun _ B => ⟨B, Stays.refl _⟩, fun _ hb _ => hb, fun _ hb _ => hb, rfl, rfl⟩

theorem Confined.trans (C : Confined H U a m m') (C' : Confined H U a m' m'') :
    Confined H U a m m'' where
  tables := C'.tables
  beside c B := by
    obtain ⟨B', h⟩ := C.beside c B
    obtain ⟨B'', h'⟩ := C'.beside c B'
    exact ⟨B'', h.trans h'⟩
  root b hb hsize := C'.root b (C.root b hb hsize) hsize
  image b hb himage := C'.image b (C.image b hb himage) himage
  sys_root := C'.sys_root.trans C.sys_root
  current := C'.current.trans C.current

theorem Quiet.confined (Q : Quiet m m') (T : TablesOk H m a) : Confined H U a m m' where
  tables := Q.tables T
  beside _ B :=
    ⟨B.of_entries (Q.tables B.tables) (Q.entries T) (Q.entries B.tables), Q.stays B.tables⟩
  root b hb hsize := (Q.block b hb (hsize ▸ show 16384 ≠ 4096 by decide)).1
  image := Q.image
  sys_root := Q.sys_root
  current := Q.current

theorem Extends.stays (E : Extends H a S m m') (B : Beside H U a c m) :
    Stays H U c m.mem m'.mem :=
  Stays.of_eqOn (E.other_root B.tables B.ne) fun i hi hU =>
    E.other_table B.tables hi (B.alone i hi hU)

theorem Extends.beside (E : Extends H a S m m') (B : Beside H U a c m) : Beside H U a c m' :=
  ⟨B.ne, E.other_tables B.tables B.ne,
    fun i hi hU => E.alone_left B.tables B.ne hi (B.alone i hi hU),
    fun i hi hU => E.alone_right B.tables B.ne hi (B.alone' i hi hU)⟩

theorem Extends.confined (E : Extends H a S m m') : Confined H U a m m' where
  tables := E.tables
  beside _ B := ⟨E.beside B, E.stays B⟩
  root _ hb _ := E.live_sub hb
  image _ hb _ := E.live_sub hb
  sys_root := E.sys_root
  current := E.current

section
variable (R : Shrinks H a i m m') (T : TablesOk H m a) (hi : i < 4096)
include R T hi

theorem Shrinks.noSect (hk : k < 4096) (h : NoSect H m.mem a k) : NoSect H m'.mem a k := by
  rcases eq_or_ne k i with rfl | hne
  · rcases R.fate with ⟨-, hsame | ⟨-, hz⟩⟩ | ⟨-, hz, -⟩
    · exact h.congr hsame
    · exact .inr hz
    · exact .inr hz
  · exact h.congr (R.l1_eq T hi hk hne).symm

theorem Shrinks.beside (B : Beside H U a c m) (hU : U i) :
    Beside H U a c m' ∧ Stays H U c m.mem m'.mem := by
  have hroot := R.other_root T hi B.tables B.ne
  have hentries := l1_eq_of_eqOn hroot
  have hkept : ∀ k < 4096, IsTable H (l1 m'.mem a k) → l1 m'.mem a k = l1 m.mem a k :=
    fun k hk ht => (R.isTable T hi hk ht).1
  obtain ⟨pool, hpool⟩ := B.tables.root_live
  have htables : TablesOk H m' c := by
    constructor
    case blocks => exact T.blocks.sublist R.live_sublist
    case root_live =>
      refine ⟨pool, R.mem_live T hi hpool fun _ h => ?_⟩
      exact rootRegion_ne_tableRegion _ _ (congrArg Prod.snd h)
    case table_live =>
      intro k hk ht
      rw [← hentries k hk] at ht ⊢
      refine R.mem_live T hi (B.tables.table_live k hk ht) fun hta h => ?_
      exact B.alone' i hi hU k hk hta ht (congrArg (fun x => x.2.base) h).symm
    case inj =>
      intro k hk k' hk' ht ht' heq
      rw [← hentries k hk] at ht heq
      rw [← hentries k' hk'] at ht' heq
      exact B.tables.inj k hk k' hk' ht ht' heq
  refine ⟨⟨B.ne, htables, fun k hk hUk k' hk' ht ht' => ?_, fun k hk hUk k' hk' ht ht' => ?_⟩,
    Stays.of_eqOn hroot fun k hk hUk => R.other_table T hi B.tables hk (B.alone k hk hUk)⟩
  · have heq := hkept k' hk' ht'
    rw [heq] at ht' ⊢
    rw [← hentries k hk] at ht ⊢
    exact B.alone k hk hUk k' hk' ht ht'
  · have heq := hkept k hk ht
    rw [heq] at ht ⊢
    rw [← hentries k' hk'] at ht' ⊢
    exact B.alone' k hk hUk k' hk' ht ht'

theorem Shrinks.confined (hU : U i) : Confined H U a m m' where
  tables := R.tables T hi
  beside _ B := R.beside T hi B hU
  root b hb hsize := by
    refine R.mem_live T hi hb fun _ h => ?_
    rw [h] at hsize
    exact absurd hsize (show 1024 ≠ 16384 by decide)
  image b hb himage := by
    refine R.mem_live T hi hb fun _ h => ?_
    rw [h] at himage
    exact Pool.noConfusion himage
  sys_root := R.sys_root
  current := R.current

end

/-! ## A block of the size of a page, seen from a tree -/

/-- The block is live, with the contents that it has in `mem`. -/
structure Intact (mem : Memory) (b : Pool × Region) (m : Machine) : Prop where
  live : b ∈ live m.trace
  eqOn : mem.EqOn m.mem b.2

theorem Extends.intact (E : Extends H a S m m') (I : Intact mem b m)
    (hsize : b.2.size = PAGE_SIZE) : Intact mem b m' := by
  obtain ⟨pool, r⟩ := b
  change r.size = PAGE_SIZE at hsize
  refine ⟨E.live_sub I.live, I.eqOn.trans (E.eqOn_live I.live (fun h => ?_) fun k _ _ h => ?_)⟩
  · rw [show r = _ from h] at hsize
    exact absurd hsize (show 16384 ≠ 4096 by decide)
  · rw [show r = _ from congrArg Prod.snd h] at hsize
    exact absurd hsize (show 1024 ≠ 4096 by decide)

theorem Shrinks.intact (R : Shrinks H a i m m') (T : TablesOk H m a) (hi : i < 4096)
    (I : Intact mem b m) (hsize : b.2.size = PAGE_SIZE) : Intact mem b m' := by
  obtain ⟨pool, r⟩ := b
  change r.size = PAGE_SIZE at hsize
  have htable : ∀ t, (pool, r) ≠ (.heap, tableRegion t) := by
    intro t h
    rw [show r = _ from congrArg Prod.snd h] at hsize
    exact absurd hsize (show 1024 ≠ 4096 by decide)
  refine ⟨R.mem_live T hi I.live fun _ => htable _, I.eqOn.trans ?_⟩
  refine R.eqOn_live T hi I.live (fun h => ?_) fun _ => htable _
  rw [show r = _ from h] at hsize
  exact absurd hsize (show 16384 ≠ 4096 by decide)

/-! ## `reset_root_pgtable` -/

/-- The user area of the tree at `a` has been emptied up to slot `k`. -/
structure Emptied (H : Header) (U : Nat → Prop) (n : Nat) (a : Word) (k : Nat) (m m' : Machine) :
    Prop extends Confined H U a m m' where
  empty : ∀ i < k, l1 m'.mem a i = 0
  noSect : ∀ i < 4096, NoSect H m.mem a i → NoSect H m'.mem a i
  intact : ∀ {mem b}, b.2.size = PAGE_SIZE → Intact mem b m → Intact mem b m'
  frames : onPool .frames m'.trace = onPool .frames m.trace

theorem Shrinks.onPool_eq (R : Shrinks H a i m m') {pool : Pool} (hpool : pool ≠ .heap) :
    onPool pool m'.trace = onPool pool m.trace := by
  rcases R.fate with ⟨htrace, -⟩ | ⟨-, -, htrace⟩
  · rw [htrace]
  · rw [htrace, onPool_cons]
    exact if_neg hpool.symm

theorem reset_root_pgtable_spec (T : TablesOk H m a) (hn : n ≤ 4096) (hU : ∀ i < n, U i) :
    wp (reset_root_pgtable H n m a false) (Emptied H U n a n m) (fun _ => False) := by
  unfold reset_root_pgtable
  refine wp.bind (wp_forLoop (fun k m' => Emptied H U n a k m m') ?_ ?_)
    fun m' hm' => wp_pure.mpr hm'
  · rintro k m1 hk ⟨C, hempty, hsect, hintact, hframes⟩
    have hk4 : k < 4096 := lt_of_lt_of_le hk hn
    refine (resetEntry_spec C.tables hk4).mono ?_
    rintro m2 ⟨R, hzero⟩
    refine ⟨C.trans (R.confined C.tables hk4 (hU k hk)), fun i hi => ?_,
      fun i hi h => R.noSect C.tables hk4 hi (hsect i hi h),
      fun hsize I => R.intact C.tables hk4 (hintact hsize I) hsize,
      (R.onPool_eq (by decide)).trans hframes⟩
    rcases Nat.lt_succ_iff_lt_or_eq.mp hi with h | rfl
    · rw [← R.l1_eq C.tables hk4 (by omega) (by omega)]
      exact hempty i h
    · exact hzero
  · exact ⟨Confined.refl T, fun i hi => absurd hi (Nat.not_lt_zero i), fun _ _ h => h,
      fun _ I => I, rfl⟩

/-! ## `pgtable_copy_kernel_area` -/

theorem entry_add (t : Word) (i k : Nat) :
    entry t (i + k) = entry t i + BitVec.ofNat 32 (4 * k) := by
  rw [entry, entry, Nat.mul_add, BitVec.ofNat_add, BitVec.add_assoc]

/-- The entries are copied one after the other. -/
theorem pgtable_copy_kernel_area_eq (hn : n ≤ 4096)
    (hdisj : (rootRegion root).Disjoint (rootRegion m.sys_root_pgtable)) :
    pgtable_copy_kernel_area n m root = { m with
      mem := m.mem.copy (entry root n) (entry m.sys_root_pgtable n) (4 * (4096 - n)) } := by
  have hloop : ∀ k ≤ 4096 - n, (List.range' n k).foldl (fun mem i =>
      mem.store (entry root i) (mem.load (entry m.sys_root_pgtable i))) m.mem =
        m.mem.copy (entry root n) (entry m.sys_root_pgtable n) (4 * k) := by
    intro k
    induction k with
    | zero =>
      intro _
      exact (funext fun x => if_neg (Nat.not_lt_zero _)).symm
    | succ k ih =>
      intro hk
      have hd : (⟨entry root n, 4 * k + 4⟩ : Region).Disjoint
          ⟨entry m.sys_root_pgtable n, 4 * k + 4⟩ :=
        hdisj.mono (Region.sub_add (by omega) (by decide)) (Region.sub_add (by omega) (by decide))
      rw [List.range'_concat, List.foldl_append, ih (by omega), Nat.one_mul]
      simp only [List.foldl_cons, List.foldl_nil, entry_add]
      exact Memory.store_copy hd (by omega)
  rw [pgtable_copy_kernel_area, TTB_L1_ENTRIES, hloop _ le_rfl]

/-- A new root table, with an empty user area and the kernel area of the system. -/
structure NewTree (n : Nat) (m : Machine) (root : Word) (m' : Machine) : Prop where
  ne_zero : root ≠ 0
  trace : m'.trace = .alloc .heap (rootRegion root) :: m.trace
  blocks : BlocksOk (live m'.trace)
  entries : ∀ i < 4096, l1 m'.mem root i = if i < n then 0 else l1 m.mem m.sys_root_pgtable i
  frame : m.mem.EqOff m'.mem (rootRegion root)
  sys_root : m'.sys_root_pgtable = m.sys_root_pgtable
  current : m'.current_pgtable = m.current_pgtable

theorem IsNew.newTree (N : IsNew m root m') (hn : n ≤ 4096)
    (hsys : (pool, rootRegion m.sys_root_pgtable) ∈ live m.trace) :
    NewTree n m root (pgtable_copy_kernel_area n m' root) := by
  have hblocks := N.blocks
  rw [N.trace] at hblocks
  have hdisj : (rootRegion root).Disjoint (rootRegion m.sys_root_pgtable) :=
    (List.pairwise_cons.mp hblocks.apart).1 _ hsys
  have hoff := Memory.eqOff_copy m'.mem (entry root n) (entry m.sys_root_pgtable n)
    (4 * (4096 - n))
  have hsub : (⟨entry root n, 4 * (4096 - n)⟩ : Region) ⊆ rootRegion root :=
    Region.sub_add (by omega) (by decide)
  rw [pgtable_copy_kernel_area_eq hn (N.sys_root ▸ hdisj), N.sys_root]
  refine ⟨N.ne_zero, N.trace, N.blocks, fun i hi => ?_, N.frame.trans (hoff.mono hsub), rfl,
    N.current⟩
  split
  · next hin =>
    -- below the part that is copied
    have hd : (⟨entry root i, 4⟩ : Region).Disjoint ⟨entry root n, 4 * (4096 - n)⟩ :=
      Region.disjoint_add (by omega) (by omega)
    rw [← l1_congr (hoff.eqOn hd)]
    exact N.empty i hi
  · next hin =>
    obtain ⟨k, rfl⟩ := Nat.exists_eq_add_of_le (not_lt.mp hin)
    rw [l1, entry_add, Memory.load_copy (by omega) (by omega), ← entry_add]
    exact (l1_congr (N.frame.eqOn (hdisj.symm.mono (entry_sub_root hi) fun _ h => h))).symm

section
variable (N : NewTree n m root m')
include N

theorem NewTree.live_sub : live m.trace ⊆ live m'.trace := by
  rw [N.trace]
  exact List.subset_cons_self _ _

theorem NewTree.root_live : (.heap, rootRegion root) ∈ live m'.trace := by
  rw [N.trace]
  exact List.mem_cons_self

theorem NewTree.disjoint (hb : b ∈ live m.trace) : (rootRegion root).Disjoint b.2 := by
  have hblocks := N.blocks
  rw [N.trace] at hblocks
  exact (List.pairwise_cons.mp hblocks.apart).1 b hb

theorem NewTree.ne (T : TablesOk H m c) : root ≠ c := by
  rintro rfl
  obtain ⟨pool, hpool⟩ := T.root_live
  have hmem := Region.base_mem (r := rootRegion root) (show 0 < 16384 by decide)
  exact N.disjoint hpool _ hmem hmem

theorem NewTree.stays (T : TablesOk H m c) : Stays H U c m.mem m'.mem := by
  obtain ⟨pool, hpool⟩ := T.root_live
  refine Stays.of_eqOn (N.frame.eqOn (N.disjoint hpool).symm) fun i hi _ ht => ?_
  exact N.frame.eqOn (N.disjoint (T.table_live i hi ht)).symm

theorem NewTree.other_tables (T : TablesOk H m c) : TablesOk H m' c := by
  obtain ⟨pool, hpool⟩ := T.root_live
  exact T.congr (N.frame.eqOn (N.disjoint hpool).symm) N.live_sub N.blocks

theorem NewTree.tables (T : TablesOk H m m.sys_root_pgtable) : TablesOk H m' root := by
  have htable : ∀ i < 4096, IsTable H (l1 m'.mem root i) →
      l1 m'.mem root i = l1 m.mem m.sys_root_pgtable i := by
    intro i hi ht
    rw [N.entries i hi] at ht ⊢
    split at ht
    · exact absurd ht not_isTable_zero
    · next hin => rw [if_neg hin]
  constructor
  case blocks => exact N.blocks
  case root_live => exact ⟨.heap, N.root_live⟩
  case table_live =>
    intro i hi ht
    have heq := htable i hi ht
    rw [heq] at ht ⊢
    exact N.live_sub (T.table_live i hi ht)
  case inj =>
    intro i hi k hk ht ht' heq
    have hi' := htable i hi ht
    have hk' := htable k hk ht'
    rw [hi'] at ht heq
    rw [hk'] at ht' heq
    exact T.inj i hi k hk ht ht' heq

/-- The new tree has tables of the system only. -/
theorem NewTree.beside (T : TablesOk H m c)
    (hempty : ∀ i < 4096, U i → n ≤ i → l1 m.mem m.sys_root_pgtable i = 0)
    (h : ∀ i < 4096, U i → Alone H m.mem m.sys_root_pgtable c i) : Beside H U root c m' where
  ne := N.ne T
  tables := N.other_tables T
  alone i hi hU k hk ht ht' := by
    have heq := N.entries k hk
    rw [← (N.stays (U := U) T).entries i hi] at ht ⊢
    rw [heq] at ht' ⊢
    split at ht'
    · exact absurd ht' not_isTable_zero
    · next hkn =>
      rw [if_neg hkn]
      exact h i hi hU k hk ht ht'
  alone' i hi hU k hk ht := by
    rw [N.entries i hi] at ht
    split at ht
    · exact absurd ht not_isTable_zero
    · next hin =>
      rw [hempty i hi hU (not_lt.mp hin)] at ht
      exact absurd ht not_isTable_zero

end

end SyeLabs.Mmu
