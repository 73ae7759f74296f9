import SyeLabs.Mmu.CreateMapping

/-!
# Several trees in one memory

Every process has a tree. They may share tables of the kernel area, but not the tables of the
slots below it. A step on one tree leaves these slots of the others alone, and so does a write to
a block that is no table at all.
-/

namespace SyeLabs.Mmu

variable {H : Header} {m m' : Machine} {a b root : Word} {i k j n p : Nat} {S : Nat → Prop}
  {mem mem' : Memory} {r : Region} {pool : Pool}

/-- The tables of the slots below `n` in the tree at `b` are not in the tree at `a`. -/
def Apart (H : Header) (mem : Memory) (n : Nat) (a b : Word) : Prop :=
  ∀ i < n, ∀ k < 4096, IsTable H (l1 mem b i) → IsTable H (l1 mem a k) →
    tableOf (l1 mem b i) ≠ tableOf (l1 mem a k)

/-- The table of slot `i` in the tree at `b` is not in the tree at `a`. -/
def Alone (H : Header) (mem : Memory) (a b : Word) (i : Nat) : Prop :=
  ∀ k < 4096, IsTable H (l1 mem b i) → IsTable H (l1 mem a k) →
    tableOf (l1 mem b i) ≠ tableOf (l1 mem a k)

/-- The slots below `n` are as before: their entries, and the entries of their tables. -/
def SameSlots (H : Header) (n : Nat) (root : Word) (mem mem' : Memory) : Prop :=
  ∀ i < n, l1 mem root i = l1 mem' root i ∧
    (IsTable H (l1 mem' root i) → ∀ j < 256, l2 mem root i j = l2 mem' root i j)

theorem SameSlots.refl (mem : Memory) : SameSlots H n root mem mem :=
  fun _ _ => ⟨rfl, fun _ _ _ => rfl⟩

theorem SameSlots.trans {mem'' : Memory} (h : SameSlots H n root mem mem')
    (h' : SameSlots H n root mem' mem'') : SameSlots H n root mem mem'' := by
  intro i hi
  obtain ⟨h1, h2⟩ := h i hi
  obtain ⟨h1', h2'⟩ := h' i hi
  exact ⟨h1.trans h1', fun ht j hj => (h2 (h1' ▸ ht) j hj).trans (h2' ht j hj)⟩

theorem SameSlots.lookup_eq (h : SameSlots H n root mem mem') (hp : p / 256 < n) :
    lookup H mem root p = lookup H mem' root p :=
  lookup_congr (h _ hp).1 fun ht => (h _ hp).2 ht _ (Nat.mod_lt _ (by decide))

/-- Memory that agrees on the root and on the tables of the slots below `n`. -/
theorem SameSlots.of_eqOn (hn : n ≤ 4096) (hroot : mem.EqOn mem' (rootRegion root))
    (htable : ∀ i < n, IsTable H (l1 mem root i) →
      mem.EqOn mem' (tableRegion (tableOf (l1 mem root i)))) : SameSlots H n root mem mem' := by
  intro i hi
  have hl1 : l1 mem root i = l1 mem' root i :=
    l1_congr (hroot.mono (entry_sub_root (lt_of_lt_of_le hi hn)))
  exact ⟨hl1, fun ht j hj => l2_congr hl1 (htable i hi (hl1 ▸ ht)) hj⟩

theorem Touched.sameSlots (h : Touched H mem m'.mem root S) (T : TablesOk H m' root)
    (hn : n ≤ 4096) (hS : ∀ i < n, ¬S i) : SameSlots H n root mem m'.mem := by
  intro i hi
  have hi' := lt_of_lt_of_le hi hn
  exact ⟨h.l1_eq T hi' (hS i hi), fun ht j hj => h.l2_eq T hi' (hS i hi) ht hj⟩

/-! ## Steps that leave the entries of a root table alone -/

/-- The tables depend on the entries of the root alone. Blocks as large as a page are not among
them and may go. -/
theorem TablesOk.of_entries (T : TablesOk H m root)
    (hl1 : ∀ i < 4096, l1 m.mem root i = l1 m'.mem root i)
    (hlive : ∀ b ∈ live m.trace, b.2.size ≠ PAGE_SIZE → b ∈ live m'.trace)
    (B : BlocksOk (live m'.trace)) : TablesOk H m' root := by
  obtain ⟨pool, hpool⟩ := T.root_live
  constructor
  case blocks => exact B
  case root_live => exact ⟨pool, hlive _ hpool (show 16384 ≠ 4096 by decide)⟩
  case table_live =>
    intro i hi ht
    rw [← hl1 i hi] at ht ⊢
    exact hlive _ (T.table_live i hi ht) (show 1024 ≠ 4096 by decide)
  case inj =>
    intro i hi k hk ht ht' heq
    rw [← hl1 i hi] at ht heq
    rw [← hl1 k hk] at ht' heq
    exact T.inj i hi k hk ht ht' heq

theorem l1_eq_of_eqOn (hroot : mem.EqOn mem' (rootRegion root)) (i : Nat) (hi : i < 4096) :
    l1 mem root i = l1 mem' root i := l1_congr (hroot.mono (entry_sub_root hi))

theorem TablesOk.congr (T : TablesOk H m root) (hroot : m.mem.EqOn m'.mem (rootRegion root))
    (hlive : live m.trace ⊆ live m'.trace) (B : BlocksOk (live m'.trace)) :
    TablesOk H m' root := T.of_entries (l1_eq_of_eqOn hroot) (fun _ hb _ => hlive hb) B

theorem Alone.of_entries (h : Alone H mem a b i) (hi : i < 4096)
    (ha : ∀ i < 4096, l1 mem a i = l1 mem' a i) (hb : ∀ i < 4096, l1 mem b i = l1 mem' b i) :
    Alone H mem' a b i := by
  intro k hk ht ht'
  rw [← hb i hi] at ht ⊢
  rw [← ha k hk] at ht' ⊢
  exact h k hk ht ht'

theorem Apart.of_entries (h : Apart H mem n a b) (hn : n ≤ 4096)
    (ha : ∀ i < 4096, l1 mem a i = l1 mem' a i) (hb : ∀ i < 4096, l1 mem b i = l1 mem' b i) :
    Apart H mem' n a b :=
  fun i hi => Alone.of_entries (h i hi) (lt_of_lt_of_le hi hn) ha hb

theorem Apart.congr (h : Apart H m.mem n a b) (hn : n ≤ 4096)
    (ha : m.mem.EqOn m'.mem (rootRegion a)) (hb : m.mem.EqOn m'.mem (rootRegion b)) :
    Apart H m'.mem n a b := h.of_entries hn (l1_eq_of_eqOn ha) (l1_eq_of_eqOn hb)

/-! ## A step on the tree at `a`, seen from the tree at `b` -/

theorem rootRegion_ne (hab : a ≠ b) : rootRegion b ≠ rootRegion a := fun h =>
  hab (congrArg Region.base h).symm

theorem rootRegion_ne_tableRegion (a t : Word) : rootRegion a ≠ tableRegion t := fun h =>
  absurd (congrArg Region.size h) (show 16384 ≠ 1024 by decide)

section
variable (E : Extends H a S m m') (T : TablesOk H m b) (hab : a ≠ b)
include E T hab

theorem Extends.other_root : m.mem.EqOn m'.mem (rootRegion b) := by
  obtain ⟨pool, hpool⟩ := T.root_live
  refine E.eqOn_live hpool (rootRegion_ne hab) fun k _ _ h => ?_
  exact rootRegion_ne_tableRegion _ _ (congrArg Prod.snd h)

theorem Extends.other_tables : TablesOk H m' b :=
  T.congr (E.other_root T hab) E.live_sub E.tables.blocks

theorem Extends.other_l1 (hi : i < 4096) : l1 m.mem b i = l1 m'.mem b i :=
  l1_congr ((E.other_root T hab).mono (entry_sub_root hi))

omit hab in
theorem Extends.other_table (hi : i < 4096) (hd : Alone H m.mem a b i)
    (ht : IsTable H (l1 m.mem b i)) :
    m.mem.EqOn m'.mem (tableRegion (tableOf (l1 m.mem b i))) := by
  refine E.eqOn_live (T.table_live i hi ht) (rootRegion_ne_tableRegion _ _).symm ?_
  intro k hk ht' h
  exact hd k hk ht ht' (congrArg (fun x => x.2.base) h)

theorem Extends.other_sameSlots (hn : n ≤ 4096) (hd : Apart H m.mem n a b) :
    SameSlots H n b m.mem m'.mem :=
  SameSlots.of_eqOn hn (E.other_root T hab) fun i hi =>
    E.other_table T (lt_of_lt_of_le hi hn) (hd i hi)

/-- New tables of the tree at `a` are not in the tree at `b`. -/
theorem Extends.alone_left (hi : i < 4096) (hd : Alone H m.mem a b i) : Alone H m'.mem a b i := by
  intro k hk ht ht' heq
  rw [← E.other_l1 T hab hi] at ht heq
  rcases E.own k hk ht' with ⟨htk, hsame⟩ | hnew
  · exact hd k hk ht htk (heq.trans hsame)
  · exact hnew (heq ▸ T.table_live i hi ht)

theorem Extends.alone_right (hi : i < 4096) (hd : Alone H m.mem b a i) :
    Alone H m'.mem b a i := by
  intro k hk ht ht' heq
  rw [← E.other_l1 T hab hk] at ht' heq
  rcases E.own i hi ht with ⟨hti, hsame⟩ | hnew
  · exact hd k hk hti ht' (hsame.symm.trans heq)
  · exact hnew (heq.symm ▸ T.table_live k hk ht')

theorem Extends.apart_left (hn : n ≤ 4096) (hd : Apart H m.mem n a b) : Apart H m'.mem n a b :=
  fun i hi => E.alone_left T hab (lt_of_lt_of_le hi hn) (hd i hi)

theorem Extends.apart_right (hn : n ≤ 4096) (hd : Apart H m.mem n b a) : Apart H m'.mem n b a :=
  fun i hi => E.alone_right T hab (lt_of_lt_of_le hi hn) (hd i hi)

end

/-- A new table in the tree at `a`, seen from the tree at `b`. -/
theorem withTable_other {t : Word} {c : Bool} (T : TablesOk H m a) (T' : TablesOk H m b)
    (hab : a ≠ b) (F : Fresh (live m.trace) t 1024 (2 ^ 10)) (hi : i < 4096) :
    SameSlots H 4096 b m.mem (m.withTable H a i t c).mem := by
  have hsame : ∀ {pool r}, (pool, r) ∈ live m.trace → r ≠ rootRegion a →
      m.mem.EqOn (m.withTable H a i t c).mem r := by
    intro pool r hr hne x hx
    obtain ⟨pool', hpool⟩ := T.root_live
    have hroot : x ∉ (⟨entry a i, 4⟩ : Region) := fun hxe =>
      hne (congrArg Prod.snd (T.blocks.eq_of_mem hr hpool hx (entry_sub_root hi x hxe)))
    have hnew : x ∉ (⟨t, 1024⟩ : Region) := fun hxt => F.apart _ hr x hxt hx
    exact (Memory.eqOff_fill m.mem t 0 1024 x hnew).trans (Memory.eqOff_store _ _ _ x hroot)
  obtain ⟨pool, hpool⟩ := T'.root_live
  exact SameSlots.of_eqOn le_rfl (hsame hpool (rootRegion_ne hab)) fun k hk ht =>
    hsame (T'.table_live k hk ht) (rootRegion_ne_tableRegion _ _).symm

/-! ## A write to a page frame -/

/-- A live block that is as large as a page is neither a root table nor a second-level one. -/
theorem TablesOk.page_disjoint (T : TablesOk H m root) (hr : (pool, r) ∈ live m.trace)
    (hsize : r.size = PAGE_SIZE) : (rootRegion root).Disjoint r ∧
      ∀ i < 4096, IsTable H (l1 m.mem root i) →
        (tableRegion (tableOf (l1 m.mem root i))).Disjoint r := by
  obtain ⟨pool', hpool⟩ := T.root_live
  constructor
  · refine T.blocks.disjoint hpool hr fun h => ?_
    have := congrArg (fun b => b.2.size) h
    simp [hsize, rootRegion, PAGE_SIZE] at this
  · intro i hi ht
    refine T.blocks.disjoint (T.table_live i hi ht) hr fun h => ?_
    have := congrArg (fun b => b.2.size) h
    simp [hsize, tableRegion, PAGE_SIZE] at this

section
variable (T : TablesOk H m root) (hr : (pool, r) ∈ live m.trace) (hsize : r.size = PAGE_SIZE)
  (hw : m.mem.EqOff mem' r)
include T hr hsize hw

theorem TablesOk.page_root : m.mem.EqOn mem' (rootRegion root) :=
  hw.eqOn (T.page_disjoint hr hsize).1

theorem TablesOk.page_sameSlots : SameSlots H 4096 root m.mem mem' :=
  SameSlots.of_eqOn le_rfl (T.page_root hr hsize hw) fun i hi ht =>
    hw.eqOn ((T.page_disjoint hr hsize).2 i hi ht)

end
end SyeLabs.Mmu
