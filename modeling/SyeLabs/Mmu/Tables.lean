import SyeLabs.Mmu.Mapping

/-!
# A root table and its second-level tables

The entries of a tree of tables in memory, the invariant that keeps the tables of a tree apart,
and the mapping of page numbers that a tree stands for.
-/

namespace SyeLabs.Mmu

/-! ## Indices -/

theorem l1pte_index_eq (v : Word) : l1pte_index v = v.toNat / 2 ^ 20 := by
  rw [l1pte_index, BitVec.toNat_ushiftRight, Nat.shiftRight_eq_div_pow]

theorem l2pte_index_eq (v : Word) : l2pte_index v = v.toNat / 2 ^ 12 % 2 ^ 8 := by
  rw [l2pte_index, Word.and_lowMask_toNat _ (by decide), BitVec.toNat_ushiftRight,
    Nat.shiftRight_eq_div_pow]

theorem l1pte_index_lt (v : Word) : l1pte_index v < 4096 := by
  have := v.isLt
  rw [l1pte_index_eq]
  omega

theorem l2pte_index_lt (v : Word) : l2pte_index v < 256 := by
  rw [l2pte_index_eq]
  exact Nat.mod_lt _ (by decide)

/-- The page number of an address splits into the indices of the two levels. -/
theorem page_l1 (v : Word) : v.toNat / 4096 / 256 = l1pte_index v := by
  rw [l1pte_index_eq]
  omega

theorem page_l2 (v : Word) : v.toNat / 4096 % 256 = l2pte_index v := by
  rw [l2pte_index_eq]
  omega

theorem page_lt (v : Word) : v.toNat / 4096 < 2 ^ 20 := by
  have := v.isLt
  omega

theorem entry_succ (t : Word) (i : Nat) : entry t i + 4 = entry t (i + 1) := by
  unfold entry
  bv_omega

theorem disjoint_entry {t : Word} {i j : Nat} (hi : i < 2 ^ 30) (hj : j < 2 ^ 30) (hne : i ≠ j) :
    (⟨entry t i, 4⟩ : Region).Disjoint ⟨entry t j, 4⟩ := by
  rcases lt_or_gt_of_ne hne with h | h
  · exact Region.disjoint_add (by omega) (by omega)
  · exact (Region.disjoint_add (by omega) (by omega)).symm

theorem entry_sub {t : Word} {i n : Nat} (h : 4 * i + 4 ≤ n) (hn : n ≤ 2 ^ 32) :
    (⟨entry t i, 4⟩ : Region) ⊆ ⟨t, n⟩ := Region.sub_add h hn

/-! ## Trees -/

/-- Entry `i` of the root table. -/
def l1 (mem : Memory) (root : Word) (i : Nat) : Word := mem.load (entry root i)

/-- The second-level table that an entry refers to. -/
def tableOf (w : Word) : Word := w &&& TTB_L1_PAGE_ADDR_MASK

def l2 (mem : Memory) (root : Word) (i j : Nat) : Word :=
  mem.load (entry (tableOf (l1 mem root i)) j)

def rootRegion (root : Word) : Region := ⟨root, 16384⟩

def tableRegion (t : Word) : Region := ⟨t, 1024⟩

variable (H : Header)

def IsTable (w : Word) : Prop := w ≠ 0 ∧ H.l1pte_is_sect w = false

instance (w : Word) : Decidable (IsTable H w) := inferInstanceAs (Decidable (_ ∧ _))

/-- The physical page that page `p` is mapped to. -/
def lookup (mem : Memory) (root : Word) (p : Nat) : Option Nat :=
  let e := l1 mem root (p / 256)
  if e = 0 then none
  else if H.l1pte_is_sect e then some (e.toNat / 2 ^ 20 * 256 + p % 256)
  else if l2 mem root (p / 256) (p % 256) = 0 then none
  else some ((l2 mem root (p / 256) (p % 256)).toNat / 2 ^ 12)

/-- The tables of a tree are live blocks of the heap, one for each entry. -/
structure TablesOk (m : Machine) (root : Word) : Prop where
  blocks : BlocksOk (live m.trace)
  root_live : ∃ pool, (pool, rootRegion root) ∈ live m.trace
  table_live : ∀ i < 4096, IsTable H (l1 m.mem root i) →
    (.heap, tableRegion (tableOf (l1 m.mem root i))) ∈ live m.trace
  inj : ∀ i < 4096, ∀ k < 4096, IsTable H (l1 m.mem root i) → IsTable H (l1 m.mem root k) →
    tableOf (l1 m.mem root i) = tableOf (l1 m.mem root k) → i = k

/-- Memory has changed in the slots of `S` only: in the entry of the root table and in the
second-level table that the entry refers to in the end. -/
def Touched (mem mem' : Memory) (root : Word) (S : Nat → Prop) : Prop :=
  ∀ x, mem x ≠ mem' x → ∃ k < 4096, S k ∧ (x ∈ (⟨entry root k, 4⟩ : Region) ∨
    (IsTable H (l1 mem' root k) ∧ x ∈ tableRegion (tableOf (l1 mem' root k))))

section
variable {H} {m m' : Machine} {root : Word} {i k j p : Nat} {S S' : Nat → Prop} {mem mem' : Memory}

theorem not_isTable_zero : ¬IsTable H 0 := fun h => h.1 rfl

theorem entry_sub_root (hi : i < 4096) : (⟨entry root i, 4⟩ : Region) ⊆ rootRegion root :=
  entry_sub (by omega) (by decide)

theorem entry_sub_table {t : Word} (hj : j < 256) :
    (⟨entry t j, 4⟩ : Region) ⊆ tableRegion t := entry_sub (by omega) (by decide)

theorem TablesOk.root_disjoint (T : TablesOk H m root) (hi : i < 4096)
    (ht : IsTable H (l1 m.mem root i)) :
    (rootRegion root).Disjoint (tableRegion (tableOf (l1 m.mem root i))) := by
  obtain ⟨pool, hroot⟩ := T.root_live
  refine T.blocks.disjoint hroot (T.table_live i hi ht) fun h => ?_
  have := congrArg (fun b => b.2.size) h
  simp [rootRegion, tableRegion] at this

theorem TablesOk.table_disjoint (T : TablesOk H m root) (hi : i < 4096) (hk : k < 4096)
    (ht : IsTable H (l1 m.mem root i)) (ht' : IsTable H (l1 m.mem root k)) (hne : i ≠ k) :
    (tableRegion (tableOf (l1 m.mem root i))).Disjoint
      (tableRegion (tableOf (l1 m.mem root k))) := by
  refine T.blocks.disjoint (T.table_live i hi ht) (T.table_live k hk ht') fun h => hne ?_
  exact T.inj i hi k hk ht ht' (congrArg (fun b => b.2.base) h)

theorem l1_congr (h : mem.EqOn mem' ⟨entry root i, 4⟩) : l1 mem root i = l1 mem' root i :=
  Memory.load_congr h

theorem l2_congr (hl1 : l1 mem root i = l1 mem' root i)
    (h : mem.EqOn mem' (tableRegion (tableOf (l1 mem root i)))) (hj : j < 256) :
    l2 mem root i j = l2 mem' root i j := by
  rw [l2, l2, ← hl1]
  exact Memory.load_congr (h.mono (entry_sub_table hj))

theorem Touched.refl (mem : Memory) (root : Word) : Touched H mem mem root S :=
  fun _ hx => absurd rfl hx

theorem Touched.mono (h : Touched H mem mem' root S) (hS : ∀ k, S k → S' k) :
    Touched H mem mem' root S' := fun x hx =>
  let ⟨k, hk, hkS, hx⟩ := h x hx
  ⟨k, hk, hS k hkS, hx⟩

theorem Touched.entry_eqOn (h : Touched H mem m'.mem root S) (T : TablesOk H m' root)
    (hk : k < 4096) (hS : ¬S k) : mem.EqOn m'.mem ⟨entry root k, 4⟩ := by
  intro x hx
  by_contra hne
  obtain ⟨i, hi, hiS, hxi | ⟨ht, hxi⟩⟩ := h x hne
  · have hik : i ≠ k := fun hik => hS (hik ▸ hiS)
    exact disjoint_entry (by omega) (by omega) hik x hxi hx
  · exact T.root_disjoint hi ht x (entry_sub_root hk x hx) hxi

/-- The entries of the other slots are as before. -/
theorem Touched.l1_eq (h : Touched H mem m'.mem root S) (T : TablesOk H m' root)
    (hk : k < 4096) (hS : ¬S k) : l1 mem root k = l1 m'.mem root k :=
  l1_congr (h.entry_eqOn T hk hS)

theorem Touched.l2_eq (h : Touched H mem m'.mem root S) (T : TablesOk H m' root)
    (hk : k < 4096) (hS : ¬S k) (ht : IsTable H (l1 m'.mem root k)) (hj : j < 256) :
    l2 mem root k j = l2 m'.mem root k j := by
  have hl1 := h.l1_eq T hk hS
  refine l2_congr hl1 (fun x hx => ?_) hj
  rw [hl1] at hx
  by_contra hne
  obtain ⟨i, hi, hiS, hxi | ⟨ht', hxi⟩⟩ := h x hne
  · exact T.root_disjoint hk ht x (entry_sub_root hi x hxi) hx
  · have hik : i ≠ k := fun hik => hS (hik ▸ hiS)
    exact T.table_disjoint hi hk ht' ht hik x hxi hx

/-- A live block that is no part of the tree is as before. -/
theorem Touched.eqOn_live (h : Touched H mem m'.mem root S) (T : TablesOk H m' root)
    {pool : Pool} {r : Region} (hr : (pool, r) ∈ live m'.trace) (hroot : r ≠ rootRegion root)
    (htable : ∀ k < 4096, IsTable H (l1 m'.mem root k) →
      (pool, r) ≠ (.heap, tableRegion (tableOf (l1 m'.mem root k)))) : mem.EqOn m'.mem r := by
  intro x hx
  by_contra hne
  obtain ⟨pool', hpool⟩ := T.root_live
  obtain ⟨i, hi, -, hxi | ⟨ht, hxi⟩⟩ := h x hne
  · have := T.blocks.eq_of_mem hr hpool hx (entry_sub_root hi x hxi)
    exact hroot (congrArg Prod.snd this)
  · exact htable i hi ht (T.blocks.eq_of_mem hr (T.table_live i hi ht) hx hxi)

/-- A page is mapped by the two entries on the way to it. -/
theorem lookup_congr (hl1 : l1 mem root (p / 256) = l1 mem' root (p / 256))
    (hl2 : IsTable H (l1 mem' root (p / 256)) →
      l2 mem root (p / 256) (p % 256) = l2 mem' root (p / 256) (p % 256)) :
    lookup H mem root p = lookup H mem' root p := by
  unfold lookup
  rw [hl1]
  by_cases ht : IsTable H (l1 mem' root (p / 256))
  · rw [hl2 ht]
  · by_cases hz : l1 mem' root (p / 256) = 0
    · simp [hz]
    · have hs : H.l1pte_is_sect (l1 mem' root (p / 256)) = true := by
        rw [← Bool.not_eq_false]
        exact fun hs => ht ⟨hz, hs⟩
      simp [hs]

/-- Where the slot is not touched, a page is mapped as before. -/
theorem Touched.lookup_eq (h : Touched H mem m'.mem root S) (T : TablesOk H m' root)
    (hp : p < 2 ^ 20) (hS : ¬S (p / 256)) : lookup H mem root p = lookup H m'.mem root p := by
  have hk : p / 256 < 4096 := by omega
  exact lookup_congr (h.l1_eq T hk hS) fun ht => h.l2_eq T hk hS ht (Nat.mod_lt _ (by decide))

end

/-- A step on the tree at `root` that touches the slots of `S` only and gives nothing back: it
may take tables from the heap, and the tree has the tables it had or new ones. -/
structure Extends (root : Word) (S : Nat → Prop) (m m' : Machine) : Prop where
  tables : TablesOk H m' root
  touched : Touched H m.mem m'.mem root S
  trace : ∃ new : List Word,
    m'.trace = new.map (fun t => Event.alloc Pool.heap (tableRegion t)) ++ m.trace
  own : ∀ k < 4096, IsTable H (l1 m'.mem root k) →
    (IsTable H (l1 m.mem root k) ∧ tableOf (l1 m'.mem root k) = tableOf (l1 m.mem root k)) ∨
      (.heap, tableRegion (tableOf (l1 m'.mem root k))) ∉ live m.trace
  sys_root : m'.sys_root_pgtable = m.sys_root_pgtable
  current : m'.current_pgtable = m.current_pgtable

section
variable {H} {m m' m'' : Machine} {root : Word} {i k j p : Nat} {S S' : Nat → Prop}

theorem Extends.refl (T : TablesOk H m root) : Extends H root S m m :=
  ⟨T, Touched.refl _ _, ⟨[], rfl⟩, fun _ _ ht => .inl ⟨ht, rfl⟩, rfl, rfl⟩

theorem live_append_tables (new : List Word) (h : List (Event Pool)) :
    live (new.map (fun t => Event.alloc Pool.heap (tableRegion t)) ++ h) =
      new.map (fun t => (Pool.heap, tableRegion t)) ++ live h := by
  induction new with
  | nil => rfl
  | cons t new ih => simp [ih]

theorem Extends.live_sub (h : Extends H root S m m') : live m.trace ⊆ live m'.trace := by
  obtain ⟨new, htrace⟩ := h.trace
  rw [htrace, live_append_tables]
  exact List.subset_append_right _ _

/-- The tree takes nothing but tables. -/
theorem Extends.onPool_eq (h : Extends H root S m m') {pool : Pool} (hpool : pool ≠ .heap) :
    onPool pool m'.trace = onPool pool m.trace := by
  obtain ⟨new, htrace⟩ := h.trace
  rw [htrace, onPool_append]
  have hnone : onPool pool (new.map fun t => Event.alloc Pool.heap (tableRegion t)) = [] := by
    simp [onPool, Event.pool, hpool.symm]
  rw [hnone, List.nil_append]

/-- A block that was live and is no part of the tree is as before. -/
theorem Extends.eqOn_live (h : Extends H root S m m') {pool : Pool} {r : Region}
    (hr : (pool, r) ∈ live m.trace) (hroot : r ≠ rootRegion root)
    (htable : ∀ k < 4096, IsTable H (l1 m.mem root k) →
      (pool, r) ≠ (.heap, tableRegion (tableOf (l1 m.mem root k)))) : m.mem.EqOn m'.mem r := by
  refine h.touched.eqOn_live h.tables (h.live_sub hr) hroot fun k hk ht hrk => ?_
  rcases h.own k hk ht with ⟨ht', heq⟩ | hnew
  · exact htable k hk ht' (heq ▸ hrk)
  · exact hnew (hrk ▸ hr)

theorem Extends.mono (h : Extends H root S m m') (hS : ∀ k, S k → S' k) :
    Extends H root S' m m' :=
  ⟨h.tables, h.touched.mono hS, h.trace, h.own, h.sys_root, h.current⟩

/-- Two steps, the second of which keeps the entries that the first has written. -/
theorem Extends.trans_of_l1 (h : Extends H root S m m') (h' : Extends H root S' m' m'')
    (hl1 : ∀ k < 4096, S k → l1 m'.mem root k = l1 m''.mem root k) :
    Extends H root (fun k => S k ∨ S' k) m m'' where
  tables := h'.tables
  touched x hx := by
    by_cases hx' : m'.mem x = m''.mem x
    · obtain ⟨k, hk, hS, hxk⟩ := h.touched x (hx' ▸ hx)
      refine ⟨k, hk, .inl hS, ?_⟩
      rwa [← hl1 k hk hS]
    · obtain ⟨k, hk, hS, hxk⟩ := h'.touched x hx'
      exact ⟨k, hk, .inr hS, hxk⟩
  trace := by
    obtain ⟨new, hnew⟩ := h.trace
    obtain ⟨new', hnew'⟩ := h'.trace
    exact ⟨new' ++ new, by rw [hnew', hnew, List.map_append, List.append_assoc]⟩
  own k hk ht := by
    rcases h'.own k hk ht with ⟨ht', heq⟩ | hnew
    · rw [heq]
      exact h.own k hk ht'
    · exact .inr fun hlive => hnew (h.live_sub hlive)
  sys_root := h'.sys_root.trans h.sys_root
  current := h'.current.trans h.current

/-- Two steps on different slots. -/
theorem Extends.trans (h : Extends H root S m m') (h' : Extends H root S' m' m'')
    (hd : ∀ k, S k → ¬S' k) : Extends H root (fun k => S k ∨ S' k) m m'' :=
  h.trans_of_l1 h' fun _ hk hS => h'.touched.l1_eq h'.tables hk (hd _ hS)

/-- A write to a second-level table of the tree. -/
theorem Extends.of_tableWrite (T : TablesOk H m root) (hi : i < 4096)
    (ht : IsTable H (l1 m.mem root i)) {mem' : Memory}
    (h : m.mem.EqOff mem' (tableRegion (tableOf (l1 m.mem root i)))) :
    Extends H root (· = i) m { m with mem := mem' } ∧
      ∀ k < 4096, l1 mem' root k = l1 m.mem root k := by
  have hl1 : ∀ k < 4096, l1 mem' root k = l1 m.mem root k := by
    intro k hk
    refine (l1_congr (h.eqOn ?_)).symm
    exact (T.root_disjoint hi ht).mono (entry_sub_root hk) fun _ hx => hx
  refine ⟨⟨?_, ?_, ⟨[], rfl⟩, ?_, rfl, rfl⟩, hl1⟩
  · refine ⟨T.blocks, T.root_live, fun k hk htk => ?_, fun k hk k' hk' htk htk' heq => ?_⟩
    · rw [hl1 k hk] at htk ⊢
      exact T.table_live k hk htk
    · rw [hl1 k hk] at htk heq
      rw [hl1 k' hk'] at htk' heq
      exact T.inj k hk k' hk' htk htk' heq
  · intro x hx
    refine ⟨i, hi, rfl, .inr ?_⟩
    rw [hl1 i hi]
    exact ⟨ht, not_not.mp fun hno => hx (h x hno)⟩
  · intro k hk htk
    rw [hl1 k hk] at htk ⊢
    exact .inl ⟨htk, rfl⟩

end
end SyeLabs.Mmu
