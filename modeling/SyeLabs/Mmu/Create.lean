import SyeLabs.Mmu.Tables

/-!
# What `create_mapping` does to a tree

Each function that builds a mapping has one lemma: it keeps the tables of the tree apart, touches
the slots of its range, and maps the pages of the range to consecutive physical pages. The
condition throughout is that no second-level table is looked for behind a section entry.
-/

namespace SyeLabs.Mmu

variable {H : Header} {al : Allocators} {m m' : Machine} {root : Word} {i j k n : Nat} {c : Bool}

/-! ## The second-level table -/

theorem tableOf_page {t : Word} (h : 2 ^ 10 ∣ t.toNat) :
    tableOf (H.set_l1_pte_page_dcache t c) = t := H.page_addr t c h

theorem isTable_page {t : Word} (h : 2 ^ 10 ∣ t.toNat) :
    IsTable H (H.set_l1_pte_page_dcache t c) := ⟨H.page_ne_zero t c h, H.page_not_sect t c h⟩

/-- The machine with a cleared table at `t` in slot `i`. -/
def Machine.withTable (H : Header) (m : Machine) (root : Word) (i : Nat) (t : Word) (c : Bool) :
    Machine :=
  { m with
    mem := (m.mem.fill t 0 1024).store (entry root i) (H.set_l1_pte_page_dcache t c)
    trace := .alloc .heap (tableRegion t) :: m.trace }

section
variable {t : Word} (T : TablesOk H m root) (F : Fresh (live m.trace) t 1024 (2 ^ 10))
include T F

theorem fresh_root_disjoint : (tableRegion t).Disjoint (rootRegion root) := by
  obtain ⟨pool, hroot⟩ := T.root_live
  exact F.apart _ hroot

theorem withTable_l1 (hi : i < 4096) (hk : k < 4096) :
    l1 (m.withTable H root i t c).mem root k =
      if k = i then H.set_l1_pte_page_dcache t c else l1 m.mem root k := by
  unfold l1 Machine.withTable
  split
  · next h => rw [h, Memory.load_store_self]
  · next h =>
    rw [Memory.load_store_of_disjoint (disjoint_entry (by omega) (by omega) h)]
    refine (Memory.load_congr ((Memory.eqOff_fill _ _ _ _).eqOn ?_)).symm
    exact (fresh_root_disjoint T F).symm.mono (entry_sub_root hk) fun _ hx => hx

theorem withTable_touched (hi : i < 4096) :
    Touched H m.mem (m.withTable H root i t c).mem root (· = i) := by
  intro x hx
  refine ⟨i, hi, rfl, ?_⟩
  rw [withTable_l1 T F hi hi, if_pos rfl, tableOf_page F.aligned]
  by_contra hno
  rw [not_or, not_and] at hno
  obtain ⟨hentry, htable⟩ := hno
  apply hx
  have h1 := Memory.eqOff_fill m.mem t 0 1024 x (htable (isTable_page F.aligned))
  have h2 := Memory.eqOff_store (m.mem.fill t 0 1024) (entry root i)
    (H.set_l1_pte_page_dcache t c) x hentry
  exact h1.trans h2

theorem withTable_l2 (hi : i < 4096) (hj : j < 256) :
    l2 (m.withTable H root i t c).mem root i j = 0 := by
  rw [l2, withTable_l1 T F hi hi, if_pos rfl, tableOf_page F.aligned]
  unfold Machine.withTable
  have hdisj := (fresh_root_disjoint T F).mono (entry_sub_table hj) (entry_sub_root hi)
  rw [Memory.load_store_of_disjoint hdisj]
  exact Memory.load_fill_zero (entry_sub_table hj)

theorem withTable_tablesOk (hi : i < 4096) :
    TablesOk H (m.withTable H root i t c) root where
  blocks := T.blocks.cons F (by decide) .heap
  root_live := by
    obtain ⟨pool, hroot⟩ := T.root_live
    exact ⟨pool, List.mem_cons_of_mem _ hroot⟩
  table_live k hk ht := by
    rw [withTable_l1 T F hi hk] at ht ⊢
    by_cases hki : k = i
    · rw [if_pos hki, tableOf_page F.aligned]
      exact List.mem_cons_self
    · rw [if_neg hki] at ht ⊢
      exact List.mem_cons_of_mem _ (T.table_live k hk ht)
  inj k hk k' hk' ht ht' heq := by
    have hnew := F.notMem (by decide) Pool.heap
    rw [withTable_l1 T F hi hk] at ht heq
    rw [withTable_l1 T F hi hk'] at ht' heq
    by_cases hki : k = i <;> by_cases hki' : k' = i
    · rw [hki, hki']
    · rw [if_neg hki'] at ht'
      rw [if_pos hki, if_neg hki', tableOf_page F.aligned] at heq
      exact absurd (T.table_live k' hk' ht') (heq ▸ hnew)
    · rw [if_neg hki] at ht
      rw [if_neg hki, if_pos hki', tableOf_page F.aligned] at heq
      exact absurd (T.table_live k hk ht) (heq.symm ▸ hnew)
    · rw [if_neg hki] at ht heq
      rw [if_neg hki'] at ht' heq
      exact T.inj k hk k' hk' ht ht' heq

theorem withTable_extends (hi : i < 4096) :
    Extends H root (· = i) m (m.withTable H root i t c) where
  tables := withTable_tablesOk T F hi
  touched := withTable_touched T F hi
  trace := ⟨[t], rfl⟩
  own k hk ht := by
    rw [withTable_l1 T F hi hk] at ht ⊢
    by_cases hki : k = i
    · rw [if_pos hki, tableOf_page F.aligned]
      exact .inr (F.notMem (by decide) Pool.heap)
    · rw [if_neg hki] at ht ⊢
      exact .inl ⟨ht, rfl⟩
  sys_root := rfl
  current := rfl

end

/-- What happens to the entry of a slot that is given small pages: it stays, or it was empty and
refers to a new table. -/
def Grown (root : Word) (i : Nat) (m m' : Machine) : Prop :=
  (m'.trace = m.trace ∧ l1 m.mem root i ≠ 0 ∧ l1 m'.mem root i = l1 m.mem root i) ∨
    (m'.trace = .alloc .heap (tableRegion (tableOf (l1 m'.mem root i))) :: m.trace ∧
      l1 m.mem root i = 0)

theorem allocTable_cases :
    wp (allocTable H al m (entry root i) c)
      (fun m' => (l1 m.mem root i ≠ 0 ∧ m' = m) ∨ (l1 m.mem root i = 0 ∧
        ∃ t, Fresh (live m.trace) t 1024 (2 ^ 10) ∧ m' = m.withTable H root i t c))
      (· = .noMemory) := by
  unfold allocTable
  by_cases hz : l1 m.mem root i = 0
  · rw [if_pos (show m.mem.load (entry root i) = 0 from hz)]
    unfold Machine.memalign
    cases ht : al.memalign m.trace (4 * TTB_L2_ENTRIES) SZ_1K with
    | none => exact wp_throw.mpr rfl
    | some t =>
      simp only [pure_bind, wp_pure, Memory.load_store_self, Memory.store_store_self]
      exact .inr ⟨hz, t, al.memalign_fresh ht, rfl⟩
  · rw [if_neg (show ¬m.mem.load (entry root i) = 0 from hz)]
    exact wp_pure.mpr (.inl ⟨hz, rfl⟩)

theorem allocTable_spec (T : TablesOk H m root) (hi : i < 4096)
    (hs : H.l1pte_is_sect (l1 m.mem root i) = false ∨ l1 m.mem root i = 0) :
    wp (allocTable H al m (entry root i) c)
      (fun m' => Extends H root (· = i) m m' ∧ IsTable H (l1 m'.mem root i) ∧
        Grown root i m m' ∧
        ∀ j < 256, l2 m'.mem root i j = if l1 m.mem root i = 0 then 0 else l2 m.mem root i j)
      (· = .noMemory) := by
  refine allocTable_cases.mono ?_
  rintro m' (⟨hz, rfl⟩ | ⟨hz, t, F, rfl⟩)
  · exact ⟨Extends.refl T, ⟨hz, hs.resolve_right hz⟩, .inl ⟨rfl, hz, rfl⟩,
      fun j _ => (if_neg hz).symm⟩
  · have hl1 := withTable_l1 (c := c) T F hi hi
    rw [if_pos rfl] at hl1
    refine ⟨withTable_extends T F hi, ?_, .inr ⟨?_, hz⟩, fun j hj => ?_⟩
    · rw [hl1]
      exact isTable_page F.aligned
    · rw [hl1, tableOf_page F.aligned]
      rfl
    · rw [withTable_l2 T F hi hj, if_pos hz]

/-! ## Small pages -/

/-- The entry for the physical page `q`. -/
def pte (H : Header) (c : Bool) (q : Nat) : Word :=
  H.set_l2_pte_dcache (BitVec.ofNat 32 (q * 4096)) c

theorem dvd_page (q : Nat) : 2 ^ 12 ∣ (BitVec.ofNat 32 (q * 4096)).toNat := by
  rw [BitVec.toNat_ofNat]
  omega

theorem pte_ne_zero (H : Header) (c : Bool) (q : Nat) : pte H c q ≠ 0 :=
  H.pte_ne_zero _ c (dvd_page q)

/-- Physical pages repeat after `2 ^ 20`. -/
theorem pte_page_mod (H : Header) (c : Bool) (q : Nat) :
    (pte H c q).toNat / 2 ^ 12 = q % 2 ^ 20 := by
  have h := congrArg BitVec.toNat (H.pte_addr _ c (dvd_page q))
  rw [TTB_L2_ADDR_MASK, Word.and_highMask_toNat _ (by decide), BitVec.toNat_ofNat] at h
  unfold pte
  omega

theorem pte_page (H : Header) (c : Bool) {q : Nat} (hq : q < 2 ^ 20) :
    (pte H c q).toNat / 2 ^ 12 = q := by
  rw [pte_page_mod, Nat.mod_eq_of_lt hq]

theorem ofNat_shiftLeft (q : Nat) :
    BitVec.ofNat 32 q <<< PAGE_SHIFT = BitVec.ofNat 32 (q * 4096) := by
  apply BitVec.eq_of_toNat_eq
  rw [BitVec.toNat_shiftLeft, BitVec.toNat_ofNat, BitVec.toNat_ofNat, PAGE_SHIFT,
    Nat.shiftLeft_eq]
  omega

theorem lookup_table {mem : Memory} (ht : IsTable H (l1 mem root i)) (hj : j < 256) :
    lookup H mem root (i * 256 + j) =
      if l2 mem root i j = 0 then none else some ((l2 mem root i j).toNat / 2 ^ 12) := by
  have hdiv : (i * 256 + j) / 256 = i := by omega
  have hmod : (i * 256 + j) % 256 = j := by omega
  rw [lookup, hdiv, hmod, if_neg ht.1, ht.2, if_neg Bool.false_ne_true]

/-- One entry of a second-level table is set. -/
theorem lookup_setPte (T : TablesOk H m root) (hi : i < 4096) (ht : IsTable H (l1 m.mem root i))
    (hj : j < 256) {q p : Nat} (hq : q < 2 ^ 20) (hp : p < 2 ^ 20) :
    lookup H (m.mem.store (entry (tableOf (l1 m.mem root i)) j) (pte H c q)) root p =
      if p = i * 256 + j then some q else lookup H m.mem root p := by
  have hoff : m.mem.EqOff (m.mem.store (entry (tableOf (l1 m.mem root i)) j) (pte H c q))
      (tableRegion (tableOf (l1 m.mem root i))) :=
    (Memory.eqOff_store _ _ _).mono (entry_sub_table hj)
  obtain ⟨E, hl1⟩ := Extends.of_tableWrite T hi ht hoff
  by_cases hpi : p / 256 = i
  · have hl2 : ∀ k < 256,
        l2 (m.mem.store (entry (tableOf (l1 m.mem root i)) j) (pte H c q)) root i k =
          if k = j then pte H c q else l2 m.mem root i k := by
      intro k hk
      rw [l2, hl1 i hi]
      split
      · next h => rw [h, Memory.load_store_self]
      · next h => rw [Memory.load_store_of_disjoint (disjoint_entry (by omega) (by omega) h), l2]
    have hlt : p % 256 < 256 := Nat.mod_lt _ (by decide)
    have hsplit : p = i * 256 + p % 256 := by omega
    have hiff : p % 256 = j ↔ p = i * 256 + j := by omega
    rw [hsplit, lookup_table ((hl1 i hi).symm ▸ ht) hlt, lookup_table ht hlt, hl2 _ hlt, ← hsplit]
    simp only [hiff]
    split
    · rw [if_neg (pte_ne_zero H c q), pte_page H c hq]
    · rfl
  · rw [if_neg (by omega), E.touched.lookup_eq E.tables hp hpi]

/-- `n` entries of the table at `t` have been set, from entry `j₀` on, to the values of `v`. -/
def EntriesSet (v : Nat → Word) (t : Word) (j₀ n : Nat) (mem mem' : Memory) : Prop :=
  mem.EqOff mem' (tableRegion t) ∧ ∀ j < 256, mem'.load (entry t j) =
    if j₀ ≤ j ∧ j < j₀ + n then v (j - j₀) else mem.load (entry t j)

section
variable {v : Nat → Word} {t : Word} {j₀ : Nat} {mem mem' : Memory}

theorem EntriesSet.zero (v : Nat → Word) (t : Word) (j₀ : Nat) (mem : Memory) :
    EntriesSet v t j₀ 0 mem mem :=
  ⟨fun _ _ => rfl, fun j _ => by rw [if_neg (by omega)]⟩

theorem EntriesSet.succ (h : EntriesSet v t j₀ n mem mem') (hn : j₀ + n < 256) :
    EntriesSet v t j₀ (n + 1) mem (mem'.store (entry t (j₀ + n)) (v n)) := by
  refine ⟨h.1.trans ((Memory.eqOff_store _ _ _).mono (entry_sub_table hn)), fun j hj => ?_⟩
  by_cases hjn : j = j₀ + n
  · have hsub : j₀ + n - j₀ = n := by omega
    rw [hjn, Memory.load_store_self, if_pos (by omega), hsub]
  · rw [Memory.load_store_of_disjoint (disjoint_entry (by omega) (by omega) hjn), h.2 j hj]
    have hiff : (j₀ ≤ j ∧ j < j₀ + n) ↔ (j₀ ≤ j ∧ j < j₀ + (n + 1)) := by omega
    simp only [hiff]

end

theorem ofNat_ne_iff {a b : Nat} (hab : a ≤ b) (h : b - a < 2 ^ 32) :
    (BitVec.ofNat 32 a ≠ BitVec.ofNat 32 b) ↔ a < b := by
  rw [← not_iff_not, not_not, ← BitVec.toNat_inj, BitVec.toNat_ofNat, BitVec.toNat_ofNat]
  omega

/-- The rule for the two loops over the entries of a second-level table. `P d` holds after `d`
rounds, each of which stores one value and goes on to the next page. -/
theorem wp_entries {σ : Type} {body : σ → Except Fault σ} {v : Nat → Word} {t : Word}
    {j₀ a n : Nat} (memOf : σ → Memory) (addrOf : σ → Word) (P : Nat → σ → Prop)
    (hbody : ∀ d s, P d s → wp (body s) (fun s' => P (d + 1) s' ∧
      memOf s' = (memOf s).store (entry t (j₀ + d)) (v d) ∧
      addrOf s' = addrOf s + BitVec.ofNat 32 PAGE_SIZE) (fun _ => False))
    {s : σ} (hs : P 0 s) (haddr : addrOf s = BitVec.ofNat 32 a) (hn : j₀ + n < 256) :
    wp (doWhile Fault.endless body (fun s => addrOf s ≠ BitVec.ofNat 32 (a + 4096 * (n + 1)))
        (2 ^ 20) s)
      (fun s' => EntriesSet v t j₀ (n + 1) (memOf s) (memOf s')) (fun _ => False) := by
  -- `r` rounds are left
  let I : Nat → σ → Prop := fun r s' => ∃ d, d + r = n + 1 ∧ P d s' ∧
    addrOf s' = BitVec.ofNat 32 (a + 4096 * d) ∧ EntriesSet v t j₀ d (memOf s) (memOf s')
  have hstart : I (n + 1) s := ⟨0, by omega, hs, haddr, EntriesSet.zero _ _ _ _⟩
  refine (wp_doWhile I ?_ (by omega) hstart).mono ?_
  · rintro r s' ⟨d, hd, hP, ha, hset⟩
    refine (hbody d s' hP).mono ?_
    rintro s'' ⟨hP', hmem, ha'⟩
    have haddr' : addrOf s'' = BitVec.ofNat 32 (a + 4096 * (d + 1)) := by
      rw [ha', ha, ← BitVec.ofNat_add, PAGE_SIZE, Nat.mul_succ, Nat.add_assoc]
    refine ⟨?_, d + 1, by omega, hP', haddr', ?_⟩
    · rw [haddr', decide_eq_decide]
      have hle : 4096 * (d + 1) ≤ 4096 * (n + 1) := Nat.mul_le_mul_left _ (by omega)
      exact (ofNat_ne_iff (Nat.add_le_add_left hle a) (by omega)).trans (by omega)
    · rw [hmem]
      exact hset.succ (by omega)
  · rintro s' ⟨d, hd, -, -, hset⟩
    exact (show d = n + 1 by omega) ▸ hset

theorem setPte_eq (s : PteLoop) :
    setPte H c s = .ok ⟨s.mem.store s.l2pte (H.set_l2_pte_dcache (s.pfn <<< PAGE_SHIFT) c),
      s.l2pte + 4, s.addr + BitVec.ofNat 32 PAGE_SIZE, s.pfn + 1⟩ := by
  rw [setPte, Memory.store_store_self, Memory.load_store_self]
  rfl

theorem setPte_loop (mem : Memory) (t : Word) (j₀ q a n : Nat) (hn : j₀ + n < 256) :
    wp (doWhile Fault.endless (setPte H c)
        (fun s => s.addr ≠ BitVec.ofNat 32 (a + 4096 * (n + 1))) (2 ^ 20)
        ⟨mem, entry t j₀, BitVec.ofNat 32 a, BitVec.ofNat 32 q⟩)
      (fun s => EntriesSet (fun d => pte H c (q + d)) t j₀ (n + 1) mem s.mem)
      (fun _ => False) := by
  refine wp_entries PteLoop.mem PteLoop.addr
    (fun d s => s.l2pte = entry t (j₀ + d) ∧ s.pfn = BitVec.ofNat 32 (q + d)) ?_ ⟨rfl, rfl⟩ rfl hn
  rintro d s ⟨hl2, hpfn⟩
  rw [setPte_eq, wp_ok]
  refine ⟨⟨?_, ?_⟩, ?_, rfl⟩
  · rw [hl2, entry_succ, Nat.add_assoc]
  · rw [hpfn, ← Nat.add_assoc]
    exact (BitVec.ofNat_add _ 1).symm
  · rw [hl2, hpfn, ofNat_shiftLeft]
    rfl

theorem l2pte_index_ofNat {a : Nat} (ha : a < 2 ^ 32) :
    l2pte_index (BitVec.ofNat 32 a) = a / 4096 % 256 := by
  rw [l2pte_index_eq, BitVec.toNat_ofNat, Nat.mod_eq_of_lt ha]
  rfl

theorem alloc_init_pte_spec (T : TablesOk H m root) (hi : i < 4096)
    (hs : H.l1pte_is_sect (l1 m.mem root i) = false ∨ l1 m.mem root i = 0) {a q n : Nat}
    (ha : a < 2 ^ 32) (hn : a / 4096 % 256 + n < 256) :
    wp (alloc_init_pte H al m (entry root i) (BitVec.ofNat 32 a)
        (BitVec.ofNat 32 (a + 4096 * (n + 1))) (BitVec.ofNat 32 q) c)
      (fun m' => Extends H root (· = i) m m' ∧ IsTable H (l1 m'.mem root i) ∧
        Grown root i m m' ∧ ∀ j < 256, l2 m'.mem root i j =
          if a / 4096 % 256 ≤ j ∧ j < a / 4096 % 256 + (n + 1) then
            pte H c (q + (j - a / 4096 % 256))
          else if l1 m.mem root i = 0 then 0 else l2 m.mem root i j)
      (· = .noMemory) := by
  unfold alloc_init_pte
  refine wp.bind (allocTable_spec T hi hs) ?_
  rintro m1 ⟨hext, ht, hgrown, hl2⟩
  have hloop := setPte_loop (H := H) (c := c) m1.mem (tableOf (l1 m1.mem root i))
    (a / 4096 % 256) q a n hn
  have hstart : l2pte_offset m1.mem (entry root i) (BitVec.ofNat 32 a) =
      entry (tableOf (l1 m1.mem root i)) (a / 4096 % 256) := by
    rw [l2pte_offset, l2pte_index_ofNat ha]
    rfl
  rw [hstart]
  refine wp.bind (hloop.weaken fun _ => False.elim) ?_
  · intro s hset
    obtain ⟨hext', hl1⟩ := Extends.of_tableWrite hext.tables hi ht hset.1
    rw [wp_pure]
    refine ⟨(hext.trans_of_l1 hext' fun k hk _ => (hl1 k hk).symm).mono (by tauto), ?_, ?_, ?_⟩
    · rw [hl1 i hi]
      exact ht
    · unfold Grown
      rwa [hl1 i hi]
    · intro j hj
      have hj' : l2 s.mem root i j = s.mem.load (entry (tableOf (l1 m1.mem root i)) j) := by
        rw [l2, hl1 i hi]
      rw [hj', hset.2 j hj]
      split
      · rfl
      · exact hl2 j hj

/-- The pages of a slot after `alloc_init_pte`. -/
theorem lookup_of_l2 {mem mem' : Memory} {a q n p : Nat} (hp : p / 256 = a / 4096 / 256)
    (hs : H.l1pte_is_sect (l1 mem root (p / 256)) = false ∨ l1 mem root (p / 256) = 0)
    (ht : IsTable H (l1 mem' root (p / 256)))
    (hl2 : ∀ j < 256, l2 mem' root (p / 256) j =
      if a / 4096 % 256 ≤ j ∧ j < a / 4096 % 256 + (n + 1) then
        pte H c (q + (j - a / 4096 % 256))
      else if l1 mem root (p / 256) = 0 then 0 else l2 mem root (p / 256) j) :
    lookup H mem' root p =
      if a / 4096 ≤ p ∧ p < a / 4096 + (n + 1) then some ((q + (p - a / 4096)) % 2 ^ 20)
      else lookup H mem root p := by
  have hl2p := hl2 (p % 256) (Nat.mod_lt _ (by decide))
  have hiff : (a / 4096 % 256 ≤ p % 256 ∧ p % 256 < a / 4096 % 256 + (n + 1)) ↔
      (a / 4096 ≤ p ∧ p < a / 4096 + (n + 1)) := by omega
  simp only [hiff] at hl2p
  rw [lookup, if_neg ht.1, ht.2, if_neg Bool.false_ne_true, hl2p]
  split
  · next hin =>
    have hoff : p % 256 - a / 4096 % 256 = p - a / 4096 := by omega
    rw [if_neg (pte_ne_zero H c _), hoff, pte_page_mod]
  · rw [lookup]
    by_cases hz : l1 mem root (p / 256) = 0
    · simp only [hz, if_true]
    · rw [if_neg hz, if_neg hz, hs.resolve_right hz, if_neg Bool.false_ne_true]

/-! ## Sections -/

theorem not_sectMask : ~~~TTB_SECT_MASK = Word.lowMask 20 := by decide

/-- The test for a section mapping. -/
theorem aligned_iff {a e : Nat} {phys : Word} :
    (BitVec.ofNat 32 a ||| BitVec.ofNat 32 e ||| phys) &&& ~~~TTB_SECT_MASK = 0 ↔
      2 ^ 20 ∣ a ∧ 2 ^ 20 ∣ e ∧ 2 ^ 20 ∣ phys.toNat := by
  have hmod : ∀ a : Nat, 2 ^ 20 ∣ a % 2 ^ 32 ↔ 2 ^ 20 ∣ a := fun a => by omega
  rw [not_sectMask, Word.or_and_eq_zero, Word.or_and_eq_zero,
    Word.and_lowMask_eq_zero _ (by decide), Word.and_lowMask_eq_zero _ (by decide),
    Word.and_lowMask_eq_zero _ (by decide), BitVec.toNat_ofNat, BitVec.toNat_ofNat, hmod, hmod,
    and_assoc]

theorem not_isTable_sect {w : Word} (h : H.l1pte_is_sect w = true) : ¬IsTable H w :=
  fun ht => Bool.noConfusion (h.symm.trans ht.2)

theorem setSect_eq (s : SectLoop) :
    setSect H c s = .ok ⟨s.mem.store s.l1pte (H.set_l1_pte_sect_dcache s.phys c), s.l1pte + 4,
      s.addr + TTB_SECT_SIZE, s.phys + TTB_SECT_SIZE⟩ := by
  rw [setSect, Memory.store_store_self, Memory.load_store_self]
  rfl

theorem setSect_once {mem : Memory} {l1pte addr phys : Word} :
    doWhile Fault.endless (setSect H c) (fun s => s.addr ≠ addr + TTB_SECT_SIZE) (2 ^ 12)
      ⟨mem, l1pte, addr, phys⟩ =
      .ok ⟨mem.store l1pte (H.set_l1_pte_sect_dcache phys c), l1pte + 4, addr + TTB_SECT_SIZE,
        phys + TTB_SECT_SIZE⟩ :=
  doWhile_once (by decide) (setSect_eq _) (by simp)

/-- An entry that refers to no table, in slot `i`. -/
theorem Extends.of_entry (T : TablesOk H m root) (hi : i < 4096) {w : Word}
    (hw : ¬IsTable H w) :
    Extends H root (· = i) m { m with mem := m.mem.store (entry root i) w } ∧
      l1 (m.mem.store (entry root i) w) root i = w := by
  have hself : l1 (m.mem.store (entry root i) w) root i = w := Memory.load_store_self _ _ _
  have hl1 : ∀ k < 4096, k ≠ i → l1 (m.mem.store (entry root i) w) root k = l1 m.mem root k :=
    fun k hk hki => Memory.load_store_of_disjoint (disjoint_entry (by omega) (by omega) hki)
  have htable : ∀ k < 4096, IsTable H (l1 (m.mem.store (entry root i) w) root k) →
      k ≠ i ∧ l1 (m.mem.store (entry root i) w) root k = l1 m.mem root k := by
    intro k hk ht
    have hki : k ≠ i := by
      rintro rfl
      rw [hself] at ht
      exact hw ht
    exact ⟨hki, hl1 k hk hki⟩
  refine ⟨⟨⟨T.blocks, T.root_live, fun k hk ht => ?_, fun k hk k' hk' ht ht' heq => ?_⟩,
    fun x hx => ?_, ⟨[], rfl⟩, fun k hk ht => ?_, rfl, rfl⟩, hself⟩
  · have h := htable k hk ht
    rw [h.2] at ht ⊢
    exact T.table_live k hk ht
  · have h := htable k hk ht
    have h' := htable k' hk' ht'
    rw [h.2] at ht heq
    rw [h'.2] at ht' heq
    exact T.inj k hk k' hk' ht ht' heq
  · refine ⟨i, hi, rfl, .inl ?_⟩
    by_contra hno
    exact hx (Memory.eqOff_store _ _ _ x hno)
  · have h := htable k hk ht
    rw [h.2] at ht ⊢
    exact .inl ⟨ht, rfl⟩

/-! ## One section of the range -/

/-- The range `[a, e)` in one slot is mapped by a section entry. -/
def SectChunk (a e phys : Nat) : Prop := 2 ^ 20 ∣ a ∧ 2 ^ 20 ∣ e ∧ 2 ^ 20 ∣ phys

instance (a e phys : Nat) : Decidable (SectChunk a e phys) :=
  inferInstanceAs (Decidable (_ ∧ _ ∧ _))

/-- The pages of a section. -/
theorem sect_pages {x : Nat} (h : 2 ^ 20 ∣ x) : x / 2 ^ 20 * 256 = x / 4096 := by
  obtain ⟨k, rfl⟩ := h
  rw [Nat.mul_div_cancel_left k (by decide), show 2 ^ 20 = 4096 * 256 from rfl, Nat.mul_assoc,
    Nat.mul_div_cancel_left _ (by decide), Nat.mul_comm]

theorem lookup_of_sect {mem : Memory} {p : Nat} {phys : Word} (hphys : 2 ^ 20 ∣ phys.toNat)
    (h : l1 mem root (p / 256) = H.set_l1_pte_sect_dcache phys c) :
    lookup H mem root p = some (phys.toNat / 4096 + p % 256) := by
  have haddr := congrArg BitVec.toNat (H.sect_addr phys c hphys)
  rw [TTB_L1_SECT_ADDR_MASK, Word.and_highMask_toNat _ (by decide)] at haddr
  have hbase : (H.set_l1_pte_sect_dcache phys c).toNat / 2 ^ 20 = phys.toNat / 2 ^ 20 := by
    rw [← haddr, Nat.mul_div_cancel _ (by decide)]
  rw [lookup, h, if_neg (H.sect_ne_zero phys c hphys), H.sect_is_sect phys c hphys, if_pos rfl,
    hbase, sect_pages hphys]

section
variable {a e : Nat} {phys : Word}

/-- The part of a range that is mapped by a section has one round of the loop. -/
theorem alloc_init_section_sect (hlt : a < e) (he : e ≤ (a / 2 ^ 20 + 1) * 2 ^ 20)
    (hsect : SectChunk a e phys.toNat) :
    alloc_init_section H al m (entry root i) (BitVec.ofNat 32 a) (BitVec.ofNat 32 e) phys c =
      .ok { m with mem := m.mem.store (entry root i) (H.set_l1_pte_sect_dcache phys c) } := by
  have he' : e = a + 2 ^ 20 := by
    obtain ⟨h1, h2, -⟩ := hsect
    omega
  have hend : BitVec.ofNat 32 e = BitVec.ofNat 32 a + TTB_SECT_SIZE := by
    rw [he', BitVec.ofNat_add]
    rfl
  rw [alloc_init_section, if_pos (aligned_iff.mpr hsect), hend, setSect_once]
  rfl

theorem alloc_init_section_small (H : Header) (al : Allocators) (m : Machine) (root : Word)
    (i : Nat) (c : Bool) (hlt : a < e) (ha4 : 4096 ∣ a) (he4 : 4096 ∣ e)
    (hsect : ¬SectChunk a e phys.toNat) :
    ∃ n, e = a + 4096 * (n + 1) ∧
      alloc_init_section H al m (entry root i) (BitVec.ofNat 32 a) (BitVec.ofNat 32 e) phys c =
        alloc_init_pte H al m (entry root i) (BitVec.ofNat 32 a)
          (BitVec.ofNat 32 (a + 4096 * (n + 1))) (BitVec.ofNat 32 (phys.toNat / 4096)) c := by
  obtain ⟨n, hn⟩ : ∃ n, e = a + 4096 * (n + 1) := ⟨(e - a) / 4096 - 1, by omega⟩
  have hpfn : phys >>> PAGE_SHIFT = BitVec.ofNat 32 (phys.toNat / 4096) := by
    apply BitVec.eq_of_toNat_eq
    have := phys.isLt
    rw [BitVec.toNat_ushiftRight, BitVec.toNat_ofNat, Nat.shiftRight_eq_div_pow, PAGE_SHIFT]
    omega
  refine ⟨n, hn, ?_⟩
  rw [alloc_init_section, if_neg (mt aligned_iff.mp hsect), hpfn, hn]

theorem alloc_init_section_spec (T : TablesOk H m root)
    (ha : a < 2 ^ 32) (hlt : a < e) (he : e ≤ (a / 2 ^ 20 + 1) * 2 ^ 20) (ha4 : 4096 ∣ a)
    (he4 : 4096 ∣ e) (hs : SectChunk a e phys.toNat ∨
      H.l1pte_is_sect (l1 m.mem root (a / 2 ^ 20)) = false ∨ l1 m.mem root (a / 2 ^ 20) = 0) :
    wp (alloc_init_section H al m (entry root (a / 2 ^ 20)) (BitVec.ofNat 32 a)
        (BitVec.ofNat 32 e) phys c)
      (fun m' => Extends H root (· = a / 2 ^ 20) m m' ∧
        (H.l1pte_is_sect (l1 m'.mem root (a / 2 ^ 20)) = true ↔ SectChunk a e phys.toNat) ∧
        ∀ p, p / 256 = a / 2 ^ 20 → lookup H m'.mem root p =
          if a / 4096 ≤ p ∧ p < e / 4096 then
            some ((phys.toNat / 4096 + (p - a / 4096)) % 2 ^ 20)
          else lookup H m.mem root p)
      (· = .noMemory) := by
  have hi : a / 2 ^ 20 < 4096 := by omega
  by_cases hsect : SectChunk a e phys.toNat
  · obtain ⟨hext, hl1⟩ :=
      Extends.of_entry T hi (not_isTable_sect (H.sect_is_sect phys c hsect.2.2))
    rw [alloc_init_section_sect hlt he hsect, wp_ok]
    refine ⟨hext, ?_, fun p hp => ?_⟩
    · rw [hl1, H.sect_is_sect phys c hsect.2.2]
      exact ⟨fun _ => hsect, fun _ => rfl⟩
    · have hlo := hsect.1
      have hhi := hsect.2.1
      have hphys := hsect.2.2
      have hmax := phys.isLt
      have hoff : p % 256 = p - a / 4096 := by omega
      rw [lookup_of_sect hsect.2.2 (c := c) (by rw [hp]; exact hl1), if_pos (by omega), hoff,
        Nat.mod_eq_of_lt (by omega)]
  · obtain ⟨n, hn, heq⟩ := alloc_init_section_small H al m root (a / 2 ^ 20) c hlt ha4 he4 hsect
    have hs' := hs.resolve_left hsect
    rw [heq]
    refine (alloc_init_pte_spec T hi hs' ha (by omega)).mono ?_
    rintro m' ⟨hext, ht, -, hl2⟩
    refine ⟨hext, ?_, fun p hp => ?_⟩
    · rw [ht.2]
      exact ⟨fun h => Bool.noConfusion h, fun h => absurd h hsect⟩
    · have hlast : e / 4096 = a / 4096 + (n + 1) := by omega
      rw [hlast]
      exact lookup_of_l2 (by omega) (hp ▸ hs') (hp ▸ ht) (hp ▸ hl2)

end

end SyeLabs.Mmu
