import SyeLabs.Mmu.Forest

/-!
# What `release_mapping` takes from a tree

Releasing a page clears its entry. A second-level table without entries goes back to the heap,
and the slot is empty again.
-/

namespace SyeLabs.Mmu

variable {H : Header} {al : Allocators} {m m' : Machine} {root v : Word} {i j k n : Nat}

/-- A step on slot `i` that takes away from it: memory changes in its entry and in its table only,
and the entry stays or is cleared. A table whose entry is cleared goes back to the heap. -/
structure Shrinks (H : Header) (root : Word) (i : Nat) (m m' : Machine) : Prop where
  touched : ∀ x, m.mem x ≠ m'.mem x → x ∈ (⟨entry root i, 4⟩ : Region) ∨
    (IsTable H (l1 m.mem root i) ∧ x ∈ tableRegion (tableOf (l1 m.mem root i)))
  fate : (m'.trace = m.trace ∧ (l1 m'.mem root i = l1 m.mem root i ∨
      ¬IsTable H (l1 m.mem root i) ∧ l1 m'.mem root i = 0)) ∨
    (IsTable H (l1 m.mem root i) ∧ l1 m'.mem root i = 0 ∧
      m'.trace = .free .heap (tableOf (l1 m.mem root i)) :: m.trace)
  sys_root : m'.sys_root_pgtable = m.sys_root_pgtable
  current : m'.current_pgtable = m.current_pgtable

section
variable {b : Word} {c : Pool × Region} {pool : Pool} {r : Region} (R : Shrinks H root i m m')
  (T : TablesOk H m root) (hi : i < 4096)
include R T hi

/-- The table is the only block that can have gone. -/
theorem Shrinks.mem_live (hc : c ∈ live m.trace)
    (hne : IsTable H (l1 m.mem root i) → c ≠ (.heap, tableRegion (tableOf (l1 m.mem root i)))) :
    c ∈ live m'.trace := by
  rcases R.fate with ⟨htrace, -⟩ | ⟨ht, -, htrace⟩
  · rwa [htrace]
  · rw [htrace]
    exact (T.blocks.mem_live_free (T.table_live i hi ht)).mpr ⟨hc, hne ht⟩

omit hi T in
theorem Shrinks.live_sublist : (live m'.trace).Sublist (live m.trace) := by
  rcases R.fate with ⟨htrace, -⟩ | ⟨-, -, htrace⟩
  · rw [htrace]
  · rw [htrace, live]
    exact List.filter_sublist

theorem Shrinks.eqOn_live (hc : (pool, r) ∈ live m.trace) (hroot : r ≠ rootRegion root)
    (hne : IsTable H (l1 m.mem root i) →
      (pool, r) ≠ (.heap, tableRegion (tableOf (l1 m.mem root i)))) : m.mem.EqOn m'.mem r := by
  intro x hx
  by_contra hxne
  obtain ⟨pool', hpool⟩ := T.root_live
  rcases R.touched x hxne with hxe | ⟨ht, hxt⟩
  · exact hroot (congrArg Prod.snd (T.blocks.eq_of_mem hc hpool hx (entry_sub_root hi x hxe)))
  · exact hne ht (T.blocks.eq_of_mem hc (T.table_live i hi ht) hx hxt)

theorem Shrinks.l1_eq (hk : k < 4096) (hne : k ≠ i) : l1 m.mem root k = l1 m'.mem root k := by
  refine l1_congr fun x hx => ?_
  by_contra hxne
  rcases R.touched x hxne with hxe | ⟨ht, hxt⟩
  · exact disjoint_entry (by omega) (by omega) hne x hx hxe
  · exact T.root_disjoint hi ht x (entry_sub_root hk x hx) hxt

theorem Shrinks.l2_eq (hk : k < 4096) (hne : k ≠ i) (ht : IsTable H (l1 m.mem root k))
    (hj : j < 256) : l2 m.mem root k j = l2 m'.mem root k j := by
  refine l2_congr (R.l1_eq T hi hk hne) (R.eqOn_live T hi (T.table_live k hk ht)
    (rootRegion_ne_tableRegion _ _).symm fun ht' h => hne ?_) hj
  exact T.inj k hk i hi ht ht' (congrArg (fun x => x.2.base) h)

/-- A table that is left is one that was there. -/
theorem Shrinks.isTable (hk : k < 4096) (htk : IsTable H (l1 m'.mem root k)) :
    l1 m'.mem root k = l1 m.mem root k ∧ (k = i → m'.trace = m.trace) := by
  rcases eq_or_ne k i with rfl | hne
  · rcases R.fate with ⟨htrace, hl1 | ⟨-, hl1⟩⟩ | ⟨-, hl1, -⟩
    · exact ⟨hl1, fun _ => htrace⟩
    · exact absurd (hl1 ▸ htk) not_isTable_zero
    · exact absurd (hl1 ▸ htk) not_isTable_zero
  · exact ⟨(R.l1_eq T hi hk hne).symm, fun h => absurd h hne⟩

theorem Shrinks.tables : TablesOk H m' root where
  blocks := T.blocks.sublist R.live_sublist
  root_live := by
    obtain ⟨pool, hpool⟩ := T.root_live
    refine ⟨pool, R.mem_live T hi hpool fun _ h => ?_⟩
    exact rootRegion_ne_tableRegion _ _ (congrArg Prod.snd h)
  table_live k hk htk := by
    obtain ⟨hl1, hkept⟩ := R.isTable T hi hk htk
    rw [hl1] at htk ⊢
    rcases eq_or_ne k i with rfl | hne
    · rw [hkept rfl]
      exact T.table_live k hk htk
    · refine R.mem_live T hi (T.table_live k hk htk) fun ht h => hne ?_
      exact T.inj k hk i hi htk ht (congrArg (fun x => x.2.base) h)
  inj k hk k' hk' htk htk' heq := by
    have h := (R.isTable T hi hk htk).1
    have h' := (R.isTable T hi hk' htk').1
    rw [h] at htk heq
    rw [h'] at htk' heq
    exact T.inj k hk k' hk' htk htk' heq

theorem Shrinks.sameSlots (hn : n ≤ i) : SameSlots H n root m.mem m'.mem := by
  intro k hk
  have hki : k ≠ i := by omega
  have hl1 := R.l1_eq T hi (by omega) hki
  exact ⟨hl1, fun htk l hl => R.l2_eq T hi (by omega) hki (hl1 ▸ htk) hl⟩

/-! ### Seen from another tree -/

theorem Shrinks.other_root (T' : TablesOk H m b) (hne : root ≠ b) :
    m.mem.EqOn m'.mem (rootRegion b) := by
  obtain ⟨pool, hpool⟩ := T'.root_live
  refine R.eqOn_live T hi hpool (rootRegion_ne hne) fun _ h => ?_
  exact rootRegion_ne_tableRegion _ _ (congrArg Prod.snd h)

theorem Shrinks.other_table (T' : TablesOk H m b) (hk : k < 4096) (hd : Alone H m.mem root b k)
    (htk : IsTable H (l1 m.mem b k)) :
    m.mem.EqOn m'.mem (tableRegion (tableOf (l1 m.mem b k))) := by
  refine R.eqOn_live T hi (T'.table_live k hk htk) (rootRegion_ne_tableRegion _ _).symm
    fun ht h => ?_
  exact hd i hi htk ht (congrArg (fun x => x.2.base) h)

theorem Shrinks.other_sameSlots (T' : TablesOk H m b) (hne : root ≠ b) (hn : n ≤ 4096)
    (hd : Apart H m.mem n root b) : SameSlots H n b m.mem m'.mem :=
  SameSlots.of_eqOn hn (R.other_root T hi T' hne) fun k hk =>
    R.other_table T hi T' (lt_of_lt_of_le hk hn) (hd k hk)

end

/-! ## Entries of a second-level table -/

/-- `n` entries of slot `i` have been released, from entry `j` on. -/
structure Released (H : Header) (root : Word) (i j n : Nat) (m m' : Machine) : Prop
    extends Shrinks H root i m m' where
  kept : IsTable H (l1 m'.mem root i) →
    (∀ k < 256, l2 m'.mem root i k = if j ≤ k ∧ k < j + n then 0 else l2 m.mem root i k) ∧
      ∃ k < 256, l2 m'.mem root i k ≠ 0
  gone : ¬IsTable H (l1 m'.mem root i) →
    ∀ k < 256, ¬(j ≤ k ∧ k < j + n) → l2 m.mem root i k = 0

theorem free_table (T : TablesOk H m root) (hi : i < 4096) (ht : IsTable H (l1 m.mem root i)) :
    m.free (tableOf (l1 m.mem root i)) =
      .ok { m with trace := .free .heap (tableOf (l1 m.mem root i)) :: m.trace } := by
  have hany : ((live m.trace).any fun b =>
      b.1 = .heap && b.2.base = tableOf (l1 m.mem root i)) = true :=
    List.any_eq_true.mpr ⟨_, T.table_live i hi ht, by simp [tableRegion]⟩
  rw [Machine.free, if_pos hany]
  rfl

theorem clearEntry_loop (mem : Memory) (t : Word) (j a n : Nat) (hn : j + n < 256) :
    wp (doWhile Fault.endless (clearEntry (BitVec.ofNat 32 PAGE_SIZE))
        (fun s => s.addr ≠ BitVec.ofNat 32 (a + 4096 * (n + 1))) (2 ^ 20)
        ⟨mem, entry t j, BitVec.ofNat 32 a⟩)
      (fun s => EntriesSet (fun _ => 0) t j (n + 1) mem s.mem) (fun _ => False) := by
  refine wp_entries FreeLoop.mem FreeLoop.addr (fun d s => s.pte = entry t (j + d)) ?_ rfl rfl hn
  intro d s hpte
  rw [clearEntry, wp_pure, hpte]
  exact ⟨entry_succ t (j + d), rfl, rfl⟩

theorem free_l2_mapping_spec (T : TablesOk H m root) {a n : Nat} (ha : a < 2 ^ 32)
    (ht : IsTable H (l1 m.mem root i)) (hi : i < 4096) (hn : a / 4096 % 256 + n < 256) :
    wp (free_l2_mapping m (entry root i) (BitVec.ofNat 32 a)
        (BitVec.ofNat 32 (a + 4096 * (n + 1))))
      (Released H root i (a / 4096 % 256) (n + 1) m) (fun _ => False) := by
  generalize hj : a / 4096 % 256 = j at hn
  have hstart : l2pte_offset m.mem (entry root i) (BitVec.ofNat 32 a) =
      entry (tableOf (l1 m.mem root i)) j := by
    rw [l2pte_offset, l2pte_index_ofNat ha, hj]
    rfl
  unfold free_l2_mapping
  rw [hstart]
  refine wp.bind (clearEntry_loop m.mem _ j a n hn) ?_
  rintro ⟨mem, _, _⟩ ⟨hoff, hset⟩
  obtain ⟨E, hl1⟩ := Extends.of_tableWrite T hi ht hoff
  have hfirst : l2pte_first mem (entry root i) = tableOf (l1 m.mem root i) :=
    congrArg tableOf (hl1 i hi)
  have hl2 : ∀ k < 256, l2 mem root i k =
      if j ≤ k ∧ k < j + (n + 1) then 0 else l2 m.mem root i k := by
    intro k hk
    rw [l2, hl1 i hi, hset k hk]
    rfl
  change wp (if (List.range TTB_L2_ENTRIES).any
    (fun k => mem.load (entry (l2pte_first mem (entry root i)) k) ≠ 0) then _ else _) _ _
  split
  · next hfound =>
    -- an entry is left, so the table stays
    obtain ⟨k, hk, hne⟩ := List.any_eq_true.mp hfound
    rw [List.mem_range] at hk
    rw [decide_eq_true_iff] at hne
    rw [wp_pure]
    refine ⟨⟨fun x hx => .inr ⟨ht, ?_⟩, .inl ⟨rfl, .inl (hl1 i hi)⟩, rfl, rfl⟩,
      fun _ => ⟨hl2, k, hk, hne⟩, fun hgone => absurd ((hl1 i hi).symm ▸ ht) hgone⟩
    exact not_not.mp fun hno => hx (hoff x hno)
  · next hfound =>
    have hfree := free_table E.tables hi ((hl1 i hi).symm ▸ ht)
    rw [hl1 i hi] at hfree
    change wp (Machine.free { m with mem := mem } (l2pte_first mem (entry root i)) >>= _) _ _
    rw [hfirst, hfree]
    have hzero : l1 (mem.store (entry root i) 0) root i = 0 := Memory.load_store_self _ _ _
    refine wp_pure.mpr ⟨⟨fun x hx => ?_, .inr ⟨ht, hzero, rfl⟩, rfl, rfl⟩,
      fun hkept => absurd (hzero ▸ hkept) not_isTable_zero, fun _ k hk hout => ?_⟩
    · by_contra hno
      rw [not_or, not_and] at hno
      exact hx ((hoff x (hno.2 ht)).trans (Memory.eqOff_store _ _ _ x hno.1))
    · by_contra hne
      refine hfound (List.any_eq_true.mpr ⟨k, List.mem_range.mpr hk, ?_⟩)
      rw [decide_eq_true_iff, hfirst, ← hl1 i hi]
      change l2 mem root i k ≠ 0
      rw [hl2 k hk, if_neg hout]
      exact hne

/-! ## One part of the range -/

/-- The part of the range in slot `k` is the whole slot, which is released by its entry alone. -/
def Request.whole (r : Request) (k : Nat) : Prop := 2 ^ 20 ∣ r.chunkLo k ∧ 2 ^ 20 ∣ r.chunkHi k

section
variable {a e : Nat}

theorem whole_iff : (BitVec.ofNat 32 a ||| BitVec.ofNat 32 e) &&& ~~~TTB_SECT_MASK = 0 ↔
    2 ^ 20 ∣ a ∧ 2 ^ 20 ∣ e := by
  have hmod : ∀ a : Nat, 2 ^ 20 ∣ a % 2 ^ 32 ↔ 2 ^ 20 ∣ a := fun a => by omega
  rw [not_sectMask, Word.or_and_eq_zero, Word.and_lowMask_eq_zero _ (by decide),
    Word.and_lowMask_eq_zero _ (by decide), BitVec.toNat_ofNat, BitVec.toNat_ofNat, hmod, hmod]

theorem free_l1_mapping_whole (hlt : a < e) (he : e ≤ (a / 2 ^ 20 + 1) * 2 ^ 20)
    (hwhole : 2 ^ 20 ∣ a ∧ 2 ^ 20 ∣ e) :
    free_l1_mapping m (entry root i) (BitVec.ofNat 32 a) (BitVec.ofNat 32 e) =
      .ok { m with mem := m.mem.store (entry root i) 0 } := by
  have he' : e = a + 2 ^ 20 := by omega
  have hend : BitVec.ofNat 32 e = BitVec.ofNat 32 a + TTB_SECT_SIZE := by
    rw [he', BitVec.ofNat_add]
    rfl
  have honce : doWhile Fault.endless (clearEntry TTB_SECT_SIZE)
      (fun s => s.addr ≠ BitVec.ofNat 32 a + TTB_SECT_SIZE) (2 ^ 12)
      ⟨m.mem, entry root i, BitVec.ofNat 32 a⟩ = .ok ⟨m.mem.store (entry root i) 0,
        entry root i + 4, BitVec.ofNat 32 a + TTB_SECT_SIZE⟩ :=
    doWhile_once (by decide) rfl (by simp)
  rw [free_l1_mapping, if_pos (whole_iff.mpr hwhole), hend, honce]
  rfl

theorem free_l1_mapping_part (hwhole : ¬(2 ^ 20 ∣ a ∧ 2 ^ 20 ∣ e)) :
    free_l1_mapping m (entry root i) (BitVec.ofNat 32 a) (BitVec.ofNat 32 e) =
      free_l2_mapping m (entry root i) (BitVec.ofNat 32 a) (BitVec.ofNat 32 e) := by
  rw [free_l1_mapping, if_neg (mt whole_iff.mp hwhole)]

end

theorem Shrinks.of_whole (ht : ¬IsTable H (l1 m.mem root i)) :
    Shrinks H root i m { m with mem := m.mem.store (entry root i) 0 } where
  touched x hx := .inl (not_not.mp fun hno => hx (Memory.eqOff_store _ _ _ x hno))
  fate := .inl ⟨rfl, .inr ⟨ht, Memory.load_store_self _ _ _⟩⟩
  sys_root := rfl
  current := rfl

/-- A call of `release_mapping`, slot by slot. -/
theorem release_mapping_slots {r : Request} (R : r.Range) (hroot : root ≠ 0) {E : Fault → Prop}
    (P : Nat → Machine → Prop)
    (hslot : ∀ k m, r.slot k → P k m → wp (free_l1_mapping m (entry root k)
      (BitVec.ofNat 32 (r.chunkLo k)) (BitVec.ofNat 32 (r.chunkHi k))) (P (k + 1)) E)
    (hm : P (r.lo / 2 ^ 20) m) :
    wp (release_mapping H m root r.virt_base r.size) (P ((r.hi - 1) / 2 ^ 20 + 1)) E := by
  let Q : Nat → ReleaseLoop → Prop := fun k s => s.l1pte = entry root k ∧ P k s.m
  have hstart : Q (r.lo / 2 ^ 20) ⟨m, entry root (r.lo / 2 ^ 20), BitVec.ofNat 32 r.lo⟩ :=
    ⟨rfl, hm⟩
  unfold release_mapping
  simp only [if_neg hroot, r.addr_eq, r.end_eq, l1pte_offset_lo R]
  refine wp.bind (wp_slots R ReleaseLoop.addr Q ?_ rfl hstart) fun s hs => wp_pure.mpr hs.2
  rintro k s hk haddr ⟨hl1pte, hP⟩
  have hspec := hslot k s.m hk hP
  unfold releaseChunk
  rw [haddr, l1sect_addr_end_slot H R hk, hl1pte]
  rw [← R.bound_eq_chunkLo hk, ← R.bound_succ hk] at hspec
  exact wp.bind hspec fun m' hm' => wp_pure.mpr ⟨rfl, entry_succ root k, hm'⟩

/-- A call whose range lies in one slot. -/
theorem release_mapping_slot {r : Request} (R : r.Range) (hroot : root ≠ 0)
    (hslot : ∀ i, r.slot i ↔ i = k) {Q : Machine → Prop} {E : Fault → Prop}
    (h : wp (free_l1_mapping m (entry root k) (BitVec.ofNat 32 (r.chunkLo k))
      (BitVec.ofNat 32 (r.chunkHi k))) Q E) :
    wp (release_mapping H m root r.virt_base r.size) Q E := by
  have hlt := R.lo_lt_hi
  have hle : r.lo / 2 ^ 20 ≤ (r.hi - 1) / 2 ^ 20 := Nat.div_le_div_right (by omega)
  have hfirst : r.lo / 2 ^ 20 = k := (hslot _).mp ⟨le_rfl, hle⟩
  have hlast : (r.hi - 1) / 2 ^ 20 = k := (hslot _).mp ⟨hle, le_rfl⟩
  let P : Nat → Machine → Prop := fun i m' => (i = k → m' = m) ∧ (i = k + 1 → Q m')
  have hP : P (r.lo / 2 ^ 20) m := ⟨fun _ => rfl, fun h => absurd h (by omega)⟩
  refine (release_mapping_slots R hroot P ?_ hP).mono fun m' h => h.2 (by rw [hlast])
  intro i m' hi hm'
  obtain rfl := (hslot i).mp hi
  rw [hm'.1 rfl]
  exact h.mono fun m' hQ => ⟨fun h => absurd h (by omega), fun _ => hQ⟩

/-! ## One page -/

theorem release_mapping_page (T : TablesOk H m root) (hroot : root ≠ 0) (hv : 4096 ∣ v.toNat)
    (ht : IsTable H (l1 m.mem root (l1pte_index v))) :
    wp (release_mapping H m root v (BitVec.ofNat 32 PAGE_SIZE))
      (Released H root (l1pte_index v) (l2pte_index v) 1 m) (fun _ => False) := by
  have hlt := v.isLt
  have hlo : (Request.page v 0).chunkLo (l1pte_index v) = v.toNat := by
    rw [Request.chunkLo, Request.lo_page, l1pte_index_eq]
    omega
  have hhi : (Request.page v 0).chunkHi (l1pte_index v) = v.toNat + 4096 * (0 + 1) := by
    rw [Request.chunkHi, Request.hi_page, l1pte_index_eq]
    omega
  have hspec := free_l2_mapping_spec (n := 0) T hlt ht (l1pte_index_lt v) (by omega)
  rw [page_l2] at hspec
  refine release_mapping_slot (r := Request.page v 0) (Request.page_range hv) hroot
    (fun _ => Request.page_slot hv) ?_
  rwa [hlo, hhi, free_l1_mapping_part (by omega)]

/-! ## A whole tree -/

/-- One round of `reset_root_pgtable`. -/
theorem resetEntry_spec (T : TablesOk H m root) (hi : i < 4096) :
    wp (resetEntry H root i m) (fun m' => Shrinks H root i m m' ∧ l1 m'.mem root i = 0)
      (fun _ => False) := by
  have hzero : l1 (m.mem.store (entry root i) 0) root i = 0 := Memory.load_store_self _ _ _
  unfold resetEntry
  by_cases hz : l1 m.mem root i = 0
  · rw [if_neg (not_not.mpr (show m.mem.load (entry root i) = 0 from hz)), wp_pure]
    exact ⟨⟨fun _ hx => absurd rfl hx, .inl ⟨rfl, .inl rfl⟩, rfl, rfl⟩, hz⟩
  rw [if_pos (show m.mem.load (entry root i) ≠ 0 from hz)]
  change wp (do
    let m' ←
      if !H.l1pte_is_sect (l1 m.mem root i) then m.free (tableOf (l1 m.mem root i)) else pure m
    return { m' with mem := m'.mem.store (entry root i) 0 }) _ _
  by_cases hs : H.l1pte_is_sect (l1 m.mem root i) = true
  · rw [hs]
    exact wp_pure.mpr ⟨Shrinks.of_whole (not_isTable_sect hs), hzero⟩
  · have ht : IsTable H (l1 m.mem root i) := ⟨hz, Bool.eq_false_of_not_eq_true hs⟩
    rw [ht.2, Bool.not_false, if_pos rfl, free_table T hi ht]
    refine wp_pure.mpr ⟨⟨fun x hx => .inl ?_, .inr ⟨ht, hzero, rfl⟩, rfl, rfl⟩, hzero⟩
    exact not_not.mp fun hno => hx (Memory.eqOff_store _ _ _ x hno)

end SyeLabs.Mmu
