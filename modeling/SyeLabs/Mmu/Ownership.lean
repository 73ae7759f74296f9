import SyeLabs.Mmu.Release
import SyeLabs.Mmu.Translation

/-!
# The owners of second-level tables

A table that the calls on a root table have taken from the heap is referred to by one entry, and
goes back to the heap when the entry is cleared. This holds as long as each call finds in a slot
what it takes for granted: a table where small pages are released, and no table where an entry is
overwritten or cleared as a whole.
-/

namespace SyeLabs.Mmu

variable {H : Header} {al : Allocators} {m₀ m m' : Machine} {root t : Word} {r : Request}
  {kernel i k : Nat}

/-! ## Sequences of calls -/

inductive Call where
  | create_mapping (r : Request)
  | release_mapping (r : Request)
  | reset_root_pgtable (remove : Bool)

namespace Call

def exec (H : Header) (al : Allocators) (kernel : Nat) (root : Word) (m : Machine) :
    Call → Except Fault Machine
  | create_mapping r => Mmu.create_mapping H al m root r.virt_base r.phys_base r.size r.nocache
  | release_mapping r => Mmu.release_mapping H m root r.virt_base r.size
  | reset_root_pgtable remove => Mmu.reset_root_pgtable H kernel m root remove

/-- A range of the user area, which is not empty, is mapped; a range that has been mapped is
released. -/
def Legal (kernel : Nat) (past : List Call) : Call → Prop
  | create_mapping r => r.Range ∧ r.hi ≤ kernel * 2 ^ 20
  | release_mapping r => create_mapping r ∈ past
  | reset_root_pgtable _ => True

/-- A slot that is mapped by a section has no table, one that is mapped by small pages has no
section; a slot that is released as a whole has no table, one that is released in part has one. -/
def Clear (H : Header) (root : Word) (m : Machine) : Call → Prop
  | create_mapping r => r.Clear H m.mem root ∧
    ∀ k, r.slot k → r.sect k → ¬IsTable H (l1 m.mem root k)
  | release_mapping r => ∀ k, r.slot k → (r.whole k ↔ ¬IsTable H (l1 m.mem root k))
  | reset_root_pgtable _ => True

end Call

/-- The calls made, the last one first, on a root table that is new in `m₀`; each of them meets
the condition `ok` on the state before it. The root table is not given back in between. -/
inductive Calls (H : Header) (al : Allocators) (kernel : Nat) (ok : Machine → Call → Prop)
    (root : Word) (m₀ : Machine) : List Call → Machine → Prop
  | new {m : Machine} (hm : BlocksOk (live m.trace))
    (hnew : new_root_pgtable al m = .ok (root, m₀)) : Calls H al kernel ok root m₀ [] m₀
  | call {past : List Call} {m m' : Machine} {c : Call} (h : Calls H al kernel ok root m₀ past m)
    (hc : c.Legal kernel past) (hok : ok m c) (hkeep : c ≠ .reset_root_pgtable true)
    (hexec : c.exec H al kernel root m = .ok m') : Calls H al kernel ok root m₀ (c :: past) m'

/-- A table that the calls have taken from the heap and not given back. -/
def Allocated (m₀ m : Machine) (t : Word) : Prop :=
  (.heap, tableRegion t) ∈ live m.trace ∧ (.heap, tableRegion t) ∉ live m₀.trace

/-- Entry `i` of the root table refers to the table `t`. -/
def RefersTo (H : Header) (m : Machine) (root : Word) (i : Nat) (t : Word) : Prop :=
  i < 4096 ∧ IsTable H (l1 m.mem root i) ∧ tableOf (l1 m.mem root i) = t

/-- Each table has one owner, and an entry that is no section owns a table that is in use. -/
structure OneOwner (H : Header) (root : Word) (m₀ m : Machine) : Prop where
  owner : ∀ t, Allocated m₀ m t → ∃! i, RefersTo H m root i t
  entry : ∀ i < 4096, l1 m.mem root i ≠ 0 → H.l1pte_is_sect (l1 m.mem root i) = false →
    Allocated m₀ m (tableOf (l1 m.mem root i)) ∧ ∃ j < 256, l2 m.mem root i j ≠ 0

/-! ## The invariant -/

structure Owned (H : Header) (kernel : Nat) (root : Word) (m₀ m : Machine) : Prop
    extends TablesOk H m root where
  root_heap : (.heap, rootRegion root) ∈ live m₀.trace
  old : live m₀.trace ⊆ live m.trace
  new : ∀ i < 4096, IsTable H (l1 m.mem root i) →
    (.heap, tableRegion (tableOf (l1 m.mem root i))) ∉ live m₀.trace
  owner : ∀ t, Allocated m₀ m t → ∃ i, RefersTo H m root i t
  used : ∀ i < 4096, IsTable H (l1 m.mem root i) → ∃ j < 256, l2 m.mem root i j ≠ 0
  kernel_empty : ∀ i, kernel ≤ i → i < 4096 → l1 m.mem root i = 0

theorem Owned.first (N : IsNew m root m₀) : Owned H kernel root m₀ m₀ where
  toTablesOk := N.tables
  root_heap := by
    rw [N.trace]
    exact List.mem_cons_self
  old _ hb := hb
  new i hi ht := absurd (N.empty i hi ▸ ht) not_isTable_zero
  owner t ht := absurd ht.1 ht.2
  used i hi ht := absurd (N.empty i hi ▸ ht) not_isTable_zero
  kernel_empty i _ hi := N.empty i hi

theorem Owned.oneOwner (O : Owned H kernel root m₀ m) : OneOwner H root m₀ m where
  owner t ht := by
    obtain ⟨i, hi, hti, rfl⟩ := O.owner t ht
    exact ⟨i, ⟨hi, hti, rfl⟩, fun k ⟨hk, htk, heq⟩ => O.inj k hk i hi htk hti heq⟩
  entry i hi hz hs := ⟨⟨O.table_live i hi ⟨hz, hs⟩, O.new i hi ⟨hz, hs⟩⟩, O.used i hi ⟨hz, hs⟩⟩

/-- Where no entry is left, no table is. -/
theorem Owned.none_allocated (O : Owned H kernel root m₀ m)
    (hempty : ∀ i < kernel, l1 m.mem root i = 0) (t : Word) : ¬Allocated m₀ m t := by
  intro ht
  obtain ⟨i, hi, hti, -⟩ := O.owner t ht
  rcases lt_or_ge i kernel with hik | hik
  · exact not_isTable_zero (hempty i hik ▸ hti)
  · exact not_isTable_zero (O.kernel_empty i hik hi ▸ hti)

/-! ## Steps on one slot -/

/-- A step that gives the slot an entry or a table keeps the invariant, if no table is lost. -/
theorem Owned.extend (O : Owned H kernel root m₀ m) (E : Extends H root (· = k) m m')
    (hk : k < kernel) (hk4 : k < 4096)
    (hfate : Grown root k m m' ∧ IsTable H (l1 m'.mem root k) ∨
      m'.trace = m.trace ∧ ¬IsTable H (l1 m.mem root k))
    (hused : IsTable H (l1 m'.mem root k) → ∃ j < 256, l2 m'.mem root k j ≠ 0) :
    Owned H kernel root m₀ m' where
  toTablesOk := E.tables
  root_heap := O.root_heap
  old _ hb := E.live_sub (O.old hb)
  new i hi ht := by
    rcases E.own i hi ht with ⟨ht', heq⟩ | hnew
    · rw [heq]
      exact O.new i hi ht'
    · exact fun hold => hnew (O.old hold)
  owner t ht := by
    -- an old table has the owner it had
    have hkept : (.heap, tableRegion t) ∈ live m.trace →
        (IsTable H (l1 m.mem root k) → l1 m'.mem root k = l1 m.mem root k) →
        ∃ i, RefersTo H m' root i t := by
      intro hlive hsame
      obtain ⟨i, hi, hti, rfl⟩ := O.owner t ⟨hlive, ht.2⟩
      have hl1 : l1 m'.mem root i = l1 m.mem root i := by
        rcases eq_or_ne i k with rfl | hne
        · exact hsame hti
        · exact (E.touched.l1_eq E.tables hi hne).symm
      exact ⟨i, hi, hl1 ▸ hti, by rw [hl1]⟩
    rcases hfate with ⟨⟨htrace, -, hl1⟩ | ⟨htrace, hz⟩, htk⟩ | ⟨htrace, hnot⟩
    · exact hkept (htrace ▸ ht.1) fun _ => hl1
    · have hno : ¬IsTable H (l1 m.mem root k) := hz ▸ not_isTable_zero
      have hlive := ht.1
      rw [htrace, live_alloc] at hlive
      rcases List.mem_cons.mp hlive with heq | hlive
      · exact ⟨k, hk4, htk, (congrArg (fun b => b.2.base) heq).symm⟩
      · exact hkept hlive fun h => absurd h hno
    · exact hkept (htrace ▸ ht.1) fun h => absurd h hnot
  used i hi ht := by
    rcases eq_or_ne i k with rfl | hne
    · exact hused ht
    · have hl1 := E.touched.l1_eq E.tables hi hne
      obtain ⟨j, hj, hl2⟩ := O.used i hi (hl1.symm ▸ ht)
      exact ⟨j, hj, E.touched.l2_eq E.tables hi hne ht hj ▸ hl2⟩
  kernel_empty i hik hi := by
    rw [← E.touched.l1_eq E.tables hi (by omega)]
    exact O.kernel_empty i hik hi

/-- So does a step that takes things away, if a table that stays is in use. -/
theorem Owned.shrink (O : Owned H kernel root m₀ m) (R : Shrinks H root k m m') (hk4 : k < 4096)
    (hempty : l1 m.mem root k = 0 → l1 m'.mem root k = 0)
    (hused : IsTable H (l1 m'.mem root k) → ∃ j < 256, l2 m'.mem root k j ≠ 0) :
    Owned H kernel root m₀ m' where
  toTablesOk := R.tables O.toTablesOk hk4
  root_heap := O.root_heap
  old b hb := R.mem_live O.toTablesOk hk4 (O.old hb) fun ht h => O.new k hk4 ht (h ▸ hb)
  new i hi ht := by
    have hl1 := (R.isTable O.toTablesOk hk4 hi ht).1
    rw [hl1] at ht ⊢
    exact O.new i hi ht
  owner t ht := by
    obtain ⟨i, hi, hti, rfl⟩ := O.owner t ⟨R.live_sublist.subset ht.1, ht.2⟩
    have hl1 : l1 m'.mem root i = l1 m.mem root i := by
      rcases eq_or_ne i k with rfl | hne
      · rcases R.fate with ⟨-, hsame | ⟨hnot, -⟩⟩ | ⟨-, -, htrace⟩
        · exact hsame
        · exact absurd hti hnot
        · have hlive := ht.1
          rw [htrace, mem_live_free] at hlive
          exact absurd ⟨rfl, rfl⟩ hlive.2
      · exact (R.l1_eq O.toTablesOk hk4 hi hne).symm
    exact ⟨i, hi, hl1 ▸ hti, by rw [hl1]⟩
  used i hi ht := by
    rcases eq_or_ne i k with rfl | hne
    · exact hused ht
    · have hl1 := R.l1_eq O.toTablesOk hk4 hi hne
      obtain ⟨j, hj, hl2⟩ := O.used i hi (hl1.symm ▸ ht)
      exact ⟨j, hj, R.l2_eq O.toTablesOk hk4 hi hne (hl1.symm ▸ ht) hj ▸ hl2⟩
  kernel_empty i hik hi := by
    rcases eq_or_ne i k with rfl | hne
    · exact hempty (O.kernel_empty i hik hi)
    · rw [← R.l1_eq O.toTablesOk hk4 hi hne]
      exact O.kernel_empty i hik hi

/-! ## Calls -/

/-- Slots that the loop has not reached are as they were before the call. -/
def Ahead (root : Word) (k : Nat) (m m' : Machine) : Prop :=
  ∀ i < 4096, k ≤ i → l1 m'.mem root i = l1 m.mem root i

theorem Request.slot_lt_kernel (R : r.Range) (hslot : r.slot k) (hkernel : kernel ≤ 4096)
    (hhi : r.hi ≤ kernel * 2 ^ 20) : k < kernel ∧ k < 4096 := by
  have hle := (Request.slot_mul hslot).2
  have hpos := R.lo_lt_hi
  omega

/-- One slot is mapped. -/
theorem Owned.alloc_init_section (O : Owned H kernel root m₀ m) (R : r.Range) (hslot : r.slot k)
    (hk : k < kernel) (hk4 : k < 4096)
    (hsmall : ¬r.sect k → H.l1pte_is_sect (l1 m.mem root k) = false ∨ l1 m.mem root k = 0)
    (hsect : r.sect k → ¬IsTable H (l1 m.mem root k)) :
    wp (alloc_init_section H al m (entry root k) (BitVec.ofNat 32 (r.chunkLo k))
        (BitVec.ofNat 32 (r.chunkHi k))
        (BitVec.ofNat 32 (r.phys_base.toNat + (r.chunkLo k - r.lo))) r.nocache)
      (fun m' => Owned H kernel root m₀ m' ∧ Extends H root (· = k) m m') (· = .noMemory) := by
  have hlt := R.chunkLo_lt hslot
  have hdiv := Request.chunkLo_div hslot
  have hend : r.chunkHi k ≤ (r.chunkLo k / 2 ^ 20 + 1) * 2 ^ 20 := hdiv.symm ▸ r.chunkHi_le k
  by_cases hs : r.sect k
  · have hchunk := Request.sect_iff.mpr hs
    have hw := not_isTable_sect (H.sect_is_sect _ r.nocache hchunk.2.2)
    obtain ⟨E, hl1⟩ := Extends.of_entry O.toTablesOk hk4 hw
    rw [alloc_init_section_sect hlt hend hchunk, wp_ok]
    refine ⟨O.extend E hk hk4 (.inr ⟨rfl, hsect hs⟩) fun ht => ?_, E⟩
    rw [hl1] at ht
    exact absurd ht hw
  · obtain ⟨n, hn, heq⟩ := alloc_init_section_small H al m root k r.nocache hlt (r.chunkLo_dvd k)
      (r.chunkHi_dvd k) (mt Request.sect_iff.mp hs)
    have hhi := R.hi_le
    have hle := r.chunkHi_le_hi k
    rw [heq]
    refine (alloc_init_pte_spec O.toTablesOk hk4 (hsmall hs) (by omega) (by omega)).mono ?_
    rintro m' ⟨E, ht, hgrown, hl2⟩
    refine ⟨O.extend E hk hk4 (.inl ⟨hgrown, ht⟩) fun _ => ?_, E⟩
    -- the first page of the part has an entry
    refine ⟨r.chunkLo k / 4096 % 256, Nat.mod_lt _ (by decide), ?_⟩
    rw [hl2 _ (Nat.mod_lt _ (by decide)), if_pos (by omega)]
    exact pte_ne_zero H _ _

theorem Owned.create_mapping (O : Owned H kernel root m₀ m) (hroot : root ≠ 0)
    (hkernel : kernel ≤ 4096) (R : r.Range) (hhi : r.hi ≤ kernel * 2 ^ 20)
    (hclear : (Call.create_mapping r).Clear H root m) :
    wp (create_mapping H al m root r.virt_base r.phys_base r.size r.nocache)
      (Owned H kernel root m₀) (· = .noMemory) := by
  refine (create_mapping_slots R hroot
    (fun k m' => Owned H kernel root m₀ m' ∧ Ahead root k m m') ?_ ⟨O, fun _ _ _ => rfl⟩).mono
    fun m' h => h.1
  rintro k m' hslot ⟨O', hahead⟩
  obtain ⟨hk, hk4⟩ := Request.slot_lt_kernel R hslot hkernel hhi
  have hl1 := hahead k hk4 le_rfl
  refine (O'.alloc_init_section R hslot hk hk4 ?_ ?_).mono ?_
  · rw [hl1]
    exact hclear.1 k hslot
  · rw [hl1]
    exact hclear.2 k hslot
  · rintro m1 ⟨O1, E⟩
    refine ⟨O1, fun i hi hki => ?_⟩
    rw [← E.touched.l1_eq E.tables hi (by omega)]
    exact hahead i hi (by omega)

/-- One slot is released. -/
theorem Owned.free_l1_mapping (O : Owned H kernel root m₀ m) (R : r.Range) (hslot : r.slot k)
    (hk4 : k < 4096) (hwhole : r.whole k ↔ ¬IsTable H (l1 m.mem root k)) :
    wp (free_l1_mapping m (entry root k) (BitVec.ofNat 32 (r.chunkLo k))
        (BitVec.ofNat 32 (r.chunkHi k)))
      (fun m' => Owned H kernel root m₀ m' ∧ Shrinks H root k m m') (fun _ => False) := by
  have hlt := R.chunkLo_lt hslot
  have hdiv := Request.chunkLo_div hslot
  have hend : r.chunkHi k ≤ (r.chunkLo k / 2 ^ 20 + 1) * 2 ^ 20 := hdiv.symm ▸ r.chunkHi_le k
  by_cases hw : r.whole k
  · have hzero : l1 (m.mem.store (entry root k) 0) root k = 0 := Memory.load_store_self _ _ _
    have S := Shrinks.of_whole (hwhole.mp hw)
    rw [free_l1_mapping_whole hlt hend hw, wp_ok]
    exact ⟨O.shrink S hk4 (fun _ => hzero) fun ht => absurd (hzero ▸ ht) not_isTable_zero, S⟩
  · have ht : IsTable H (l1 m.mem root k) := not_not.mp (mt hwhole.mpr hw)
    obtain ⟨n, hn⟩ : ∃ n, r.chunkHi k = r.chunkLo k + 4096 * (n + 1) := by
      have hlo4 := r.chunkLo_dvd k
      have hhi4 := r.chunkHi_dvd k
      exact ⟨(r.chunkHi k - r.chunkLo k) / 4096 - 1, by omega⟩
    have hhi := R.hi_le
    have hle := r.chunkHi_le_hi k
    rw [free_l1_mapping_part hw, hn]
    refine (free_l2_mapping_spec O.toTablesOk (by omega) ht hk4 (by omega)).mono fun m' S => ?_
    exact ⟨O.shrink S.toShrinks hk4 (fun hz => absurd hz ht.1) fun hkept => (S.kept hkept).2,
      S.toShrinks⟩

theorem Owned.release_mapping (O : Owned H kernel root m₀ m) (hroot : root ≠ 0)
    (hkernel : kernel ≤ 4096) (R : r.Range) (hhi : r.hi ≤ kernel * 2 ^ 20)
    (hclear : (Call.release_mapping r).Clear H root m) :
    wp (release_mapping H m root r.virt_base r.size) (Owned H kernel root m₀)
      (fun _ => False) := by
  refine (release_mapping_slots R hroot
    (fun k m' => Owned H kernel root m₀ m' ∧ Ahead root k m m') ?_ ⟨O, fun _ _ _ => rfl⟩).mono
    fun m' h => h.1
  rintro k m' hslot ⟨O', hahead⟩
  obtain ⟨-, hk4⟩ := Request.slot_lt_kernel R hslot hkernel hhi
  have hl1 := hahead k hk4 le_rfl
  refine (O'.free_l1_mapping R hslot hk4 ?_).mono ?_
  · rw [hl1]
    exact hclear k hslot
  · rintro m1 ⟨O1, S⟩
    refine ⟨O1, fun i hi hki => ?_⟩
    rw [← S.l1_eq O'.toTablesOk hk4 hi (by omega)]
    exact hahead i hi (by omega)

/-- The loop of `reset_root_pgtable`. -/
theorem Owned.resetEntries (O : Owned H kernel root m₀ m) (hkernel : kernel ≤ 4096) :
    wp (forLoop kernel (resetEntry H root) m)
      (fun m' => Owned H kernel root m₀ m' ∧ ∀ i < kernel, l1 m'.mem root i = 0)
      (fun _ => False) := by
  refine wp_forLoop (fun k m' => Owned H kernel root m₀ m' ∧ ∀ i < k, l1 m'.mem root i = 0) ?_
    ⟨O, fun i hi => absurd hi (Nat.not_lt_zero i)⟩
  rintro k m' hk ⟨O', hzero⟩
  have hk4 : k < 4096 := by omega
  refine (resetEntry_spec O'.toTablesOk hk4).mono ?_
  rintro m1 ⟨S, hz⟩
  refine ⟨O'.shrink S hk4 (fun _ => hz) fun ht => absurd (hz ▸ ht) not_isTable_zero, ?_⟩
  intro i hi
  rcases Nat.lt_succ_iff_lt_or_eq.mp hi with h | rfl
  · rw [← S.l1_eq O'.toTablesOk hk4 (by omega) (by omega)]
    exact hzero i h
  · exact hz

/-- No table is left after `reset_root_pgtable`, with the root table or without it. -/
theorem Owned.reset_root_pgtable (O : Owned H kernel root m₀ m) (hkernel : kernel ≤ 4096)
    (remove : Bool) :
    wp (reset_root_pgtable H kernel m root remove)
      (fun m' => (remove = false → Owned H kernel root m₀ m') ∧ ∀ t, ¬Allocated m₀ m' t)
      (fun _ => False) := by
  unfold Mmu.reset_root_pgtable
  refine wp.bind (O.resetEntries hkernel) ?_
  rintro m' ⟨O', hzero⟩
  have hnone := O'.none_allocated hzero
  cases remove with
  | false => exact wp_pure.mpr ⟨fun _ => O', hnone⟩
  | true =>
    have hany : ((live m'.trace).any fun b => b.1 = .heap && b.2.base = root) = true :=
      List.any_eq_true.mpr ⟨_, O'.old O'.root_heap, by simp [rootRegion]⟩
    rw [if_pos rfl, Machine.free, if_pos hany, wp_pure]
    refine ⟨fun h => Bool.noConfusion h, fun t ht => hnone t ⟨?_, ht.2⟩⟩
    exact (mem_live_free.mp ht.1).1

/-- What holds between two calls. -/
structure Calls.Ok (H : Header) (kernel : Nat) (root : Word) (m₀ : Machine) (past : List Call)
    (m : Machine) : Prop where
  ne_zero : root ≠ 0
  owned : Owned H kernel root m₀ m
  created : ∀ r, .create_mapping r ∈ past → r.Range ∧ r.hi ≤ kernel * 2 ^ 20

theorem Calls.Ok.exec {past : List Call} {c : Call} (O : Calls.Ok H kernel root m₀ past m)
    (hkernel : kernel ≤ 4096) (hc : c.Legal kernel past) (hclear : c.Clear H root m) :
    wp (c.exec H al kernel root m)
      (fun m' => (c ≠ .reset_root_pgtable true → Owned H kernel root m₀ m') ∧
        ∀ remove, c = .reset_root_pgtable remove → ∀ t, ¬Allocated m₀ m' t)
      (· = .noMemory) := by
  cases c with
  | create_mapping r =>
    refine (O.owned.create_mapping O.ne_zero hkernel hc.1 hc.2 hclear).mono ?_
    exact fun m' O' => ⟨fun _ => O', nofun⟩
  | release_mapping r =>
    obtain ⟨R, hhi⟩ := O.created r hc
    refine ((O.owned.release_mapping O.ne_zero hkernel R hhi hclear).weaken
      fun _ => False.elim).mono ?_
    exact fun m' O' => ⟨fun _ => O', nofun⟩
  | reset_root_pgtable remove =>
    refine ((O.owned.reset_root_pgtable hkernel remove).weaken fun _ => False.elim).mono ?_
    rintro m' ⟨hkeep, hnone⟩
    refine ⟨fun hne => hkeep ?_, fun _ _ => hnone⟩
    cases remove with
    | false => rfl
    | true => exact absurd rfl hne

theorem Calls.ok {past : List Call} (hkernel : kernel ≤ 4096)
    (h : Calls H al kernel (fun m c => c.Clear H root m) root m₀ past m) :
    Calls.Ok H kernel root m₀ past m := by
  induction h with
  | new hm hnew =>
    have N := (new_root_pgtable_spec hm).of_ok hnew
    exact ⟨N.ne_zero, Owned.first N, fun r hr => absurd hr List.not_mem_nil⟩
  | @call past m m' c h hc hok hkeep hexec ih =>
    refine ⟨ih.ne_zero, ((ih.exec hkernel hc hok).of_ok hexec).1 hkeep, fun r hr => ?_⟩
    rcases List.mem_cons.mp hr with rfl | hr
    · exact hc
    · exact ih.created r hr

/-- In every sequence whose calls are clear, each table that has been taken from the heap has one
owner in every state; a further clear call keeps this, fails only for want of memory, and so frees
no table twice; after `reset_root_pgtable` no table is left. -/
theorem tables_oneOwner {past : List Call} (hkernel : kernel ≤ 4096)
    (h : Calls H al kernel (fun m c => c.Clear H root m) root m₀ past m) :
    OneOwner H root m₀ m ∧
      ∀ c : Call, c.Legal kernel past → c.Clear H root m →
        wp (c.exec H al kernel root m)
          (fun m' => (c ≠ .reset_root_pgtable true → OneOwner H root m₀ m') ∧
            ∀ remove, c = .reset_root_pgtable remove → ∀ t, ¬Allocated m₀ m' t)
          (· = .noMemory) := by
  have O := Calls.ok hkernel h
  refine ⟨O.owned.oneOwner, fun c hc hclear => (O.exec hkernel hc hclear).mono ?_⟩
  rintro m' ⟨hkeep, hnone⟩
  exact ⟨fun hne => (hkeep hne).oneOwner, hnone⟩

/-! ## One megabyte whose physical base is not that of a section -/

def Arm.megabyte : Request := ⟨0x300000, 0x501000, 0x100000, false⟩

/-- The root table is new. -/
def Arm.newRoot : Machine := { Arm.rooted with current_pgtable := 0 }

theorem Arm.newRoot_isNew : IsNew Arm.start 0x100000 Arm.newRoot :=
  (new_root_pgtable_spec Arm.start_blocks).of_ok Arm.new_rooted

theorem Arm.megabyte_ok : Arm.megabyte.Ok := ⟨⟨by decide, by decide⟩, by decide, by decide⟩

theorem Arm.megabyte_slot : Arm.megabyte.slot k ↔ k = 3 := by
  have hlo : Arm.megabyte.lo / 2 ^ 20 = 3 := by decide
  have hhi : (Arm.megabyte.hi - 1) / 2 ^ 20 = 3 := by decide
  rw [Request.slot, hlo, hhi]
  omega

theorem Arm.megabyte_not_sect : ¬Arm.megabyte.sect 3 := by
  unfold Request.sect
  decide

theorem Arm.megabyte_clear :
    (Call.create_mapping Arm.megabyte).Clear Arm.header 0x100000 Arm.newRoot := by
  have hzero : ∀ k, Arm.megabyte.slot k → l1 Arm.newRoot.mem 0x100000 k = 0 := fun k hk =>
    Arm.newRoot_isNew.empty k (by rw [Arm.megabyte_slot.mp hk]; decide)
  exact ⟨fun k hk _ => .inr (hzero k hk), fun k hk _ => hzero k hk ▸ not_isTable_zero⟩

/-- The call that maps it succeeds, and the slot has a table. -/
theorem Arm.megabyte_created (ok : Machine → Call → Prop)
    (hok : ok Arm.newRoot (.create_mapping Arm.megabyte)) :
    ∃ m, Mapped Arm.header 0x100000 Arm.megabyte Arm.newRoot m ∧
      Calls Arm.header Arm.allocators 0xC00 ok 0x100000 Arm.newRoot
        [.create_mapping Arm.megabyte] m := by
  have hrun : (create_mapping Arm.header Arm.allocators Arm.newRoot 0x100000 0x300000 0x501000
      0x100000 false).isOk = true := by decide +kernel
  obtain ⟨m, hm⟩ := exists_of_isOk hrun
  refine ⟨m, ?_, .call (.new Arm.start_blocks Arm.new_rooted)
    ⟨Arm.megabyte_ok.toRange, by decide⟩ hok nofun hm⟩
  exact (create_mapping_spec Arm.newRoot_isNew.tables (by decide) Arm.megabyte_ok.toRange
    Arm.megabyte_clear.1).of_ok hm

/-- The call that releases it clears the entry. -/
theorem Arm.megabyte_released (m : Machine) :
    release_mapping Arm.header m 0x100000 0x300000 0x100000 =
      .ok { m with mem := m.mem.store (entry 0x100000 3) 0 } := by
  refine wp.eq_ok (release_mapping_slot (r := Arm.megabyte) Arm.megabyte_ok.toRange (by decide)
    (fun _ => Arm.megabyte_slot) ?_)
  rw [free_l1_mapping_whole (by decide) (by decide) (by decide), wp_ok]

/-- Mapped, it has an owner. -/
theorem tables_oneOwner_megabyte : ∃ m,
    Calls Arm.header Arm.allocators 0xC00 (fun m c => c.Clear Arm.header 0x100000 m) 0x100000
      Arm.newRoot [.create_mapping Arm.megabyte] m ∧
    OneOwner Arm.header 0x100000 Arm.newRoot m := by
  obtain ⟨m, -, h⟩ := Arm.megabyte_created _ Arm.megabyte_clear
  exact ⟨m, h, (tables_oneOwner (by decide) h).1⟩

/-- Released as a whole, its table is lost. -/
theorem not_oneOwner_released : ∃ m,
    Calls Arm.header Arm.allocators 0xC00 (fun _ _ => True) 0x100000 Arm.newRoot
      [.release_mapping Arm.megabyte, .create_mapping Arm.megabyte] m ∧
    ¬OneOwner Arm.header 0x100000 Arm.newRoot m := by
  obtain ⟨m, M, h⟩ := Arm.megabyte_created (fun _ _ => True) True.intro
  refine ⟨_, .call h List.mem_cons_self True.intro nofun (Arm.megabyte_released m), fun O => ?_⟩
  have N := Arm.newRoot_isNew
  have hslot : Arm.megabyte.slot 3 := Arm.megabyte_slot.mpr rfl
  have ht := M.isTable Arm.megabyte_ok.toRange hslot Arm.megabyte_not_sect
  have hold : (Pool.heap, tableRegion (tableOf (l1 m.mem 0x100000 3))) ∉
      live Arm.newRoot.trace := by
    rcases M.ext.own 3 (by decide) ht with ⟨ht', -⟩ | hnew
    · exact absurd (N.empty 3 (by decide) ▸ ht') not_isTable_zero
    · exact hnew
  obtain ⟨i, ⟨hi, hti, -⟩, -⟩ := O.owner _ ⟨M.ext.tables.table_live 3 (by decide) ht, hold⟩
  rcases eq_or_ne i 3 with rfl | hne
  · exact hti.1 (Memory.load_store_self _ _ _)
  · apply hti.1
    -- the other entries are as in the new table
    have hother : l1 (m.mem.store (entry 0x100000 3) 0) 0x100000 i = l1 m.mem 0x100000 i :=
      Memory.load_store_of_disjoint (disjoint_entry (by omega) (by omega) hne)
    rw [hother, ← M.ext.touched.l1_eq M.ext.tables hi fun h => hne (Arm.megabyte_slot.mp h)]
    exact N.empty i hi

end SyeLabs.Mmu
