import SyeLabs.Mmu.Beside
import SyeLabs.Mmu.Footprint

/-!
# The kernel area of all trees

The entries of the kernel area are copied when a root table is made. Trees that agree there go on to
agree as long as no call on the table of the system changes an entry of it: the second-level tables
are shared, the entries are not.
-/

namespace SyeLabs.Mmu

variable {H : Header} {al : Allocators} {m m' m'' : Machine} {a b root : Word} {r : Request}
  {i k n : Nat} {S S' : Nat → Prop} {roots roots' : List Word}

/-! ## Calls that leave the entries of the root table -/

/-- Memory changes in the second-level tables of the slots `S`; the entries of the root table are
as before. -/
structure Unmoved (H : Header) (root : Word) (S : Nat → Prop) (m m' : Machine) : Prop where
  ext : Extends H root S m m'
  entries : ∀ i < 4096, l1 m.mem root i = l1 m'.mem root i

theorem Unmoved.refl (T : TablesOk H m root) : Unmoved H root S m m :=
  ⟨Extends.refl T, fun _ _ => rfl⟩

theorem Unmoved.trans (h : Unmoved H root S m m') (h' : Unmoved H root S' m' m'') :
    Unmoved H root (fun k => S k ∨ S' k) m m'' :=
  ⟨h.ext.trans_of_l1 h'.ext fun k hk _ => h'.entries k hk,
    fun i hi => (h.entries i hi).trans (h'.entries i hi)⟩

theorem Unmoved.of_slot (E : Extends H root (· = k) m m')
    (hk : l1 m'.mem root k = l1 m.mem root k) : Unmoved H root (· = k) m m' := by
  refine ⟨E, fun i hi => ?_⟩
  rcases eq_or_ne i k with rfl | hne
  · exact hk.symm
  · exact E.touched.l1_eq E.tables hi hne

/-- The slots below `k`, and slot `k`. -/
theorem Unmoved.next (h : Unmoved H root (· < k) m m') (h' : Unmoved H root (· = k) m' m'') :
    Unmoved H root (· < k + 1) m m'' := by
  obtain ⟨E, hentries⟩ := h.trans h'
  exact ⟨E.mono fun i hi => by omega, hentries⟩

namespace Request
variable (r)

/-- What a section entry of the range is set to. -/
def sectEntry (H : Header) (k : Nat) : Word :=
  H.set_l1_pte_sect_dcache (BitVec.ofNat 32 (r.phys_base.toNat + (r.chunkLo k - r.lo))) r.nocache

/-- The entries of the root table are as `create_mapping` would have them: the second-level tables
for small pages are there, and so are the sections. -/
def Present (H : Header) (mem : Memory) (root : Word) : Prop :=
  ∀ k, r.slot k → (r.sect k → l1 mem root k = r.sectEntry H k) ∧
    (¬r.sect k → IsTable H (l1 mem root k))

/-- `release_mapping` leaves a page in each second-level table, and clears no other entry. -/
def Partial (H : Header) (mem : Memory) (root : Word) : Prop :=
  ∀ k, r.slot k → (r.whole k → l1 mem root k = 0) ∧ (¬r.whole k → IsTable H (l1 mem root k) ∧
    ∃ j < 256, ¬(r.chunkLo k ≤ k * 2 ^ 20 + j * 2 ^ 12 ∧ k * 2 ^ 20 + j * 2 ^ 12 < r.chunkHi k) ∧
      l2 mem root k j ≠ 0)

variable {r}

theorem Present.clear (h : r.Present H m.mem root) : r.Clear H m.mem root :=
  fun k hk hs => .inl ((h k hk).2 hs).2

end Request

theorem alloc_init_section_unmoved (T : TablesOk H m root) (R : r.Range) (hslot : r.slot k)
    (hsect : r.sect k → l1 m.mem root k = r.sectEntry H k)
    (htable : ¬r.sect k → IsTable H (l1 m.mem root k)) :
    wp (alloc_init_section H al m (entry root k) (BitVec.ofNat 32 (r.chunkLo k))
        (BitVec.ofNat 32 (r.chunkHi k))
        (BitVec.ofNat 32 (r.phys_base.toNat + (r.chunkLo k - r.lo))) r.nocache)
      (Unmoved H root (· = k) m) (· = .noMemory) := by
  have hk := Request.slot_lt R hslot
  have hlt := R.chunkLo_lt hslot
  have hdiv := Request.chunkLo_div hslot
  have hend : r.chunkHi k ≤ (r.chunkLo k / 2 ^ 20 + 1) * 2 ^ 20 := hdiv.symm ▸ r.chunkHi_le k
  by_cases hs : r.sect k
  · have hs' := Request.sect_iff.mpr hs
    have hw := not_isTable_sect (H.sect_is_sect _ r.nocache hs'.2.2)
    obtain ⟨E, hl1⟩ := Extends.of_entry T hk hw
    rw [alloc_init_section_sect hlt hend hs', wp_ok]
    exact Unmoved.of_slot E (hl1.trans (hsect hs).symm)
  · obtain ⟨n, hn, heq⟩ := alloc_init_section_small H al m root k r.nocache hlt (r.chunkLo_dvd k)
      (r.chunkHi_dvd k) (mt Request.sect_iff.mp hs)
    have ht := htable hs
    rw [heq]
    refine (alloc_init_pte_spec T hk (.inl ht.2) (by omega) (by omega)).mono ?_
    rintro m' ⟨E, -, hgrown, -⟩
    rcases hgrown with ⟨-, -, hl1⟩ | ⟨-, hzero⟩
    · exact Unmoved.of_slot E hl1
    · exact absurd hzero ht.1

theorem create_mapping_unmoved (T : TablesOk H m root) (hroot : root ≠ 0) (R : r.Range)
    (h : r.Present H m.mem root) :
    wp (create_mapping H al m root r.virt_base r.phys_base r.size r.nocache)
      (Unmoved H root (· < (r.hi - 1) / 2 ^ 20 + 1) m) (· = .noMemory) := by
  refine create_mapping_slots R hroot (fun k => Unmoved H root (· < k) m) ?_ (Unmoved.refl T)
  intro k m1 hk U
  obtain ⟨hsect, htable⟩ := h k hk
  rw [U.entries k (Request.slot_lt R hk)] at hsect htable
  exact (alloc_init_section_unmoved U.ext.tables R hk hsect htable).mono fun m2 U' => U.next U'

/-- A page of the table is left, and so is the table. -/
theorem Released.unmoved {j : Nat} (T : TablesOk H m root) (hk : k < 4096)
    (R : Released H root k j n m m')
    (hleft : ∃ i < 256, ¬(j ≤ i ∧ i < j + n) ∧ l2 m.mem root k i ≠ 0) :
    Unmoved H root (· = k) m m' := by
  have hkept : IsTable H (l1 m'.mem root k) := by
    by_contra hgone
    obtain ⟨i, hi, hout, hne⟩ := hleft
    exact hne (R.gone hgone i hi hout)
  obtain ⟨hl1, htrace⟩ := R.toShrinks.isTable T hk hk hkept
  refine Unmoved.of_slot ⟨R.toShrinks.tables T hk, fun x hx => ?_, ⟨[], htrace rfl⟩,
    fun i hi hti => ?_, R.sys_root, R.current⟩ hl1
  · have hx' := R.touched x hx
    rw [← hl1] at hx'
    exact ⟨k, hk, rfl, hx'⟩
  · have hsame := (R.toShrinks.isTable T hk hi hti).1
    rw [hsame] at hti ⊢
    exact .inl ⟨hti, rfl⟩

theorem free_l1_mapping_unmoved (T : TablesOk H m root) (R : r.Range) (hslot : r.slot k)
    (hwhole : r.whole k → l1 m.mem root k = 0)
    (hpart : ¬r.whole k → IsTable H (l1 m.mem root k) ∧ ∃ j < 256,
      ¬(r.chunkLo k ≤ k * 2 ^ 20 + j * 2 ^ 12 ∧ k * 2 ^ 20 + j * 2 ^ 12 < r.chunkHi k) ∧
        l2 m.mem root k j ≠ 0) :
    wp (free_l1_mapping m (entry root k) (BitVec.ofNat 32 (r.chunkLo k))
      (BitVec.ofNat 32 (r.chunkHi k))) (Unmoved H root (· = k) m) (fun _ => False) := by
  have hk := Request.slot_lt R hslot
  have hlt := R.chunkLo_lt hslot
  have hdiv := Request.chunkLo_div hslot
  have hend : r.chunkHi k ≤ (r.chunkLo k / 2 ^ 20 + 1) * 2 ^ 20 := hdiv.symm ▸ r.chunkHi_le k
  by_cases hw : r.whole k
  · obtain ⟨E, hzero⟩ := Extends.of_entry T hk (not_isTable_zero (H := H))
    rw [free_l1_mapping_whole hlt hend hw, wp_ok]
    exact Unmoved.of_slot E (hzero.trans (hwhole hw).symm)
  · obtain ⟨ht, j, hj, hout, hne⟩ := hpart hw
    have hlo4 := r.chunkLo_dvd k
    have hhi4 := r.chunkHi_dvd k
    obtain ⟨n, hn⟩ : ∃ n, r.chunkHi k = r.chunkLo k + 4096 * (n + 1) :=
      ⟨(r.chunkHi k - r.chunkLo k) / 4096 - 1, by omega⟩
    have hmax := R.hi_le
    have hle := r.chunkHi_le_hi k
    rw [free_l1_mapping_part hw, hn]
    refine (free_l2_mapping_spec T (by omega) ht hk (by omega)).mono fun m' S => ?_
    exact S.unmoved T hk ⟨j, hj, by omega, hne⟩

theorem release_mapping_unmoved (T : TablesOk H m root) (hroot : root ≠ 0) (R : r.Range)
    (h : r.Partial H m.mem root) :
    wp (release_mapping H m root r.virt_base r.size)
      (Unmoved H root (· < (r.hi - 1) / 2 ^ 20 + 1) m) (fun _ => False) := by
  refine release_mapping_slots R hroot (fun k => Unmoved H root (· < k) m) ?_ (Unmoved.refl T)
  intro k m1 hk U
  have hk4 := Request.slot_lt R hk
  refine (free_l1_mapping_unmoved U.ext.tables R hk (fun hw => ?_) fun hw => ?_).mono
    fun m2 U' => U.next U'
  · rw [← U.entries k hk4]
    exact (h k hk).1 hw
  · obtain ⟨ht, j, hj, hout, hne⟩ := (h k hk).2 hw
    have hsame := U.entries k hk4
    rw [← hsame]
    refine ⟨ht, j, hj, hout, ?_⟩
    rwa [← U.ext.touched.l2_eq U.ext.tables hk4 (lt_irrefl k) (hsame ▸ ht) hj]

/-! ## The trees of all processes -/

/-- The slots below `n`, the user area, are those that the trees do not share. -/
structure Trees (H : Header) (n : Nat) (roots : List Word) (m : Machine) : Prop where
  sys : TablesOk H m m.sys_root_pgtable
  sys_ne_zero : m.sys_root_pgtable ≠ 0
  user : ∀ i < n, ¬IsTable H (l1 m.mem m.sys_root_pgtable i)
  nodup : (m.sys_root_pgtable :: roots).Nodup
  ne_zero : ∀ a ∈ roots, a ≠ 0
  heap : ∀ a ∈ roots, (.heap, rootRegion a) ∈ live m.trace
  beside : ∀ a ∈ m.sys_root_pgtable :: roots, ∀ b ∈ m.sys_root_pgtable :: roots, a ≠ b →
    Beside H (· < n) a b m
  agree : ∀ a ∈ roots, ∀ i < 4096, n ≤ i → l1 m.mem a i = l1 m.mem m.sys_root_pgtable i

theorem Trees.sys_ne (F : Trees H n roots m) (ha : a ∈ roots) : m.sys_root_pgtable ≠ a :=
  fun h => (List.nodup_cons.mp F.nodup).1 (h ▸ ha)

theorem Trees.tables (F : Trees H n roots m) (ha : a ∈ m.sys_root_pgtable :: roots) :
    TablesOk H m a := by
  rcases eq_or_ne m.sys_root_pgtable a with rfl | hne
  · exact F.sys
  · exact (F.beside _ List.mem_cons_self a ha hne).tables

theorem Trees.first (T : TablesOk H m m.sys_root_pgtable) (hsys : m.sys_root_pgtable ≠ 0)
    (huser : ∀ i < n, ¬IsTable H (l1 m.mem m.sys_root_pgtable i)) : Trees H n [] m where
  sys := T
  sys_ne_zero := hsys
  user := huser
  nodup := List.nodup_singleton _
  ne_zero a ha := absurd ha List.not_mem_nil
  heap a ha := absurd ha List.not_mem_nil
  beside a ha b hb hne := by
    rw [List.mem_singleton.mp ha, List.mem_singleton.mp hb] at hne
    exact absurd rfl hne
  agree a ha := absurd ha List.not_mem_nil

/-- A step on one of the trees that keeps its kernel area, and all of it if it is the tree of the
system. -/
theorem Trees.step (F : Trees H n roots m) (ha : a ∈ m.sys_root_pgtable :: roots)
    (C : Confined H (· < n) a m m')
    (hkernel : ∀ i < 4096, n ≤ i ∨ a = m.sys_root_pgtable → l1 m.mem a i = l1 m'.mem a i)
    (hn : n ≤ 4096) : Trees H n roots m' := by
  have hentries : ∀ b ∈ m.sys_root_pgtable :: roots, b ≠ a → ∀ i < 4096,
      l1 m.mem b i = l1 m'.mem b i :=
    fun b hb hne => (C.beside b (F.beside a ha b hb hne.symm)).2.entries
  have hsame : ∀ b ∈ m.sys_root_pgtable :: roots, ∀ i < 4096,
      n ≤ i ∨ b = m.sys_root_pgtable → l1 m.mem b i = l1 m'.mem b i := by
    intro b hb i hi h
    rcases eq_or_ne b a with rfl | hne
    · exact hkernel i hi h
    · exact hentries b hb hne i hi
  have htables : ∀ b ∈ m.sys_root_pgtable :: roots, TablesOk H m' b := by
    intro b hb
    rcases eq_or_ne b a with rfl | hne
    · exact C.tables
    · exact (C.beside b (F.beside a ha b hb hne.symm)).1.tables
  have hsys : m.sys_root_pgtable ∈ m.sys_root_pgtable :: roots := List.mem_cons_self
  constructor
  case sys =>
    rw [C.sys_root]
    exact htables _ hsys
  case sys_ne_zero => exact C.sys_root ▸ F.sys_ne_zero
  case user =>
    intro i hi
    rw [C.sys_root, ← hsame _ hsys i (by omega) (.inr rfl)]
    exact F.user i hi
  case nodup => exact C.sys_root ▸ F.nodup
  case ne_zero => exact F.ne_zero
  case heap => exact fun b hb => C.root _ (F.heap b hb) rfl
  case beside =>
    rw [C.sys_root]
    intro b hb c hc hne
    have B := F.beside b hb c hc hne
    rcases eq_or_ne b a with rfl | hba
    · exact (C.beside c B).1
    rcases eq_or_ne c a with rfl | hca
    · exact (C.beside b (B.symm (F.tables hb))).1.symm C.tables
    · exact B.of_entries (htables c hc) (hentries b hb hba) (hentries c hc hca)
  case agree =>
    intro b hb i hi hni
    rw [C.sys_root, ← hsame b (List.mem_cons_of_mem _ hb) i hi (.inl hni),
      ← hsame _ hsys i hi (.inr rfl)]
    exact F.agree b hb i hi hni

/-- A call on the table of the system. -/
theorem Trees.unmoved (F : Trees H n roots m) (U : Unmoved H m.sys_root_pgtable S m m')
    (hn : n ≤ 4096) : Trees H n roots m' :=
  F.step List.mem_cons_self U.ext.confined (fun i hi _ => U.entries i hi) hn

/-- A new process. -/
theorem Trees.add (F : Trees H n roots m) (N : NewTree n m root m') (hn : n ≤ 4096) :
    Trees H n (roots ++ [root]) m' := by
  have hsys : m.sys_root_pgtable ∈ m.sys_root_pgtable :: roots := List.mem_cons_self
  have hentries : ∀ b ∈ m.sys_root_pgtable :: roots, ∀ i < 4096,
      l1 m.mem b i = l1 m'.mem b i :=
    fun b hb => (N.stays (U := fun _ => False) (F.tables hb)).entries
  have hbeside : ∀ b ∈ m.sys_root_pgtable :: roots, Beside H (· < n) root b m' := by
    intro b hb
    refine N.beside (F.tables hb) (fun i _ hi hni => absurd hi (Nat.not_lt.mpr hni)) ?_
    intro i hi4 hi
    rcases List.mem_cons.mp hb with rfl | hb
    · exact fun _ _ ht => absurd ht (F.user i hi)
    · exact (F.beside _ hsys b (List.mem_cons_of_mem _ hb) (F.sys_ne hb)).alone i hi4 hi
  have hmem : ∀ {b}, b ∈ m.sys_root_pgtable :: (roots ++ [root]) →
      b ∈ m.sys_root_pgtable :: roots ∨ b = root := by
    intro b hb
    rw [← List.cons_append] at hb
    exact (List.mem_append.mp hb).imp_right List.mem_singleton.mp
  constructor
  case sys => exact N.sys_root ▸ N.other_tables F.sys
  case sys_ne_zero => exact N.sys_root ▸ F.sys_ne_zero
  case user =>
    intro i hi
    rw [N.sys_root, ← hentries _ hsys i (by omega)]
    exact F.user i hi
  case nodup =>
    rw [N.sys_root, ← List.cons_append]
    refine F.nodup.append (List.nodup_singleton _) ?_
    rw [List.disjoint_singleton]
    exact fun hb => N.ne (F.tables hb) rfl
  case ne_zero =>
    intro b hb
    rcases List.mem_append.mp hb with hb | hb
    · exact F.ne_zero b hb
    · exact List.mem_singleton.mp hb ▸ N.ne_zero
  case heap =>
    intro b hb
    rcases List.mem_append.mp hb with hb | hb
    · exact N.live_sub (F.heap b hb)
    · exact List.mem_singleton.mp hb ▸ N.root_live
  case beside =>
    rw [N.sys_root]
    intro b hb c hc hne
    rcases hmem hb with hb' | rfl
    · rcases hmem hc with hc' | rfl
      · exact (F.beside b hb' c hc' hne).of_entries (N.other_tables (F.tables hc'))
          (hentries b hb') (hentries c hc')
      · exact (hbeside b hb').symm (N.tables F.sys)
    · rcases hmem hc with hc' | rfl
      · exact hbeside c hc'
      · exact absurd rfl hne
  case agree =>
    intro b hb i hi hni
    rw [N.sys_root, ← hentries _ hsys i hi]
    rcases List.mem_append.mp hb with hb | hb
    · rw [← hentries b (List.mem_cons_of_mem _ hb) i hi]
      exact F.agree b hb i hi hni
    · rw [List.mem_singleton.mp hb, N.entries i hi, if_neg (Nat.not_lt.mpr hni)]

/-- A process is gone, and its root table has been given back. -/
theorem Trees.remove (F : Trees H n roots m) (ha : a ∈ roots) (hsub : roots'.Sublist roots)
    (ha' : a ∉ roots') :
    ∃ m', m.free a = .ok m' ∧ Trees H n roots' m' := by
  have hsys := F.sys_ne ha
  have hany : ((live m.trace).any fun b => b.1 = .heap && b.2.base = a) = true :=
    List.any_eq_true.mpr ⟨_, F.heap a ha, by simp [rootRegion]⟩
  refine ⟨{ m with trace := .free .heap a :: m.trace }, by rw [Machine.free, if_pos hany]; rfl, ?_⟩
  have hlive : ∀ b ∈ live m.trace, b ≠ (.heap, rootRegion a) →
      b ∈ live (.free .heap a :: m.trace) :=
    fun b hb hne => (F.sys.blocks.mem_live_free (F.heap a ha)).mpr ⟨hb, hne⟩
  have hB : BlocksOk (live (.free .heap a :: m.trace)) :=
    F.sys.blocks.sublist List.filter_sublist
  have hroot : ∀ {b pool}, b ≠ a → (pool, rootRegion b) ≠ (Pool.heap, rootRegion a) :=
    fun hne h => hne (congrArg (fun x => x.2.base) h)
  have htables : ∀ b ∈ m.sys_root_pgtable :: roots, b ≠ a →
      TablesOk H { m with trace := .free .heap a :: m.trace } b := by
    intro b hb hne
    have T := F.tables hb
    obtain ⟨pool, hpool⟩ := T.root_live
    refine ⟨hB, ⟨pool, hlive _ hpool (hroot hne)⟩, fun i hi ht => ?_, T.inj⟩
    refine hlive _ (T.table_live i hi ht) fun h => ?_
    exact rootRegion_ne_tableRegion _ _ (congrArg Prod.snd h).symm
  have hmem : ∀ {b}, b ∈ m.sys_root_pgtable :: roots' →
      b ∈ m.sys_root_pgtable :: roots ∧ b ≠ a := by
    intro b hb
    refine ⟨(hsub.cons_cons _).subset hb, ?_⟩
    rcases List.mem_cons.mp hb with rfl | hb
    · exact hsys
    · exact fun h => ha' (h ▸ hb)
  constructor
  case sys => exact htables _ List.mem_cons_self hsys
  case sys_ne_zero => exact F.sys_ne_zero
  case user => exact F.user
  case nodup => exact F.nodup.sublist (hsub.cons_cons _)
  case ne_zero => exact fun b hb => F.ne_zero b (hsub.subset hb)
  case heap =>
    intro b hb
    exact hlive _ (F.heap b (hsub.subset hb)) (hroot fun h => ha' (h ▸ hb))
  case beside =>
    intro b hb c hc hne
    obtain ⟨hb', -⟩ := hmem hb
    obtain ⟨hc', hca⟩ := hmem hc
    exact (F.beside b hb' c hc' hne).of_entries (htables c hc' hca) (fun _ _ => rfl)
      fun _ _ => rfl
  case agree => exact fun b hb => F.agree b (hsub.subset hb)

/-! ## The calls -/

/-- The kernel area is not reset. -/
theorem reset_root_pgtable_kernel (T : TablesOk H m a) (hn : n ≤ 4096) :
    wp (reset_root_pgtable H n m a false)
      (fun m' => ∀ i < 4096, n ≤ i → l1 m.mem a i = l1 m'.mem a i) (fun _ => False) := by
  let I : Nat → Machine → Prop := fun _ m' =>
    TablesOk H m' a ∧ ∀ i < 4096, n ≤ i → l1 m.mem a i = l1 m'.mem a i
  have hstart : I 0 m := ⟨T, fun _ _ _ => rfl⟩
  unfold reset_root_pgtable
  refine wp.bind (wp_forLoop I ?_ hstart) fun m' hm' => wp_pure.mpr hm'.2
  rintro k m1 hk ⟨T1, hsame⟩
  have hk4 : k < 4096 := lt_of_lt_of_le hk hn
  refine (resetEntry_spec T1 hk4).mono ?_
  rintro m2 ⟨R, -⟩
  refine ⟨R.tables T1 hk4, fun i hi hni => ?_⟩
  rw [hsame i hi hni]
  exact R.l1_eq T1 hk4 hi (by omega)

theorem Trees.reset (F : Trees H n roots m) (ha : a ∈ roots) (hn : n ≤ 4096) :
    wp (reset_root_pgtable H n m a false) (Trees H n roots) (fun _ => False) := by
  have ha' : a ∈ m.sys_root_pgtable :: roots := List.mem_cons_of_mem _ ha
  have T := F.tables ha'
  refine ((reset_root_pgtable_spec T hn fun _ hi => hi).and
    (reset_root_pgtable_kernel T hn)).mono ?_
  rintro m' ⟨C, hkernel⟩
  refine F.step ha' C.toConfined (fun i hi h => hkernel i hi ?_) hn
  exact h.resolve_right (F.sys_ne ha).symm

theorem reset_root_pgtable_remove (H : Header) (n : Nat) (m : Machine) (a : Word) :
    reset_root_pgtable H n m a true =
      reset_root_pgtable H n m a false >>= fun m' => m'.free a := by
  simp [reset_root_pgtable]

theorem Trees.reset_remove (F : Trees H n roots m) (ha : a ∈ roots) (hn : n ≤ 4096)
    (hsub : roots'.Sublist roots) (ha' : a ∉ roots') :
    wp (reset_root_pgtable H n m a true) (Trees H n roots') (fun _ => False) := by
  rw [reset_root_pgtable_remove]
  refine wp.bind (F.reset ha hn) fun m1 F1 => ?_
  obtain ⟨m2, hfree, F2⟩ := F1.remove ha hsub ha'
  rw [hfree, wp_ok]
  exact F2

/-- A mapping in the user area of a process. -/
theorem Trees.create_mapping (F : Trees H n roots m) (ha : a ∈ roots) (hn : n ≤ 4096)
    (R : r.Range) (huser : r.hi ≤ n * 2 ^ 20) (hclear : r.Clear H m.mem a) :
    wp (Mmu.create_mapping H al m a r.virt_base r.phys_base r.size r.nocache) (Trees H n roots)
      (· = .noMemory) := by
  have ha' : a ∈ m.sys_root_pgtable :: roots := List.mem_cons_of_mem _ ha
  refine (create_mapping_spec (F.tables ha') (F.ne_zero a ha) R hclear).mono fun m' M => ?_
  refine F.step ha' M.ext.confined (fun i hi h => ?_) hn
  refine M.ext.touched.l1_eq M.ext.tables hi fun hslot => ?_
  have hni := h.resolve_right (F.sys_ne ha).symm
  have hle := (Request.slot_mul hslot).2
  have hlt := R.lo_lt_hi
  omega

theorem create_mapping_null (hsys : m.sys_root_pgtable ≠ 0) :
    create_mapping H al m 0 r.virt_base r.phys_base r.size r.nocache =
      create_mapping H al m m.sys_root_pgtable r.virt_base r.phys_base r.size r.nocache := by
  rw [create_mapping, create_mapping, if_pos rfl, if_neg hsys]

theorem release_mapping_null (hsys : m.sys_root_pgtable ≠ 0) :
    release_mapping H m 0 r.virt_base r.size =
      release_mapping H m m.sys_root_pgtable r.virt_base r.size := by
  rw [release_mapping, release_mapping, if_pos rfl, if_neg hsys]

theorem Request.not_slot (hkernel : n * 2 ^ 20 ≤ r.virt_base.toNat) (hi : i < n) :
    ¬r.slot i := by
  intro hslot
  have hlt := (Request.slot_mul hslot).1
  unfold lo at hlt
  omega

/-- A mapping of the system, made before there is a process or without a new entry. -/
theorem Trees.create_sys (F : Trees H n roots m) (hn : n ≤ 4096) (R : r.Range)
    (hkernel : n * 2 ^ 20 ≤ r.virt_base.toNat) (hclear : r.Clear H m.mem m.sys_root_pgtable)
    (h : roots = [] ∨ r.Present H m.mem m.sys_root_pgtable) :
    wp (Mmu.create_mapping H al m 0 r.virt_base r.phys_base r.size r.nocache) (Trees H n roots)
      (· = .noMemory) := by
  rw [create_mapping_null F.sys_ne_zero]
  rcases h with rfl | h
  · refine (create_mapping_spec F.sys F.sys_ne_zero R hclear).mono fun m' M => ?_
    refine Trees.first (M.ext.sys_root ▸ M.ext.tables) (M.ext.sys_root ▸ F.sys_ne_zero) ?_
    intro i hi
    rw [M.ext.sys_root, ← M.ext.touched.l1_eq M.ext.tables (by omega)
      (Request.not_slot hkernel hi)]
    exact F.user i hi
  · exact (create_mapping_unmoved F.sys F.sys_ne_zero R h).mono fun m' U => F.unmoved U hn

theorem Trees.release_sys (F : Trees H n roots m) (hn : n ≤ 4096) (R : r.Range)
    (hkernel : n * 2 ^ 20 ≤ r.virt_base.toNat) (hheld : r.Held H m.mem m.sys_root_pgtable)
    (h : roots = [] ∨ r.Partial H m.mem m.sys_root_pgtable) :
    wp (release_mapping H m 0 r.virt_base r.size) (Trees H n roots) (fun _ => False) := by
  rw [release_mapping_null F.sys_ne_zero]
  rcases h with rfl | h
  · refine (release_mapping_inv F.sys F.sys_ne_zero R hheld).mono fun m' I => ?_
    refine Trees.first (I.sys_root ▸ I.tables) (I.sys_root ▸ F.sys_ne_zero) fun i hi => ?_
    rw [I.sys_root, ← I.l1_eq F.sys R (by omega) (Request.not_slot hkernel hi)]
    exact F.user i hi
  · exact (release_mapping_unmoved F.sys F.sys_ne_zero R h).mono fun m' U => F.unmoved U hn

end SyeLabs.Mmu
