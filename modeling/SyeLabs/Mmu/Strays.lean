import SyeLabs.Mmu.KernelArea

/-!
# The blocks of the heap that no tree has

The calls on a tree take tables from the heap and give them back. A block that no tree has stays as
it is, and no block that a tree has had becomes one of them.
-/

namespace SyeLabs.Mmu

variable {H : Header} {al : Allocators} {U : Nat → Prop} {m m' m'' m₀ : Machine} {a c root : Word}
  {l l' l'' : List Word} {mem mem' : Memory} {b : Region} {r : Request} {i k n : Nat}

/-- The root table at `a`, and the tables in its slots `U`. -/
inductive TreeBlock (H : Header) (U : Nat → Prop) (mem : Memory) (a : Word) : Region → Prop
  | root : TreeBlock H U mem a (rootRegion a)
  | table {i : Nat} (hi : i < 4096) (hU : U i) (ht : IsTable H (l1 mem a i)) :
    TreeBlock H U mem a (tableRegion (tableOf (l1 mem a i)))

/-- A block of the heap that belongs to none of the trees. -/
structure Stray (H : Header) (U : Nat → Prop) (l : List Word) (m : Machine) (b : Region) :
    Prop where
  on_heap : (.heap, b) ∈ live m.trace
  unowned : ∀ a ∈ l, ¬TreeBlock H U m.mem a b

/-- The trees `l` before a step, and `l'` after it, leave the same blocks over. -/
def SameStrays (H : Header) (U : Nat → Prop) (l : List Word) (m : Machine) (l' : List Word)
    (m' : Machine) : Prop :=
  ∀ b, Stray H U l' m' b ↔ Stray H U l m b

theorem SameStrays.refl (l : List Word) (m : Machine) : SameStrays H U l m l m := fun _ => Iff.rfl

theorem SameStrays.trans (h : SameStrays H U l m l' m') (h' : SameStrays H U l' m' l'' m'') :
    SameStrays H U l m l'' m'' := fun b => (h' b).trans (h b)

theorem TreeBlock.congr (h : ∀ i < 4096, U i → l1 mem' a i = l1 mem a i)
    (hb : TreeBlock H U mem a b) : TreeBlock H U mem' a b := by
  cases hb with
  | root => exact .root
  | table hi hU ht =>
    rw [← h _ hi hU] at ht ⊢
    exact .table hi hU ht

theorem TreeBlock.mono {V : Nat → Prop} (hUV : ∀ i, U i → V i) (hb : TreeBlock H U mem a b) :
    TreeBlock H V mem a b := by
  cases hb with
  | root => exact .root
  | table hi hU ht => exact .table hi (hUV _ hU) ht

/-- The tree is on the heap. -/
theorem TreeBlock.on_heap (T : TablesOk H m a) (ha : (.heap, rootRegion a) ∈ live m.trace)
    (hb : TreeBlock H U m.mem a b) : (.heap, b) ∈ live m.trace := by
  cases hb with
  | root => exact ha
  | table hi _ ht => exact T.table_live _ hi ht

/-- Trees beside each other have no block in common. -/
theorem Beside.treeBlock (B : Beside H U a c m) (hb : TreeBlock H U m.mem a b) :
    ¬TreeBlock H U m.mem c b := by
  intro hb'
  cases hb with
  | root =>
    generalize hr : rootRegion a = r at hb'
    cases hb' with
    | root => exact B.ne (congrArg Region.base hr)
    | table _ _ _ => exact rootRegion_ne_tableRegion _ _ hr
  | table hi hU ht =>
    generalize hr : tableRegion _ = r at hb'
    cases hb' with
    | root => exact rootRegion_ne_tableRegion _ _ hr.symm
    | table hk hUk htk => exact B.alone _ hk hUk _ hi htk ht (congrArg Region.base hr).symm

theorem Stray.congr (h : Stray H U l m b) (hlive : (.heap, b) ∈ live m'.trace)
    (hentries : ∀ a ∈ l, ∀ i < 4096, U i → l1 m'.mem a i = l1 m.mem a i) :
    Stray H U l m' b := by
  refine ⟨hlive, fun a ha => mt (TreeBlock.congr fun i hi hU => ?_) (h.unowned a ha)⟩
  exact (hentries a ha i hi hU).symm

/-- The heap is as it was, and so are the entries. -/
theorem SameStrays.of_entries (hheap : ∀ b, (.heap, b) ∈ live m'.trace ↔ (.heap, b) ∈ live m.trace)
    (h : ∀ a ∈ l, ∀ i < 4096, U i → l1 m'.mem a i = l1 m.mem a i) : SameStrays H U l m l m' := by
  intro b
  constructor
  · intro hb
    exact hb.congr ((hheap b).mp hb.on_heap) fun a ha i hi hU => (h a ha i hi hU).symm
  · intro hb
    exact hb.congr ((hheap b).mpr hb.on_heap) h

/-- The entries of other trees are as they were. -/
theorem SameStrays.widen (h : SameStrays H U l m l m') (hsub : l ⊆ l')
    (hother : ∀ c ∈ l', c ∉ l → ∀ i < 4096, U i → l1 m'.mem c i = l1 m.mem c i) :
    SameStrays H U l' m l' m' := by
  intro b
  constructor
  · intro hb
    have hb' := (h b).mp ⟨hb.on_heap, fun a ha => hb.unowned a (hsub ha)⟩
    refine ⟨hb'.on_heap, fun c hc => ?_⟩
    by_cases hcl : c ∈ l
    · exact hb'.unowned c hcl
    · exact mt (TreeBlock.congr (hother c hc hcl)) (hb.unowned c hc)
  · intro hb
    have hb' := (h b).mpr ⟨hb.on_heap, fun a ha => hb.unowned a (hsub ha)⟩
    refine ⟨hb'.on_heap, fun c hc => ?_⟩
    by_cases hcl : c ∈ l
    · exact hb'.unowned c hcl
    · refine mt (TreeBlock.congr fun i hi hU => ?_) (hb.unowned c hc)
      exact (hother c hc hcl i hi hU).symm

/-- A block is taken before a step, and given back after it. -/
theorem SameStrays.around {r : Region} (h : SameStrays H U l m l m')
    (hnew : (.heap, r) ∉ live m₀.trace)
    (htaken : ∀ b, (.heap, b) ∈ live m.trace ↔ b = r ∨ (.heap, b) ∈ live m₀.trace)
    (hgiven : ∀ b, (.heap, b) ∈ live m''.trace ↔ (.heap, b) ∈ live m'.trace ∧ b ≠ r)
    (hbefore : ∀ a ∈ l, ∀ i < 4096, U i → l1 m.mem a i = l1 m₀.mem a i)
    (hafter : ∀ a ∈ l, ∀ i < 4096, U i → l1 m''.mem a i = l1 m'.mem a i) :
    SameStrays H U l m₀ l m'' := by
  intro b
  constructor
  · intro hb
    obtain ⟨hlive, hne⟩ := (hgiven b).mp hb.on_heap
    have hb' := (h b).mp (hb.congr hlive fun a ha i hi hU => (hafter a ha i hi hU).symm)
    exact hb'.congr (((htaken b).mp hb'.on_heap).resolve_left hne)
      fun a ha i hi hU => (hbefore a ha i hi hU).symm
  · intro hb
    have hb' := (h b).mpr (hb.congr ((htaken b).mpr (.inr hb.on_heap)) hbefore)
    refine hb'.congr ((hgiven b).mpr ⟨hb'.on_heap, ?_⟩) hafter
    rintro rfl
    exact hnew hb.on_heap

/-- A root table is given back whose slots hold no table. -/
theorem SameStrays.drop (B : BlocksOk (live m.trace)) (ha : (.heap, rootRegion a) ∈ live m.trace)
    (hempty : ∀ i < 4096, U i → ¬IsTable H (l1 m.mem a i)) :
    SameStrays H U (a :: l) m l { m with trace := .free .heap a :: m.trace } := by
  intro b
  constructor
  · rintro ⟨hlive, hunowned⟩
    obtain ⟨hb, hne⟩ := (B.mem_live_free ha).mp hlive
    refine ⟨hb, fun c hc hbc => ?_⟩
    rcases List.mem_cons.mp hc with rfl | hc
    · cases hbc with
      | root => exact hne rfl
      | table hi hU ht => exact hempty _ hi hU ht
    · exact hunowned c hc hbc
  · rintro ⟨hb, hunowned⟩
    refine ⟨(B.mem_live_free ha).mpr ⟨hb, fun h => ?_⟩,
      fun c hc => hunowned c (List.mem_cons_of_mem _ hc)⟩
    obtain rfl : b = rootRegion a := congrArg Prod.snd h
    exact hunowned a List.mem_cons_self .root

/-! ## Steps on one slot -/

theorem Shrinks.sameStrays (R : Shrinks H a i m m') (T : TablesOk H m a) (hi : i < 4096)
    (hU : U i) : SameStrays H U [a] m [a] m' := by
  intro b
  constructor
  · rintro ⟨hlive, hunowned⟩
    have hno := hunowned a List.mem_cons_self
    refine ⟨R.live_sublist.subset hlive, fun c hc hb => hno ?_⟩
    obtain rfl := List.mem_singleton.mp hc
    cases hb with
    | root => exact .root
    | @table k hk hUk ht =>
      have hkept : l1 m'.mem c k = l1 m.mem c k := by
        rcases eq_or_ne k i with rfl | hne
        · rcases R.fate with ⟨-, hsame | ⟨hnot, -⟩⟩ | ⟨-, -, htrace⟩
          · exact hsame
          · exact absurd ht hnot
          · rw [htrace, mem_live_free] at hlive
            exact absurd ⟨rfl, rfl⟩ hlive.2
        · exact (R.l1_eq T hi hk hne).symm
      rw [← hkept] at ht ⊢
      exact .table hk hUk ht
  · rintro ⟨hlive, hunowned⟩
    have hno := hunowned a List.mem_cons_self
    refine ⟨R.mem_live T hi hlive fun ht h => hno ?_, fun c hc hb => hno ?_⟩
    · obtain rfl : b = _ := congrArg Prod.snd h
      exact .table hi hU ht
    · obtain rfl := List.mem_singleton.mp hc
      cases hb with
      | root => exact .root
      | table hk hUk ht =>
        have hkept := (R.isTable T hi hk ht).1
        rw [hkept] at ht ⊢
        exact .table hk hUk ht

/-- A slot is given small pages. -/
theorem Extends.sameStrays (E : Extends H a (· = k) m m') (hgrown : Grown a k m m')
    (ht : IsTable H (l1 m'.mem a k)) (hk : k < 4096) (hU : U k) :
    SameStrays H U [a] m [a] m' := by
  intro b
  constructor
  · rintro ⟨hlive, hunowned⟩
    have hno := hunowned a List.mem_cons_self
    refine ⟨?_, fun c hc hb => hno ?_⟩
    · rcases hgrown with ⟨htrace, -⟩ | ⟨htrace, -⟩
      · rwa [htrace] at hlive
      · rw [htrace, live_alloc] at hlive
        refine (List.mem_cons.mp hlive).resolve_left fun h => hno ?_
        obtain rfl : b = _ := congrArg Prod.snd h
        exact .table hk hU ht
    · obtain rfl := List.mem_singleton.mp hc
      cases hb with
      | root => exact .root
      | @table i hi hUi hti =>
        have hkept : l1 m'.mem c i = l1 m.mem c i := by
          rcases eq_or_ne i k with rfl | hne
          · rcases hgrown with ⟨-, -, hsame⟩ | ⟨-, hzero⟩
            · exact hsame
            · exact absurd hzero hti.1
          · exact (E.touched.l1_eq E.tables hi hne).symm
        rw [← hkept] at hti ⊢
        exact .table hi hUi hti
  · rintro ⟨hlive, hunowned⟩
    have hno := hunowned a List.mem_cons_self
    refine ⟨E.live_sub hlive, fun c hc hb => hno ?_⟩
    obtain rfl := List.mem_singleton.mp hc
    cases hb with
    | root => exact .root
    | table hi hUi hti =>
      rcases E.own _ hi hti with ⟨hold, hsame⟩ | hnew
      · rw [hsame]
        exact .table hi hUi hold
      · exact absurd hlive hnew

/-! ## The calls -/

theorem create_mapping_sameStrays (T : TablesOk H m a) (ha : a ≠ 0) (R : r.Range)
    (hclear : r.Clear H m.mem a) (hsmall : ∀ k, r.slot k → ¬r.sect k)
    (hU : ∀ k, r.slot k → U k) :
    wp (create_mapping H al m a r.virt_base r.phys_base r.size r.nocache)
      (SameStrays H U [a] m [a]) (· = .noMemory) := by
  refine (create_mapping_slots R ha
    (fun k m' => MapInv H m a r k m' ∧ SameStrays H U [a] m [a] m') ?_
    ⟨MapInv.first T, SameStrays.refl _ _⟩).mono fun _ h => h.2
  rintro k m1 hk ⟨I, hbal⟩
  have hk4 := Request.slot_lt R hk
  have hlt := R.chunkLo_lt hk
  have hhi := r.chunkHi_le k
  have hdiv := Request.chunkLo_div hk
  have hsect := hsmall k hk
  have hbefore : l1 m.mem a k = l1 m1.mem a k :=
    I.ext.touched.l1_eq I.ext.tables hk4 fun h => lt_irrefl k h.2
  have hs : H.l1pte_is_sect (l1 m1.mem a k) = false ∨ l1 m1.mem a k = 0 := by
    rw [← hbefore]
    exact hclear k hk hsect
  refine (I.step R hclear hk).imp ?_
  obtain ⟨n, hn, heq⟩ := alloc_init_section_small H al m1 a k r.nocache hlt (r.chunkLo_dvd k)
    (r.chunkHi_dvd k) (mt Request.sect_iff.mp hsect)
  rw [heq]
  refine (alloc_init_pte_spec I.ext.tables hk4 hs (by omega) (by omega)).mono ?_
  rintro m2 ⟨E, ht, hgrown, -⟩ I'
  exact ⟨I', hbal.trans (E.sameStrays hgrown ht hk4 (hU k hk))⟩

theorem reset_root_pgtable_sameStrays (T : TablesOk H m a) (hn : n ≤ 4096) (hU : ∀ i < n, U i) :
    wp (reset_root_pgtable H n m a false) (SameStrays H U [a] m [a]) (fun _ => False) := by
  unfold reset_root_pgtable
  refine wp.bind (wp_forLoop (fun _ m' => TablesOk H m' a ∧ SameStrays H U [a] m [a] m') ?_
    ⟨T, SameStrays.refl _ _⟩) fun m' h => wp_pure.mpr h.2
  rintro k m1 hk ⟨T1, hbal⟩
  have hk4 : k < 4096 := lt_of_lt_of_le hk hn
  refine (resetEntry_spec T1 hk4).mono ?_
  rintro m2 ⟨R, -⟩
  exact ⟨R.tables T1 hk4, hbal.trans (R.sameStrays T1 hk4 (hU k hk))⟩

/-- A new root table, whose slots `U` are empty. -/
theorem NewTree.sameStrays (N : NewTree n m root m') (hT : ∀ c ∈ l, TablesOk H m c)
    (hempty : ∀ i < 4096, U i → l1 m'.mem root i = 0) : SameStrays H U l m (root :: l) m' := by
  have hblocks := N.blocks
  rw [N.trace] at hblocks
  have hlive : ∀ b, (.heap, b) ∈ live m'.trace ↔
      b = rootRegion root ∨ (.heap, b) ∈ live m.trace := by
    intro b
    rw [N.trace, live_alloc, List.mem_cons, Prod.mk.injEq, and_iff_right rfl]
  have hentries : ∀ c ∈ l, ∀ i < 4096, l1 m'.mem c i = l1 m.mem c i := by
    intro c hc i hi
    obtain ⟨pool, hpool⟩ := (hT c hc).root_live
    have hdisj := (List.pairwise_cons.mp hblocks.apart).1 _ hpool
    exact (l1_eq_of_eqOn (N.frame.eqOn hdisj.symm) i hi).symm
  intro b
  constructor
  · rintro ⟨hb, hunowned⟩
    refine ⟨((hlive b).mp hb).resolve_left fun h => ?_, fun c hc hbc => ?_⟩
    · exact hunowned root List.mem_cons_self (h ▸ .root)
    · refine hunowned c (List.mem_cons_of_mem _ hc) (hbc.congr fun i hi _ => ?_)
      exact hentries c hc i hi
  · rintro ⟨hb, hunowned⟩
    refine ⟨(hlive b).mpr (.inr hb), fun c hc hbc => ?_⟩
    rcases List.mem_cons.mp hc with rfl | hc
    · cases hbc with
      | root =>
        have hbase := Region.base_mem (r := rootRegion c) (show 0 < 16384 by decide)
        exact (List.pairwise_cons.mp hblocks.apart).1 _ hb _ hbase hbase
      | table hi hU ht => exact not_isTable_zero (hempty _ hi hU ▸ ht)
    · refine hunowned c hc (hbc.congr fun i hi _ => ?_)
      exact (hentries c hc i hi).symm

end SyeLabs.Mmu
