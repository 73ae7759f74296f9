import SyeLabs.Kernel.Regions
import SyeLabs.Kernel.Tenancy
import SyeLabs.Mmu.Strays

/-!
# Calls that leave nothing over

What a call takes from the heap is in the tree of the caller at its end, or has been given back.
The slots of the kernel area are another matter: nothing gives their tables back, so the image has
to lie in the user area.
-/

namespace SyeLabs.Kernel

open Mmu

variable {H : Header} {al : Allocators} {cfg : Config} {m m' m'' m₀ : Machine} {a f v root : Word}
  {parent child nr_pages : Word} {i j k n p q : Nat} {w w' w₀ : Work} {G F : List Word}
  {elf_img_info : ElfImage} {argv envp : Option (List ArgString)} {name : ProcName}

/-- The entry of the window. -/
def windowEntry (cfg : Config) (mem : Memory) (root : Word) : Word :=
  l1 mem root (l1pte_index cfg.FIXMAP_MAPPING)

/-- A call on the tree at `a` leaves no block over, and keeps the entry of the window. -/
structure Tidy (H : Header) (cfg : Config) (a : Word) (m m' : Machine) : Prop where
  sameStrays : SameStrays H cfg.OwnSlot [a] m [a] m'
  window : windowEntry cfg m'.mem a = windowEntry cfg m.mem a

theorem Tidy.refl (a : Word) (m : Machine) : Tidy H cfg a m m := ⟨SameStrays.refl _ _, rfl⟩

theorem Tidy.trans (h : Tidy H cfg a m m') (h' : Tidy H cfg a m' m'') : Tidy H cfg a m m'' :=
  ⟨h.sameStrays.trans h'.sameStrays, h'.window.trans h.window⟩

theorem mem_live_heap (h : onPool .heap m'.trace = onPool .heap m.trace) (b : Region) :
    (.heap, b) ∈ live m'.trace ↔ (.heap, b) ∈ live m.trace := by
  have hlive := congrArg live h
  rw [live_onPool, live_onPool] at hlive
  have hmem := Iff.of_eq (congrArg (fun l => (Pool.heap, b) ∈ l) hlive)
  simpa [List.mem_filter] using hmem

/-- The heap and the entries are as they were. -/
theorem Tidy.of_entries (hheap : onPool .heap m'.trace = onPool .heap m.trace)
    (h : ∀ i < 4096, l1 m'.mem a i = l1 m.mem a i) : Tidy H cfg a m m' := by
  refine ⟨SameStrays.of_entries (mem_live_heap hheap) fun c hc i hi _ => ?_, h _ (l1pte_index_lt _)⟩
  rw [List.mem_singleton.mp hc]
  exact h i hi

/-- A mapping in the user area, by small pages. -/
theorem create_mapping_tidy {r : Request} (hfix : cfg.FixmapOk) (T : TablesOk H m a) (ha : a ≠ 0)
    (R : r.Range) (hclear : r.Clear H m.mem a) (hsmall : ∀ k, r.slot k → ¬r.sect k)
    (huser : ∀ k, r.slot k → k < cfg.kernel) :
    wp (create_mapping H al m a r.virt_base r.phys_base r.size r.nocache) (Tidy H cfg a m)
      (· = .noMemory) := by
  refine ((create_mapping_sameStrays (U := cfg.OwnSlot) T ha R hclear hsmall
    fun k hk => .inl (huser k hk)).and (create_mapping_spec T ha R hclear)).mono ?_
  rintro m' ⟨hbal, M⟩
  refine ⟨hbal, (M.ext.touched.l1_eq M.ext.tables (l1pte_index_lt _) fun hs => ?_).symm⟩
  exact absurd (huser _ hs) (Nat.not_lt.mpr hfix.above)

/-! ## Pages -/

/-- The pages of a range are in the user area. -/
def InUserArea (cfg : Config) (v nr_pages : Word) : Prop :=
  ∀ i < nr_pages.toInt.toNat, l1pte_index (pageAt v i) < cfg.kernel

theorem InUserArea.unsectioned (h : InUserArea cfg v nr_pages) {mem : Memory}
    (hsmall : ∀ i < cfg.kernel, NoSect H mem root i) : Unsectioned H mem root v nr_pages :=
  fun i hi => hsmall _ (h i hi)

theorem allocatePage_tidy (hfix : cfg.FixmapOk) (hv : 4096 ∣ v.toNat) (T : Tenant H cfg G w)
    (hin : l1pte_index (pageAt v i) < cfg.kernel) :
    wp (allocatePage H al v i w) (fun w' => Tidy H cfg w.pcb.pgtable w.m w'.m)
      (· = .noMemory) := by
  have hv' := pageAt_dvd hv i
  have hs := T.noSect hin
  unfold allocatePage Machine.get_free_page
  cases hf : al.get_free_page w.m.trace with
  | none => exact wp_throw.mpr rfl
  | some f =>
    have F : Fresh (live w.m.trace) f PAGE_SIZE PAGE_SIZE := al.get_free_page_fresh hf
    have Q := Quiet.alloc T.tables.blocks F .frames
    have R : (Request.page (pageAt v i) f).Range := Request.page_range hv'
    have hslot : ∀ k, (Request.page (pageAt v i) f).slot k → k = l1pte_index (pageAt v i) :=
      fun k hk => (Request.page_slot hv').mp hk
    simp only [pure_bind]
    refine wp.bind (create_mapping_tidy (r := Request.page (pageAt v i) f) hfix
      (Q.tables T.tables) T.ne_zero R (fun k hk _ => hslot k hk ▸ hs)
      (fun k hk => Request.page_not_sect R hk) fun k hk => hslot k hk ▸ hin) ?_
    intro m' h
    have htaken : Tidy H cfg w.pcb.pgtable w.m
        { w.m with trace := .alloc .frames ⟨f, PAGE_SIZE⟩ :: w.m.trace } :=
      .of_entries (onPool_cons_of_ne _ Pool.noConfusion) fun _ _ => rfl
    exact wp_pure.mpr (htaken.trans h)

theorem allocate_page_tidy (hfix : cfg.FixmapOk) (hv : 4096 ∣ v.toNat) (T : Tenant H cfg G w)
    (hin : InUserArea cfg v nr_pages) :
    wp (allocate_page H al w v nr_pages)
      (fun w' => Furnished H cfg G w w' ∧ Tidy H cfg w.pcb.pgtable w.m w'.m) (· = .noMemory) := by
  refine wp_forLoop (fun _ w' => Furnished H cfg G w w' ∧ Tidy H cfg w.pcb.pgtable w.m w'.m) ?_
    ⟨Furnished.refl T, Tidy.refl _ _⟩
  rintro k w1 hk ⟨F, htidy⟩
  have hs := F.tenant.noSect (hin k hk)
  refine ((allocatePage_furnished hfix.kernel_le hv hs F.tenant).and
    (allocatePage_tidy hfix hv F.tenant (hin k hk))).mono ?_
  rintro w2 ⟨⟨⟨F', -⟩, -⟩, htidy'⟩
  rw [F.table] at htidy'
  exact ⟨F.trans F', htidy.trans htidy'⟩

/-- A range of pages in the user area. -/
def RangeInUserArea (cfg : Config) (range : Word × Word) : Prop :=
  4096 ∣ range.1.toNat ∧ InUserArea cfg range.1 range.2

theorem stack_inUserArea (hcfg : cfg.AreaOk) : RangeInUserArea cfg
    (cfg.args_base - pageCount cfg.PROC_STACK_SIZE * BitVec.ofNat 32 PAGE_SIZE,
      pageCount cfg.PROC_STACK_SIZE) := by
  have hstart := stack_toNat hcfg
  have hargs := hcfg.args
  have haligned := hcfg.args_aligned
  have hstack := hcfg.stack
  have hle := toInt_toNat_le (pageCount cfg.PROC_STACK_SIZE)
  have hv : 4096 ∣ (cfg.args_base -
      pageCount cfg.PROC_STACK_SIZE * BitVec.ofNat 32 PAGE_SIZE).toNat := by omega
  refine ⟨hv, fun i hi => ?_⟩
  dsimp only at hi ⊢
  rw [l1pte_index_eq, pageAt, BitVec.toNat_add, hstart, BitVec.toNat_ofNat, PAGE_SIZE]
  omega

theorem args_inUserArea (hcfg : cfg.AreaOk) : RangeInUserArea cfg (cfg.args_base, 1) := by
  have hargs := hcfg.args
  refine ⟨hcfg.args_aligned, fun i hi => ?_⟩
  obtain rfl : i = 0 := Nat.lt_one_iff.mp hi
  dsimp only
  rw [pageAt, Nat.zero_mul, BitVec.add_zero, l1pte_index_eq]
  omega

theorem allocateStack_tidy (hcfg : cfg.AreaOk) (T : Tenant H cfg G w)
    (htop : w.pcb.stack_top = cfg.args_base)
    (hcount : w.pcb.page_count = pageCount cfg.PROC_STACK_SIZE) :
    wp (allocateStack H al w)
      (fun w' => Furnished H cfg G w w' ∧ Tidy H cfg w.pcb.pgtable w.m w'.m) (· = .noMemory) := by
  obtain ⟨hv, hin⟩ := stack_inUserArea hcfg
  unfold allocateStack
  rw [htop, hcount]
  exact allocate_page_tidy hcfg.toFixmapOk hv T hin

theorem allocateRanges_tidy (hfix : cfg.FixmapOk) {ranges : List (Word × Word)}
    (T : Tenant H cfg G w) (hin : ∀ range ∈ ranges, RangeInUserArea cfg range) :
    wp (allocateRanges H al ranges w)
      (fun w' => Furnished H cfg G w w' ∧ Tidy H cfg w.pcb.pgtable w.m w'.m) (· = .noMemory) := by
  induction ranges generalizing w with
  | nil => exact wp_pure.mpr ⟨Furnished.refl T, Tidy.refl _ _⟩
  | cons range ranges ih =>
    obtain ⟨hv, hrange⟩ := hin range List.mem_cons_self
    rw [allocateRanges, List.foldlM_cons]
    refine wp.bind (allocate_page_tidy hfix hv T hrange) ?_
    rintro w1 ⟨F, htidy⟩
    refine (ih F.tenant fun r hr => hin r (List.mem_cons_of_mem _ hr)).mono ?_
    rintro w2 ⟨F', htidy'⟩
    rw [F.table] at htidy'
    exact ⟨F.trans F', htidy.trans htidy'⟩

/-- The image and the heap behind it are in the user area. -/
structure ElfImage.InUserArea (cfg : Config) (elf_img_info : ElfImage) : Prop where
  sections : Kernel.InUserArea cfg elf_img_info.e_entry elf_img_info.segment_page_count
  heap : Kernel.InUserArea cfg (heapBase cfg elf_img_info.segment_page_count)
    (pageCount cfg.HEAP_SIZE)

theorem LaidOut.inUserArea {pcb : Pcb} (L : LaidOut H al cfg elf_img_info w m pcb)
    (hcfg : cfg.AreaOk) (hentry : 4096 ∣ elf_img_info.e_entry.toNat)
    (hin : elf_img_info.InUserArea cfg) :
    ∀ range ∈ pcb.ranges cfg elf_img_info, RangeInUserArea cfg range := by
  have hheap : 4096 ∣ (heapBase cfg elf_img_info.segment_page_count).toNat := by
    rw [heapBase, BitVec.toNat_mul, BitVec.toNat_ofNat, PAGE_SIZE]
    omega
  rw [Pcb.ranges, L.stack_top, L.entry, L.heap_base]
  simp only [List.forall_mem_cons]
  exact ⟨stack_inUserArea hcfg, ⟨hentry, hin.sections⟩, ⟨hheap, hin.heap⟩, args_inUserArea hcfg,
    fun _ h => absurd h List.not_mem_nil⟩

theorem allocateImage_tidy (hcfg : cfg.AreaOk) (hentry : 4096 ∣ elf_img_info.e_entry.toNat)
    (hin : elf_img_info.InUserArea cfg) (T : Tenant H cfg G w)
    (htop : w.pcb.stack_top = cfg.args_base)
    (hcount : w.pcb.page_count = pageCount cfg.PROC_STACK_SIZE) :
    wp (allocateImage H al cfg w elf_img_info) (fun w' => Tidy H cfg w.pcb.pgtable w.m w'.m)
      (fun _ => True) := by
  refine (allocateImage_laidOut htop hcount).mono fun w' L => ?_
  obtain ⟨x, hx, hm, -⟩ := L.mapped
  rw [hm]
  exact ((allocateRanges_tidy hcfg.toFixmapOk T (L.inUserArea hcfg hentry hin)).of_ok hx).2

/-! ## The exchange of an image -/

theorem Work.releasePage_m (w : Work) (f : Word) : (w.releasePage f).m.mem = w.m.mem ∧
    onPool .heap (w.releasePage f).m.trace = onPool .heap w.m.trace := by
  rw [releasePage]
  dsimp only
  split
  · exact ⟨rfl, onPool_cons_of_ne _ Pool.noConfusion⟩
  · exact ⟨rfl, rfl⟩

/-- Frames go back, and nothing else. -/
theorem release_proc_pages_tidy (w : Work) : Tidy H cfg a w.m w.release_proc_pages.m := by
  have h : ∀ (l : List Word) (w : Work), (l.foldl Work.releasePage w).m.mem = w.m.mem ∧
      onPool .heap (l.foldl Work.releasePage w).m.trace = onPool .heap w.m.trace := by
    intro l
    induction l with
    | nil => exact fun _ => ⟨rfl, rfl⟩
    | cons f l ih =>
      intro w
      obtain ⟨hmem, hheap⟩ := w.releasePage_m f
      obtain ⟨hmem', hheap'⟩ := ih (w.releasePage f)
      exact ⟨hmem'.trans hmem, hheap'.trans hheap⟩
  obtain ⟨hmem, hheap⟩ := h w.pcb.page_list w
  exact .of_entries hheap fun i _ => congrArg (l1 · a i) hmem

theorem reset_root_pgtable_tidy (hfix : cfg.FixmapOk) (T : TablesOk H m a) :
    wp (reset_root_pgtable H cfg.kernel m a false) (Tidy H cfg a m) (fun _ => False) := by
  have hn := hfix.kernel_le
  refine ((reset_root_pgtable_sameStrays (U := cfg.OwnSlot) T hn fun _ => Or.inl).and
    (reset_root_pgtable_kernel T hn)).mono ?_
  rintro m' ⟨hbal, hkernel⟩
  exact ⟨hbal, (hkernel _ (l1pte_index_lt _) hfix.above).symm⟩

/-- The page of the arguments goes back; the image is in the tree. -/
theorem setup_proc_image_replace_tidy (hcfg : cfg.AreaOk) (T : Tenant H cfg G w)
    (hcur : w.m.current_pgtable = w.pcb.pgtable) (hentry : 4096 ∣ elf_img_info.e_entry.toNat)
    (hin : elf_img_info.InUserArea cfg) (hfit : Fits (pageStrings w.pcb.name argv envp)) :
    wp (setup_proc_image_replace H al cfg w elf_img_info (argv.getD []).length argv envp)
      (fun x => Tidy H cfg w.pcb.pgtable w.m x.2.m) (· = .noMemory) := by
  have hn := hcfg.kernel_le
  unfold setup_proc_image_replace
  refine wp.bind ((preserveArgs_spec T.tables.blocks hfit).and
    (preserveArgs_spares (G := G) T.tables.blocks hfit)) ?_
  rintro ⟨args, m1⟩ ⟨P, hspares1, htrace1⟩
  have S1 : Space H cfg G { w with m := m1 } :=
    T.toSpace.stays hn (P.quiet.tables T.tables) (P.quiet.stays T.tables) P.frames
  have hroot1 := (P.quiet.block _ T.root (show 16384 ≠ 4096 by decide)).1
  simp only [Nat.not_lt_zero, if_false]
  -- the old image goes
  refine wp.bind (((reset_root_pgtable_vacated hn S1 hroot1).and
    (reset_root_pgtable_tidy hcfg.toFixmapOk S1.tables)).weaken fun _ => False.elim) ?_
  rintro m2 ⟨D, h2⟩
  have h3 : Tidy H cfg w.pcb.pgtable m2 _ :=
    release_proc_pages_tidy { w with pcb := reset_process_stack cfg w.pcb, m := m2 }
  change Vacated H cfg G { w with m := m1 }
    (Work.release_proc_pages { w with pcb := reset_process_stack cfg w.pcb, m := m2 }) at D
  change Tidy H cfg w.pcb.pgtable m1 m2 at h2
  generalize Work.release_proc_pages { w with pcb := reset_process_stack cfg w.pcb, m := m2 } = w3
    at D h3
  have htable3 : w3.pcb.pgtable = w.pcb.pgtable := D.table
  have T3 := D.tenant (hspares1.rootLive T.image) hroot1
  have hcur3 : w3.m.current_pgtable = w3.pcb.pgtable :=
    (D.confined.current.trans P.quiet.current).trans (hcur.trans htable3.symm)
  -- the new one comes
  have hs3 : elf_img_info.Unsectioned H cfg w3.m.mem w3.pcb.pgtable :=
    ⟨hin.sections.unsectioned fun _ => T3.noSect, hin.heap.unsectioned fun _ => T3.noSect⟩
  have htop : w3.pcb.stack_top = cfg.args_base := by rw [D.pcb]; rfl
  have hcount : w3.pcb.page_count = pageCount cfg.PROC_STACK_SIZE := by rw [D.pcb]; rfl
  refine wp.bind (((allocateImage_spec hcfg hentry hs3 D.space htop hcount).and
    (allocateImage_furnished hcfg hentry hs3 T3 htop hcount)).and_ok
    (allocateImage_tidy hcfg hentry hin T3 htop hcount)) ?_
  rintro w4 ⟨⟨⟨A, hB⟩, F, -⟩, h4⟩
  have I4 := A.grows.intact rfl (D.intact rfl (⟨P.live, fun _ _ => rfl⟩ : Intact m1.mem _ _))
  have L4 := P.layout.move hfit fun k hk => (I4.eqOn _ (Region.mem_add hk (by decide))).symm
  have hcur4 := A.grows.current.trans (hcur3.trans A.same.pgtable.symm)
  rw [if_pos P.ne_zero]
  refine wp.bind ((postSetupImage_spares hcfg F.tenant hcur4 hB P.ne_zero P.inside I4.live hfit
    L4).weaken fun _ => False.elim) ?_
  rintro m5 ⟨-, -, hslots, htrace5⟩
  rw [htable3] at h4
  rw [F.table, htable3] at hslots
  have hmid := (h2.trans h3).trans h4
  have hbefore := P.quiet.entries T.tables
  have hblocks := P.quiet.blocks
  refine wp_pure.mpr ⟨hmid.sameStrays.around (r := ⟨args, PAGE_SIZE⟩) (fun hold => ?_) (fun b => ?_)
    (fun b => ?_) (fun c hc i hi _ => ?_) fun c hc i hi _ => ?_, ?_⟩
  · rw [htrace1] at hblocks
    have hbase := Region.base_mem (r := ⟨args, PAGE_SIZE⟩) (show 0 < 4096 by decide)
    exact (List.pairwise_cons.mp hblocks.apart).1 _ hold _ hbase hbase
  · rw [htrace1, live_alloc, List.mem_cons, Prod.mk.injEq, and_iff_right rfl]
  · have h := A.space.tables.blocks.mem_live_free (b := (.heap, b)) I4.live
    rw [htrace5, h, ne_eq, ne_eq, Prod.mk.injEq, and_iff_right rfl]
  · rw [List.mem_singleton.mp hc]
    exact (hbefore i hi).symm
  · rw [List.mem_singleton.mp hc]
    exact (hslots i hi).1.symm
  · exact ((hslots _ (l1pte_index_lt _)).1.symm.trans hmid.window).trans
      (hbefore _ (l1pte_index_lt _)).symm

/-! ## The first image -/

theorem rootImage_tidy (hcfg : cfg.RootOk) (T : Tenant H cfg G w) :
    wp (rootImage H al cfg w) (fun w' => Tidy H cfg w.pcb.pgtable w.m w'.m) (· = .noMemory) := by
  have F0 := Furnished.of_pcb T (reset_process_stack cfg w.pcb) rfl rfl
  unfold rootImage
  refine wp.bind (allocateStack_tidy hcfg.area F0.tenant rfl rfl) ?_
  rintro w1 ⟨F1, h1⟩
  have T1 := F1.tenant
  have htable := F1.table
  change w1.pcb.pgtable = w.pcb.pgtable at htable
  refine wp.bind (create_mapping_tidy (r := cfg.rootRequest) hcfg.area.toFixmapOk T1.tables
    T1.ne_zero hcfg.request.toRange (fun k hk _ => T1.noSect (hcfg.slot_lt hk)) hcfg.small
    fun k hk => hcfg.slot_lt hk) ?_
  intro m2 h2
  rw [htable] at h2
  exact wp_pure.mpr (h1.trans h2)

/-! ## The child of a fork -/

/-- A page of the child is made in a table that is there. -/
theorem NewPage.child_entries {m₁ : Machine} (N : NewPage H cfg m₀ parent child i j q f m m')
    (C : Pair H cfg m₀ parent child m) (hfix : cfg.FixmapOk) (hm : ∀ k < 4096,
      l1 m.mem child k = l1 m₁.mem child k) (hk : cfg.OwnSlot k) :
    l1 m'.mem child k = l1 m₁.mem child k := by
  have hn := hfix.kernel_le
  rcases hk with hk | rfl
  · rw [N.l1_eq k hk, hm k (lt_of_lt_of_le hk hn)]
  · have hlt := l1pte_index_lt cfg.FIXMAP_MAPPING
    rw [← hm _ hlt, ← C.child_entries _ hfix.above hlt, N.pair.child_entries _ hfix.above hlt]

section
variable (hfix : cfg.FixmapOk) (hne : parent ≠ w₀.pcb.pgtable) (P : Parent H cfg w₀.m parent)
include hfix hne P

/-- The window may be given a table; it is in the tree of the parent. -/
theorem duplicatePage_sameStrays (hi : i < cfg.kernel) (hj : j < 256)
    (hsmall : IsTable H (l1 w₀.m.mem parent i)) {t : Word}
    (I : InSlot H cfg w₀ parent i t j w) :
    wp (duplicatePage H al cfg i (tableOf (l1 w₀.m.mem parent i)) t j w)
      (fun w' => (∀ k < cfg.kernel, l1 w'.m.mem w₀.pcb.pgtable k = l1 w.m.mem w₀.pcb.pgtable k) ∧
        SameStrays H cfg.OwnSlot [parent, w₀.pcb.pgtable] w.m [parent, w₀.pcb.pgtable] w'.m)
      (· = .noMemory) := by
  obtain ⟨⟨F, D⟩, ht, rfl⟩ := I
  refine (duplicatePage_cases hfix hne P hi hj hsmall D ht).mono ?_
  rintro w' (⟨-, rfl⟩ | ⟨q, f, m2, N⟩)
  · exact ⟨fun _ _ => rfl, SameStrays.refl _ _⟩
  · have P1 := D.pair.alloc N.fresh
    have R : (Request.page cfg.FIXMAP_MAPPING f).Range := Request.page_range hfix.aligned
    have hslot : ∀ k, (Request.page cfg.FIXMAP_MAPPING f).slot k →
        k = l1pte_index cfg.FIXMAP_MAPPING := fun k hk => (Request.page_slot hfix.aligned).mp hk
    have hshown := wp.of_ok (create_mapping_sameStrays (U := cfg.OwnSlot)
      (r := Request.page cfg.FIXMAP_MAPPING f) P1.parent_tables P.ne_zero R
      (fun k hk _ => hslot k hk ▸ P1.window) (fun k hk => Request.page_not_sect R hk)
      fun k hk => .inr (hslot k hk)) N.shown
    have hother : ∀ k < 4096, l1 w.m.mem w₀.pcb.pgtable k = l1 m2.mem w₀.pcb.pgtable k :=
      fun k hk => N.mapped.ext.other_l1 P1.child_tables hne hk
    have htaken : SameStrays H cfg.OwnSlot [parent, w₀.pcb.pgtable] w.m [parent, w₀.pcb.pgtable]
        { w.m with trace := .alloc .frames ⟨f, PAGE_SIZE⟩ :: w.m.trace } :=
      .of_entries (mem_live_heap (onPool_cons_of_ne _ Pool.noConfusion)) fun _ _ _ _ _ => rfl
    refine ⟨N.newPage.l1_eq, (htaken.trans (hshown.widen (by simp) fun c hc hcl k hk _ => ?_)).trans
      (.of_entries (fun b => by rw [N.trace]) fun c hc k hk hU => ?_)⟩
    · obtain rfl := List.mem_singleton.mp ((List.mem_cons.mp hc).resolve_left fun h =>
        hcl (List.mem_singleton.mpr h))
      exact (hother k hk).symm
    · rcases List.mem_cons.mp hc with rfl | hc
      · exact (N.parent_slots k hk).1.symm
      · rw [List.mem_singleton.mp hc]
        exact N.newPage.child_entries D.pair hfix hother hU

/-- The pages of the slots below `i` have been copied; the slots of the child from `i` on are
empty, and no block is left over. -/
structure Progress (H : Header) (cfg : Config) (w₀ : Work) (parent : Word) (i : Nat) (w : Work) :
    Prop where
  copied : ∃ F, Copied H cfg w₀ parent (i * 256) F w
  empty : ∀ k, i ≤ k → k < cfg.kernel → l1 w.m.mem w₀.pcb.pgtable k = 0
  sameStrays : SameStrays H cfg.OwnSlot [parent, w₀.pcb.pgtable] w₀.m [parent, w₀.pcb.pgtable] w.m

/-- In slot `i` the first `j` pages have been copied; its table is at `t`. -/
structure SlotProgress (H : Header) (cfg : Config) (w₀ : Work) (parent : Word) (i : Nat) (t : Word)
    (j : Nat) (w : Work) : Prop where
  inSlot : InSlot H cfg w₀ parent i t j w
  empty : ∀ k, i + 1 ≤ k → k < cfg.kernel → l1 w.m.mem w₀.pcb.pgtable k = 0
  sameStrays : SameStrays H cfg.OwnSlot [parent, w₀.pcb.pgtable] w₀.m [parent, w₀.pcb.pgtable] w.m

omit P in
/-- The new table of slot `i` is in the tree of the child. -/
theorem Progress.withTable (I : Progress H cfg w₀ parent i w) (hi : i < cfg.kernel) {t : Word}
    (Fr : Fresh (live w.m.trace) t 1024 (2 ^ 10)) :
    SlotProgress H cfg w₀ parent i t 0
      { w with m := w.m.withTable H w₀.pcb.pgtable i t false } := by
  obtain ⟨⟨F, D⟩, hempty, hbal⟩ := I
  have hn := hfix.kernel_le
  have hi4 : i < 4096 := lt_of_lt_of_le hi hn
  have T := D.pair.child_tables
  have E := withTable_extends (H := H) (c := false) T Fr hi4
  have hentries : ∀ k < 4096,
      l1 (w.m.withTable H w₀.pcb.pgtable i t false).mem w₀.pcb.pgtable k = _ :=
    fun k hk => withTable_l1 T Fr hi4 hk
  obtain ⟨-, hthere, hof⟩ := D.inSlot hfix hne hi Fr
  have hgrown : Grown w₀.pcb.pgtable i w.m (w.m.withTable H w₀.pcb.pgtable i t false) :=
    .inr ⟨by rw [hof]; rfl, hempty i le_rfl hi⟩
  have hother := withTable_other (H := H) (c := false) T D.pair.parent_tables hne.symm Fr hi4
  constructor
  case inSlot => exact D.inSlot hfix hne hi Fr
  case empty =>
    intro k hk hlt
    rw [hentries k (lt_of_lt_of_le hlt hn), if_neg (by omega)]
    exact hempty k (by omega) hlt
  case sameStrays =>
    refine hbal.trans ((E.sameStrays hgrown hthere hi4 (.inl hi)).widen (by simp)
      fun c hc hcl k hk _ => ?_)
    obtain rfl := (List.mem_cons.mp hc).resolve_right hcl
    exact (hother k hk).1.symm

theorem SlotProgress.step (hi : i < cfg.kernel) (hj : j < 256)
    (hsmall : IsTable H (l1 w₀.m.mem parent i)) {t : Word}
    (I : SlotProgress H cfg w₀ parent i t j w) :
    wp (duplicatePage H al cfg i (tableOf (l1 w₀.m.mem parent i)) t j w)
      (SlotProgress H cfg w₀ parent i t (j + 1)) (· = .noMemory) := by
  refine ((duplicatePage_spec hfix hne P hi hj hsmall I.inSlot).and
    (duplicatePage_sameStrays hfix hne P hi hj hsmall I.inSlot)).mono ?_
  rintro w' ⟨I', hentries, hbal⟩
  refine ⟨I', fun k hk hlt => ?_, I.sameStrays.trans hbal⟩
  rw [hentries k hlt]
  exact I.empty k hk hlt

theorem duplicateSlot_progress (hi : i < cfg.kernel) (I : Progress H cfg w₀ parent i w) :
    wp (duplicateSlot H al cfg parent i w) (Progress H cfg w₀ parent (i + 1)) (· = .noMemory) := by
  obtain ⟨F, D⟩ := I.copied
  refine wp_duplicateSlot hfix hne P hi D (fun hz => ?_) (fun _ _ => rfl) fun t hsmall hmem => ?_
  · exact ⟨⟨F, D.skipSlot hz⟩, fun k hk => I.empty k (by omega), I.sameStrays⟩
  · refine wp.mono (wp_forLoop (SlotProgress H cfg w₀ parent i t)
      (fun j s hj I' => I'.step hfix hne P hi hj hsmall)
      (I.withTable hfix hne hi (al.memalign_fresh hmem))) fun w' I' =>
        ⟨?_, I'.empty, I'.sameStrays⟩
    rw [Nat.succ_mul]
    exact I'.inSlot.1

/-- The window is released, with its table. -/
theorem duplicate_user_space_sameStrays (C : Child H cfg w₀.m parent w₀.pcb.pgtable)
    (hwindow : windowEntry cfg w₀.m.mem parent = 0) :
    wp (duplicate_user_space H al cfg parent w₀)
      (fun w' => SameStrays H cfg.OwnSlot [parent, w₀.pcb.pgtable] w₀.m
          [parent, w₀.pcb.pgtable] w'.m ∧
        windowEntry cfg w'.m.mem parent = 0 ∧
        windowEntry cfg w'.m.mem w₀.pcb.pgtable = windowEntry cfg w₀.m.mem w₀.pcb.pgtable)
      (· = .noMemory) := by
  have hi := l1pte_index_lt cfg.FIXMAP_MAPPING
  have hj := l2pte_index_lt cfg.FIXMAP_MAPPING
  have hloop : wp (forLoop cfg.kernel (duplicateSlot H al cfg parent) w₀)
      (Progress H cfg w₀ parent cfg.kernel) (· = .noMemory) :=
    wp_forLoop (Progress H cfg w₀ parent)
      (fun _ _ hi I => duplicateSlot_progress hfix hne P hi I)
      ⟨⟨[], .first P C⟩, fun k _ hk => C.empty k hk, SameStrays.refl _ _⟩
  unfold duplicate_user_space
  refine wp.bind hloop ?_
  rintro w ⟨⟨F, D⟩, -, hbal⟩
  have T := D.pair.parent_tables
  have hthere := D.window (D.ne_nil P)
  rw [D.pair.current]
  refine wp.bind ((release_mapping_page (H := H) T P.ne_zero hfix.aligned
    hthere).weaken fun _ => False.elim) ?_
  intro m' R
  have hchild : ∀ k < 4096, l1 m'.mem w₀.pcb.pgtable k = l1 w.m.mem w₀.pcb.pgtable k :=
    fun k hk => (l1_eq_of_eqOn
      (R.toShrinks.other_root T hi D.pair.child_tables hne) k hk).symm
  refine wp_pure.mpr ⟨hbal.trans ((R.toShrinks.sameStrays T hi (.inr rfl)).widen (by simp)
    fun c hc hcl k hk _ => ?_), ?_, ?_⟩
  · obtain rfl := List.mem_singleton.mp ((List.mem_cons.mp hc).resolve_left fun h =>
      hcl (List.mem_singleton.mpr h))
    exact hchild k hk
  · -- no page of the slot but that of the window has ever been mapped
    have hgone : ¬IsTable H (l1 m'.mem parent (l1pte_index cfg.FIXMAP_MAPPING)) := by
      intro hkept
      obtain ⟨hl2, j, hj256, hne2⟩ := R.kept hkept
      rw [hl2 j hj256] at hne2
      split at hne2
      · exact hne2 rfl
      · next hout =>
        have hpage := page_l1 cfg.FIXMAP_MAPPING
        have hpage2 := page_l2 cfg.FIXMAP_MAPPING
        have hothers := D.pair.others (l1pte_index cfg.FIXMAP_MAPPING * 256 + j) (by omega)
          (by omega)
        rw [lookup_table hthere hj256, if_neg hne2] at hothers
        have hdiv : (l1pte_index cfg.FIXMAP_MAPPING * 256 + j) / 256 =
          l1pte_index cfg.FIXMAP_MAPPING := by omega
        rw [lookup, hdiv] at hothers
        rw [windowEntry] at hwindow
        rw [hwindow, if_pos rfl] at hothers
        cases hothers
    rcases R.fate with ⟨-, hsame | ⟨hnot, -⟩⟩ | ⟨-, hzero, -⟩
    · exact absurd (hsame ▸ hthere) hgone
    · exact absurd hthere hnot
    · exact hzero
  · exact (hchild _ hi).trans (D.pair.child_entries _ hfix.above hi).symm

end

end SyeLabs.Kernel
