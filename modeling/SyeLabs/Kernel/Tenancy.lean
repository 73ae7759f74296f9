import SyeLabs.Kernel.Exchange
import SyeLabs.Kernel.Offspring

/-!
# What a call does to one user space and spares in all others

The pages of a process are mapped to frames of its own, each to another one. Calls of the kernel
write to tables, to the heap, and to frames that they have just taken: the frames of all other
processes and the image of the kernel keep their contents.
-/

namespace SyeLabs.Kernel

open Mmu

variable {H : Header} {al : Allocators} {cfg : Config} {m m' m'' : Machine} {a f v root : Word}
  {nr_pages : Word} {i p : Nat} {w w' w'' : Work} {G : List Word} {mem mem' : Memory}
  {b : Pool × Region} {S : Nat → Prop}

/-! ## Blocks that are spared -/

/-- A block that no process but the owners of the frames `G` may write to. -/
def Foreign (G : List Word) (b : Pool × Region) : Prop :=
  b.1 = .image ∨ ∃ f ∈ G, b = (.frames, ⟨f, PAGE_SIZE⟩)

/-- The frames `G` and the image of the kernel stay live, with their contents. -/
def Spares (G : List Word) (m m' : Machine) : Prop :=
  ∀ b ∈ live m.trace, Foreign G b → Intact m.mem b m'

theorem Foreign.ne_heap (h : Foreign G b) : b.1 ≠ .heap := by
  rcases h with h | ⟨f, -, rfl⟩
  · rw [h]
    exact nofun
  · exact nofun

theorem foreign_frame (hf : f ∈ G) : Foreign G (.frames, ⟨f, PAGE_SIZE⟩) := .inr ⟨f, hf, rfl⟩

theorem not_foreign_frame (hf : f ∉ G) : ¬Foreign G (.frames, ⟨f, PAGE_SIZE⟩) := by
  rintro (h | ⟨g, hg, h⟩)
  · exact Pool.noConfusion h
  · obtain rfl : f = g := congrArg (fun b => b.2.base) h
    exact hf hg

theorem Spares.refl (m : Machine) : Spares G m m := fun _ hb _ => ⟨hb, fun _ _ => rfl⟩

theorem Spares.trans (h : Spares G m m') (h' : Spares G m' m'') : Spares G m m'' := by
  intro b hb hG
  have I := h b hb hG
  have I' := h' b I.live hG
  exact ⟨I'.live, I.eqOn.trans I'.eqOn⟩

/-- Nothing is written, and no block outside of the heap goes. -/
theorem Spares.of_mem (hmem : m'.mem = m.mem)
    (hlive : ∀ b ∈ live m.trace, Foreign G b → b ∈ live m'.trace) : Spares G m m' :=
  fun b hb hG => ⟨hlive b hb hG, by rw [hmem]; exact fun _ _ => rfl⟩

theorem Spares.alloc (pool : Pool) (r : Region) :
    Spares G m { m with trace := .alloc pool r :: m.trace } :=
  .of_mem rfl fun _ hb _ => List.mem_cons_of_mem _ hb

theorem Spares.free (p : Word) : Spares G m { m with trace := .free .heap p :: m.trace } :=
  .of_mem rfl fun _ hb hG => mem_live_free.mpr ⟨hb, fun h => hG.ne_heap h.1⟩

/-- A write to a block that is not foreign. -/
theorem Spares.write (B : BlocksOk (live m.trace)) {pool : Pool} {r : Region}
    (hr : (pool, r) ∈ live m.trace) (hne : ¬Foreign G (pool, r)) (hw : m.mem.EqOff mem' r) :
    Spares G m { m with mem := mem' } := by
  rintro ⟨pool', r'⟩ hb hG
  exact ⟨hb, hw.eqOn (B.disjoint hb hr fun h => hne (h ▸ hG))⟩

/-- A step on a tree whose root table is in the heap. -/
theorem Spares.of_extends (E : Extends H root S m m') (B : BlocksOk (live m.trace))
    (hroot : (.heap, rootRegion root) ∈ live m.trace) : Spares G m m' :=
  fun _ hb hG => ⟨E.live_sub hb, Extends.eqOn_data E B hroot hb hG.ne_heap⟩

theorem Spares.of_shrinks (R : Shrinks H root i m m') (T : TablesOk H m root) (hi : i < 4096)
    (hroot : (.heap, rootRegion root) ∈ live m.trace) : Spares G m m' := by
  rintro ⟨pool, r⟩ hb hG
  have hne := hG.ne_heap
  exact ⟨R.mem_live T hi hb fun _ h => hne (congrArg Prod.fst h),
    R.eqOn_live T hi hb (ne_of_pool_ne T.blocks hb hroot hne) fun _ h => hne (congrArg Prod.fst h)⟩

theorem Spares.newTree (N : NewTree p m root m') : Spares G m m' := by
  intro b hb hG
  have hblocks := N.blocks
  rw [N.trace] at hblocks
  refine ⟨by rw [N.trace]; exact List.mem_cons_of_mem _ hb, N.frame.eqOn ?_⟩
  exact ((List.pairwise_cons.mp hblocks.apart).1 b hb).symm

/-! ## A process in its pages -/

/-- The pages of the user area are mapped to different frames. -/
def Distinct (H : Header) (cfg : Config) (mem : Memory) (root : Word) : Prop :=
  ∀ p < cfg.kernel * 256, ∀ p' < cfg.kernel * 256, ∀ q,
    lookup H mem root p = some q → lookup H mem root p' = some q → p = p'

theorem Distinct.congr (h : Distinct H cfg mem root) (hS : SameSlots H cfg.kernel root mem mem') :
    Distinct H cfg mem' root := by
  intro p hp p' hp' q hq hq'
  rw [← hS.lookup_eq (by omega)] at hq hq'
  exact h p hp p' hp' q hq hq'

/-- The image of `root_proc` is a part of the image of the kernel. -/
def Config.RootLive (cfg : Config) (m : Machine) : Prop :=
  ∃ r, (.image, r) ∈ live m.trace ∧ ∀ q, cfg.InRootImage q → frameRegion q ⊆ r

theorem Spares.rootLive (h : Spares G m m') (hr : cfg.RootLive m) : cfg.RootLive m' := by
  obtain ⟨r, hlive, hsub⟩ := hr
  exact ⟨r, (h _ hlive (.inl rfl)).live, hsub⟩

/-- A process whose pages are mapped to different frames. -/
structure Tenant (H : Header) (cfg : Config) (G : List Word) (w : Work) : Prop
    extends Space H cfg G w where
  root : (.heap, rootRegion w.pcb.pgtable) ∈ live w.m.trace
  image : cfg.RootLive w.m
  distinct : Distinct H cfg w.m.mem w.pcb.pgtable

theorem Tenant.setPcb (T : Tenant H cfg G w) {pcb : Pcb} (htable : pcb.pgtable = w.pcb.pgtable)
    (hpages : pcb.page_list = w.pcb.page_list) : Tenant H cfg G { w with pcb } := by
  obtain ⟨S, hroot, himage, hdist⟩ := T
  rw [← htable] at hroot hdist
  exact ⟨S.setPcb htable hpages, hroot, himage, hdist⟩

/-- A frame that has been handed out is no part of the image. -/
theorem Config.RootLive.not_inRootImage {q : Nat} (hr : cfg.RootLive m)
    (B : BlocksOk (live m.trace)) (hq : (.frames, frameRegion q) ∈ live m.trace) :
    ¬cfg.InRootImage q := by
  intro himage
  obtain ⟨r, hlive, hsub⟩ := hr
  have hmem := Region.base_mem (r := frameRegion q) (show 0 < 4096 by decide)
  have hsame := B.eq_of_mem hlive hq (hsub q himage _ hmem) hmem
  exact Pool.noConfusion (congrArg Prod.fst hsame)

/-- The pages are mapped to frames of the process, and none to the image of `root_proc`. -/
def Secluded (H : Header) (cfg : Config) (mem : Memory) (pcb : Pcb) : Prop :=
  ∀ p < cfg.kernel * 256, ∀ q, lookup H mem pcb.pgtable p = some q → frameAt q ∈ pcb.page_list

theorem Secluded.congr {pcb : Pcb} (h : Secluded H cfg mem pcb)
    (hS : SameSlots H cfg.kernel pcb.pgtable mem mem') : Secluded H cfg mem' pcb := by
  intro p hp q hq
  rw [← hS.lookup_eq (by omega)] at hq
  exact h p hp q hq

/-- A frame that is new to the process is no frame of its pages. -/
theorem Tenant.new_frame (T : Tenant H cfg G w) (hv : p < cfg.kernel * 256)
    (hf : (.frames, ⟨f, PAGE_SIZE⟩) ∈ live m.trace) (hf4 : 4096 ∣ f.toNat)
    (hnew : f ∉ w.pcb.page_list) (hm : Spares G w.m m) (B : BlocksOk (live m.trace)) :
    lookup H w.m.mem w.pcb.pgtable p ≠ some (f.toNat / 4096) := by
  intro hq
  rcases T.maps p hv _ hq with hown | himage
  · rw [frameAt_div hf4] at hown
    exact hnew hown
  · refine (hm.rootLive T.image).not_inRootImage B ?_ himage
    rwa [frameRegion, frameAt_div hf4]

/-- Pages have been added to the user space. -/
structure Furnished (H : Header) (cfg : Config) (G : List Word) (w w' : Work) : Prop where
  tenant : Tenant H cfg G w'
  spares : Spares G w.m w'.m
  keeps : ∀ p < 2 ^ 20, (lookup H w.m.mem w.pcb.pgtable p).isSome →
    (lookup H w'.m.mem w.pcb.pgtable p).isSome
  noSect : ∀ i < 4096, NoSect H w.m.mem w.pcb.pgtable i → NoSect H w'.m.mem w.pcb.pgtable i
  secluded : Secluded H cfg w.m.mem w.pcb → Secluded H cfg w'.m.mem w'.pcb
  table : w'.pcb.pgtable = w.pcb.pgtable

theorem Furnished.refl (T : Tenant H cfg G w) : Furnished H cfg G w w :=
  ⟨T, Spares.refl _, fun _ _ h => h, fun _ _ h => h, fun h => h, rfl⟩

theorem Furnished.trans (F : Furnished H cfg G w w') (F' : Furnished H cfg G w' w'') :
    Furnished H cfg G w w'' := by
  obtain ⟨T, hspares, hkeeps, hsect, hsecl, htable⟩ := F'
  rw [F.table] at hkeeps hsect htable
  exact ⟨T, F.spares.trans hspares, fun p hp h => hkeeps p hp (F.keeps p hp h),
    fun i hi h => hsect i hi (F.noSect i hi h), fun h => hsecl (F.secluded h), htable⟩

theorem Furnished.of_pcb (T : Tenant H cfg G w) (pcb : Pcb) (htable : pcb.pgtable = w.pcb.pgtable)
    (hpages : pcb.page_list = w.pcb.page_list) : Furnished H cfg G w { w with pcb } := by
  refine ⟨T.setPcb htable hpages, Spares.refl _, fun _ _ h => h, fun _ _ h => h, fun h => ?_,
    htable⟩
  rw [Secluded, htable, hpages]
  exact h

theorem Furnished.unsectioned (F : Furnished H cfg G w w')
    (h : Unsectioned H w.m.mem w.pcb.pgtable v nr_pages) :
    Unsectioned H w'.m.mem w'.pcb.pgtable v nr_pages := by
  rw [F.table]
  exact fun i hi => F.noSect _ (l1pte_index_lt _) (h i hi)

/-! ## `allocate_page` -/

theorem allocatePage_furnished (hn : cfg.kernel ≤ 4096) (hv : 4096 ∣ v.toNat)
    (hs : NoSect H w.m.mem w.pcb.pgtable (l1pte_index (pageAt v i))) (T : Tenant H cfg G w) :
    wp (allocatePage H al v i w)
      (fun w' => (Furnished H cfg G w w' ∧
        (lookup H w'.m.mem w.pcb.pgtable ((pageAt v i).toNat / 4096)).isSome) ∧
          w'.pcb = { w.pcb with page_list := w'.pcb.page_list }) (· = .noMemory) := by
  have hv' := pageAt_dvd hv i
  unfold allocatePage Machine.get_free_page
  cases hf : al.get_free_page w.m.trace with
  | none => exact wp_throw.mpr rfl
  | some f =>
    have F : Fresh (live w.m.trace) f PAGE_SIZE PAGE_SIZE := al.get_free_page_fresh hf
    have Q := Quiet.alloc T.tables.blocks F .frames
    simp only [pure_bind]
    refine wp.bind (create_mapping_page hv' (Q.tables T.tables) T.ne_zero hs) ?_
    intro m' M
    have N := newFrame_of_mapped hn hv' T.toSpace F M
    have hroot : (.heap, rootRegion w.pcb.pgtable) ∈
        live (.alloc .frames ⟨f, PAGE_SIZE⟩ :: w.m.trace) := List.mem_cons_of_mem _ T.root
    have hspares : Spares G w.m m' :=
      (Spares.alloc .frames ⟨f, PAGE_SIZE⟩).trans (.of_extends M.ext Q.blocks hroot)
    have hlive : (.frames, ⟨f, PAGE_SIZE⟩) ∈ live m'.trace := M.ext.live_sub List.mem_cons_self
    have hnew : f ∉ w.pcb.page_list := fun h =>
      F.notMem (by decide) .frames (T.frames.mem_live.mpr (List.mem_append_left G h))
    have hold : ∀ p < cfg.kernel * 256, lookup H w.m.mem w.pcb.pgtable p ≠ some (f.toNat / 4096) :=
      fun p hp => T.new_frame hp hlive N.aligned hnew hspares N.space.tables.blocks
    have hdist : Distinct H cfg m'.mem w.pcb.pgtable := by
      intro p hp p' hp' q hq hq'
      have hpage := N.page p (by omega)
      have hpage' := N.page p' (by omega)
      change lookup H m'.mem w.pcb.pgtable p = _ at hpage
      change lookup H m'.mem w.pcb.pgtable p' = _ at hpage'
      rw [hq] at hpage
      rw [hq'] at hpage'
      split at hpage <;> split at hpage'
      · omega
      · exact absurd (hpage'.symm.trans hpage) (hold p' hp')
      · exact absurd (hpage.symm.trans hpage') (hold p hp)
      · exact T.distinct p hp p' hp' q hpage.symm hpage'.symm
    refine wp_pure.mpr ⟨⟨⟨⟨N.space, M.ext.live_sub hroot, hspares.rootLive T.image, hdist⟩, hspares,
      fun p hp h => ?_, N.grows.noSect, fun h p hp q hq => ?_, rfl⟩, ?_⟩, rfl⟩
    · rw [N.page p hp]
      split
      · rfl
      · exact h
    · have hpage := N.page p (by omega)
      change lookup H m'.mem w.pcb.pgtable p = _ at hpage hq
      rw [hq] at hpage
      split at hpage
      · rw [Option.some.inj hpage, frameAt_div N.aligned]
        exact List.mem_append_right _ List.mem_cons_self
      · exact List.mem_append_left _ (h p hp q hpage.symm)
    · rw [N.page _ (page_lt _), if_pos rfl]
      rfl

/-- The pages of a range, as far as they are in the user area or not, are mapped. -/
def MapsRange (H : Header) (mem : Memory) (root v nr_pages : Word) : Prop :=
  ∀ i < nr_pages.toInt.toNat, (lookup H mem root ((pageAt v i).toNat / 4096)).isSome

theorem Furnished.mapsRange (F : Furnished H cfg G w w')
    (h : MapsRange H w.m.mem w.pcb.pgtable v nr_pages) :
    MapsRange H w'.m.mem w'.pcb.pgtable v nr_pages := by
  rw [F.table]
  exact fun i hi => F.keeps _ (page_lt _) (h i hi)

theorem allocate_page_furnished (hn : cfg.kernel ≤ 4096) (hv : 4096 ∣ v.toNat)
    (T : Tenant H cfg G w) (hs : Unsectioned H w.m.mem w.pcb.pgtable v nr_pages) :
    wp (allocate_page H al w v nr_pages)
      (fun w' => (Furnished H cfg G w w' ∧ MapsRange H w'.m.mem w'.pcb.pgtable v nr_pages) ∧
        w'.pcb = { w.pcb with page_list := w'.pcb.page_list }) (· = .noMemory) := by
  refine (wp_forLoop (fun k w' => (Furnished H cfg G w w' ∧
    ∀ i < k, (lookup H w'.m.mem w.pcb.pgtable ((pageAt v i).toNat / 4096)).isSome) ∧
      w'.pcb = { w.pcb with page_list := w'.pcb.page_list }) ?_ ?_).mono ?_
  · rintro k w1 hk ⟨⟨F, hmapped⟩, hpcb⟩
    refine (allocatePage_furnished hn hv (F.unsectioned hs k hk) F.tenant).mono ?_
    rintro w2 ⟨⟨F', hpage⟩, hpcb'⟩
    rw [F.table] at hpage
    refine ⟨⟨F.trans F', fun i hi => ?_⟩, by rw [hpcb', hpcb]⟩
    rcases Nat.lt_succ_iff_lt_or_eq.mp hi with h | rfl
    · have hkeeps := F'.keeps _ (page_lt (pageAt v i))
      rw [F.table] at hkeeps
      exact hkeeps (hmapped i h)
    · exact hpage
  · exact ⟨⟨Furnished.refl T, fun i hi => absurd hi (Nat.not_lt_zero i)⟩, rfl⟩
  · rintro w' ⟨⟨F, hmapped⟩, hpcb⟩
    refine ⟨⟨F, ?_⟩, hpcb⟩
    rw [MapsRange, F.table]
    exact hmapped

/-! ## The pages of an image -/

theorem allocateStack_furnished (hcfg : cfg.AreaOk) (T : Tenant H cfg G w)
    (htop : w.pcb.stack_top = cfg.args_base)
    (hcount : w.pcb.page_count = pageCount cfg.PROC_STACK_SIZE) :
    wp (allocateStack H al w)
      (fun w' => Furnished H cfg G w w' ∧ w'.pcb = { w.pcb with page_list := w'.pcb.page_list })
      (· = .noMemory) := by
  have hstart := stack_toNat hcfg
  have hargs := hcfg.args
  have haligned := hcfg.args_aligned
  have hstack := hcfg.stack
  have hle := toInt_toNat_le (pageCount cfg.PROC_STACK_SIZE)
  unfold allocateStack
  rw [htop, hcount]
  refine (allocate_page_furnished hcfg.kernel_le (by omega) T fun i hi => T.noSect ?_).mono
    fun _ h => ⟨h.1.1, h.2⟩
  rw [l1pte_index_eq, pageAt, BitVec.toNat_add, hstart, BitVec.toNat_ofNat, PAGE_SIZE]
  omega

/-- The heap is mapped, and nothing of it is in use yet. -/
structure NewHeap (H : Header) (cfg : Config) (w : Work) : Prop where
  aligned : 4096 ∣ w.pcb.heap_base.toNat
  mapped : MapsRange H w.m.mem w.pcb.pgtable w.pcb.heap_base (pageCount cfg.HEAP_SIZE)
  pointer : w.pcb.heap_pointer = w.pcb.heap_base

theorem allocateImage_furnished (hcfg : cfg.AreaOk) {elf_img_info : ElfImage}
    (hentry : 4096 ∣ elf_img_info.e_entry.toNat)
    (hs : elf_img_info.Unsectioned H cfg w.m.mem w.pcb.pgtable) (T : Tenant H cfg G w)
    (htop : w.pcb.stack_top = cfg.args_base)
    (hcount : w.pcb.page_count = pageCount cfg.PROC_STACK_SIZE) :
    wp (allocateImage H al cfg w elf_img_info)
      (fun w' => Furnished H cfg G w w' ∧ NewHeap H cfg w') (· = .noMemory) := by
  have hn := hcfg.kernel_le
  have hheap : 4096 ∣ (heapBase cfg elf_img_info.segment_page_count).toNat := by
    rw [heapBase, BitVec.toNat_mul, BitVec.toNat_ofNat, PAGE_SIZE]
    omega
  have hargs : l1pte_index cfg.args_base < cfg.kernel := by
    have := hcfg.args
    rw [l1pte_index_eq]
    omega
  unfold allocateImage
  refine wp.bind (allocateStack_furnished hcfg T htop hcount) ?_
  rintro w1 ⟨F1, hpcb1⟩
  have hcount1 : w1.pcb.page_count = pageCount cfg.PROC_STACK_SIZE := by rw [hpcb1, hcount]
  -- the sections
  have F2 := F1.trans (Furnished.of_pcb F1.tenant { w1.pcb with
    bin_image_entry := elf_img_info.e_entry
    page_count := w1.pcb.page_count + elf_img_info.segment_page_count } rfl rfl)
  refine wp.bind (allocate_page_furnished hn hentry F2.tenant (F2.unsectioned hs.1)) ?_
  rintro w2 ⟨⟨F3, -⟩, hpcb2⟩
  have hheap_base : (w2.pcb.page_count + 1) * BitVec.ofNat 32 PAGE_SIZE =
      heapBase cfg elf_img_info.segment_page_count := by rw [hpcb2, hcount1, heapBase]
  -- the heap
  rw [hheap_base]
  have F4 := (F2.trans F3).trans (Furnished.of_pcb F3.tenant { w2.pcb with
    heap_base := heapBase cfg elf_img_info.segment_page_count
    heap_pointer := heapBase cfg elf_img_info.segment_page_count
    page_count := w2.pcb.page_count + pageCount cfg.HEAP_SIZE } rfl rfl)
  refine wp.bind (allocate_page_furnished hn hheap F4.tenant (F4.unsectioned hs.2)) ?_
  rintro w3 ⟨⟨F5, hmapped⟩, hpcb3⟩
  -- the arguments
  have F6 := F5.trans (Furnished.of_pcb F5.tenant { w3.pcb with
    page_count := w3.pcb.page_count + 1 } rfl rfl)
  have hone : Unsectioned H w3.m.mem w3.pcb.pgtable cfg.args_base 1 := by
    intro i hi
    obtain rfl : i = 0 := Nat.lt_one_iff.mp hi
    have hpage : pageAt cfg.args_base 0 = cfg.args_base := BitVec.add_zero _
    rw [hpage]
    exact F5.tenant.noSect hargs
  refine (allocate_page_furnished hn hcfg.args_aligned F6.tenant hone).mono ?_
  rintro w4 ⟨⟨F7, -⟩, hpcb4⟩
  refine ⟨(F4.trans F6).trans F7, by rw [hpcb4, hpcb3]; exact hheap, ?_, by rw [hpcb4, hpcb3]⟩
  rw [hpcb4, hpcb3]
  have hkept := F7.mapsRange hmapped
  rwa [hpcb4, hpcb3] at hkept

/-! ## The exchange of an image -/

section
variable {name : ProcName} {argv envp : Option (List ArgString)} {args : Word}

theorem preserveArgs_spares (B : BlocksOk (live m.trace)) (hf : Fits (pageStrings name argv envp)) :
    wp (preserveArgs al m name (argv.getD []).length argv envp)
      (fun x => Spares G m x.2 ∧ x.2.trace = .alloc .heap ⟨x.1, PAGE_SIZE⟩ :: m.trace)
      (· = .noMemory) := by
  have hguard : ¬((0 < (argv.getD []).length && argv.isNone) = true) := by
    cases argv with
    | none => exact Bool.false_ne_true
    | some l => simp
  unfold preserveArgs
  rw [if_neg hguard]
  unfold Machine.memalign
  cases ht : al.memalign m.trace PAGE_SIZE 8 with
  | none => exact wp_throw.mpr rfl
  | some t =>
    have F : Fresh (live m.trace) t PAGE_SIZE 8 := al.memalign_fresh ht
    obtain ⟨mem, hmem, hoff, -⟩ := preserve_layout m.mem t rfl hf
    have hheap : ¬Foreign G (.heap, ⟨t, PAGE_SIZE⟩) := fun h => h.ne_heap rfl
    have hw : Spares G { m with trace := .alloc .heap ⟨t, PAGE_SIZE⟩ :: m.trace } _ :=
      Spares.write (B.cons F (by decide) .heap) List.mem_cons_self hheap hoff
    simp only [pure_bind, hmem, if_neg F.ne_zero, wp_pure]
    exact ⟨(Spares.alloc .heap _).trans hw, trivial⟩

theorem reset_root_pgtable_spares (T : TablesOk H m a) (hn : cfg.kernel ≤ 4096)
    (hroot : (.heap, rootRegion a) ∈ live m.trace) :
    wp (reset_root_pgtable H cfg.kernel m a false) (Spares G m) (fun _ => False) := by
  unfold reset_root_pgtable
  refine wp.bind (wp_forLoop (fun _ m' => (TablesOk H m' a ∧
    (.heap, rootRegion a) ∈ live m'.trace) ∧ Spares G m m') ?_ ⟨⟨T, hroot⟩, Spares.refl m⟩)
    fun m' h => wp_pure.mpr h.2
  rintro k m1 hk ⟨⟨T1, hroot1⟩, hspares⟩
  have hk4 : k < 4096 := lt_of_lt_of_le hk hn
  refine (resetEntry_spec T1 hk4).mono ?_
  rintro m2 ⟨R, -⟩
  have hroot2 := R.mem_live T1 hk4 hroot1 fun _ h =>
    rootRegion_ne_tableRegion _ _ (congrArg Prod.snd h)
  exact ⟨⟨R.tables T1 hk4, hroot2⟩, hspares.trans (.of_shrinks R T1 hk4 hroot1)⟩

theorem GivenBack.spares (R : GivenBack G w w') : Spares G w.m w'.m := by
  refine .of_mem R.mem fun b hb hG => ?_
  rcases hG with himage | ⟨f, hf, rfl⟩
  · exact R.quiet.image b hb himage
  · exact R.frames.mem_live.mpr hf

/-- The old image is gone, with its tables and its frames; nothing foreign went with it. -/
structure Vacated (H : Header) (cfg : Config) (G : List Word) (w w' : Work) : Prop
    extends Cleared H cfg G w w' where
  spares : Spares G w.m w'.m
  empty : ∀ i < cfg.kernel, l1 w'.m.mem w'.pcb.pgtable i = 0

theorem reset_root_pgtable_vacated (hn : cfg.kernel ≤ 4096) (S : Space H cfg G w)
    (hroot : (.heap, rootRegion w.pcb.pgtable) ∈ live w.m.trace) :
    wp (reset_root_pgtable H cfg.kernel w.m w.pcb.pgtable false)
      (fun m => Vacated H cfg G w
        (Work.release_proc_pages { w with pcb := reset_process_stack cfg w.pcb, m := m }))
      (fun _ => False) := by
  have R := (reset_root_pgtable_spec (U := cfg.OwnSlot) S.tables hn fun _ => Or.inl).and
    (reset_root_pgtable_spares (G := G) S.tables hn hroot)
  refine ((reset_root_pgtable_cleared hn S).and R).mono ?_
  rintro m ⟨D, E, hspares⟩
  obtain ⟨GB, hpcb⟩ := release_proc_pages_spec
    (w := { w with pcb := reset_process_stack cfg w.pcb, m := m }) E.tables.blocks
    (S.frames.congr E.frames)
  refine ⟨D, hspares.trans GB.spares, ?_⟩
  rw [hpcb, GB.mem]
  exact E.empty

theorem postSetupImage_spares (hcfg : cfg.AreaOk) (T : Tenant H cfg G w)
    (hcur : w.m.current_pgtable = w.pcb.pgtable) (hB : Backed H w cfg.args_base)
    (hargs : args ≠ 0) (hend : args.toNat + PAGE_SIZE ≤ 2 ^ 32)
    (hlive : (.heap, ⟨args, PAGE_SIZE⟩) ∈ live w.m.trace)
    (hfit : Fits (pageStrings name argv envp))
    (L : Layout w.m.mem args (fun _ => args)
      (BitVec.ofNat 32 (argStrings name (argv.getD []).length argv).length)
      (pageStrings name argv envp) (pageStrings name argv envp).length) :
    wp (postSetupImage H cfg w.m args) (fun m' => Tenant H cfg G { w with m := m' } ∧
        Spares G w.m m' ∧ SameSlots H 4096 w.pcb.pgtable w.m.mem m'.mem ∧
        m'.trace = .free .heap args :: w.m.trace)
      (fun _ => False) := by
  obtain ⟨f, hf, hf4, hpage⟩ := hB
  have B := T.tables.blocks
  have hn := hcfg.kernel_le
  have hflive := T.frames.mem_live.mpr (List.mem_append_left G hf)
  have hc : (argStrings name (argv.getD []).length argv).length ≤
      (pageStrings name argv envp).length := by
    rw [pageStrings, List.length_append]
    exact Nat.le_add_right _ _
  have hheap : Pool.heap ≠ .frames := by decide
  have hpools : (Pool.frames, (⟨f, PAGE_SIZE⟩ : Region)) ≠ (.heap, ⟨args, PAGE_SIZE⟩) := fun h =>
    hheap (congrArg Prod.fst h).symm
  obtain ⟨mem, hmem, hoff, -⟩ := L.post_setup_image hfit hc hargs hend
    (T.mapsPage hcfg.args_aligned hf hf4 hpage) (B.disjoint hflive hlive hpools)
  have hG : f ∉ G := fun hG => (List.nodup_append.mp T.frames.nodup).2.2 f hf f hG rfl
  have Q := Quiet.write B hflive rfl hoff
  have Q' := Q.trans (Quiet.free Q.blocks hlive (by decide))
  have hspares := (Spares.write B hflive (not_foreign_frame hG) hoff).trans (Spares.free args)
  have hany : ((live w.m.trace).any fun b => b.1 = .heap && b.2.base = args) = true :=
    List.any_eq_true.mpr ⟨_, hlive, by simp⟩
  unfold postSetupImage
  rw [← hcur] at hmem
  rw [hmem]
  change wp (Machine.free { w.m with mem := mem } args) _ _
  rw [Machine.free, if_pos hany, wp_pure]
  have hslots := Q'.sameSlots T.tables
  have S := T.toSpace.stays hn (Q'.tables T.tables) (Q'.stays T.tables)
    (onPool_cons_of_ne _ hheap)
  refine ⟨⟨S, ?_, hspares.rootLive T.image, T.distinct.congr fun i hi => hslots i (by omega)⟩,
    hspares, hslots, rfl⟩
  exact (Q'.block _ T.root (show 16384 ≠ 4096 by decide)).1

theorem Vacated.table (D : Vacated H cfg G w w') : w'.pcb.pgtable = w.pcb.pgtable := by
  rw [D.pcb]
  rfl

/-- A process without a page. -/
theorem Vacated.tenant (D : Vacated H cfg G w w') (himage : cfg.RootLive w.m)
    (hroot : (.heap, rootRegion w.pcb.pgtable) ∈ live w.m.trace) : Tenant H cfg G w' := by
  refine ⟨D.space, ?_, D.spares.rootLive himage, fun p hp _ _ _ hq => ?_⟩
  · rw [D.table]
    exact D.confined.root _ hroot rfl
  · rw [lookup, D.empty _ (by omega), if_pos rfl] at hq
    cases hq

/-- A process with a new image; the frames `G` of the others are spared. -/
structure Moved (H : Header) (cfg : Config) (G : List Word) (w w' : Work) : Prop where
  tenant : Tenant H cfg G w'
  spares : Spares G w.m w'.m
  secluded : Secluded H cfg w'.m.mem w'.pcb
  heap : NewHeap H cfg w'

theorem setup_proc_image_replace_moved {elf_img_info : ElfImage} (hcfg : cfg.AreaOk)
    (T : Tenant H cfg G w) (hcur : w.m.current_pgtable = w.pcb.pgtable)
    (hentry : 4096 ∣ elf_img_info.e_entry.toNat)
    (hs : elf_img_info.Unsectioned H cfg w.m.mem w.pcb.pgtable)
    (hfit : Fits (pageStrings w.pcb.name argv envp)) :
    wp (setup_proc_image_replace H al cfg w elf_img_info (argv.getD []).length argv envp)
      (fun x => Moved H cfg G w x.2) (· = .noMemory) := by
  have hn := hcfg.kernel_le
  unfold setup_proc_image_replace
  refine wp.bind ((preserveArgs_spec T.tables.blocks hfit).and
    (preserveArgs_spares (G := G) T.tables.blocks hfit)) ?_
  rintro ⟨args, m1⟩ ⟨P, hspares1, -⟩
  have S1 : Space H cfg G { w with m := m1 } :=
    T.toSpace.stays hn (P.quiet.tables T.tables) (P.quiet.stays T.tables) P.frames
  have hroot1 := (P.quiet.block _ T.root (show 16384 ≠ 4096 by decide)).1
  simp only [Nat.not_lt_zero, if_false]
  -- the old image goes
  refine wp.bind ((reset_root_pgtable_vacated hn S1 hroot1).weaken fun _ => False.elim) ?_
  intro m2 D
  change Vacated H cfg G { w with m := m1 }
    (Work.release_proc_pages { w with pcb := reset_process_stack cfg w.pcb, m := m2 }) at D
  generalize Work.release_proc_pages { w with pcb := reset_process_stack cfg w.pcb, m := m2 } = w3
    at D
  have htable3 : w3.pcb.pgtable = w.pcb.pgtable := D.table
  have hspares3 := hspares1.trans D.spares
  have T3 := D.tenant (hspares1.rootLive T.image) hroot1
  have hcur3 : w3.m.current_pgtable = w3.pcb.pgtable :=
    (D.confined.current.trans P.quiet.current).trans (hcur.trans htable3.symm)
  have hs3 : elf_img_info.Unsectioned H cfg w3.m.mem w3.pcb.pgtable := by
    have hsect : ∀ i < 4096, NoSect H w.m.mem w.pcb.pgtable i →
        NoSect H w3.m.mem w.pcb.pgtable i := fun i hi h =>
      D.noSect i hi (h.congr (P.quiet.entries T.tables i hi).symm)
    rw [htable3]
    exact ⟨fun i hi => hsect _ (l1pte_index_lt _) (hs.1 i hi),
      fun i hi => hsect _ (l1pte_index_lt _) (hs.2 i hi)⟩
  -- the new one comes
  have htop : w3.pcb.stack_top = cfg.args_base := by rw [D.pcb]; rfl
  have hcount : w3.pcb.page_count = pageCount cfg.PROC_STACK_SIZE := by rw [D.pcb]; rfl
  refine wp.bind ((allocateImage_spec hcfg hentry hs3 D.space htop hcount).and
    (allocateImage_furnished hcfg hentry hs3 T3 htop hcount)) ?_
  rintro w4 ⟨⟨A, hB⟩, F, N⟩
  have I4 := A.grows.intact rfl (D.intact rfl (⟨P.live, fun _ _ => rfl⟩ : Intact m1.mem _ _))
  have L4 := P.layout.move hfit fun k hk => (I4.eqOn _ (Region.mem_add hk (by decide))).symm
  have hcur4 := A.grows.current.trans (hcur3.trans A.same.pgtable.symm)
  rw [if_pos P.ne_zero]
  refine wp.bind ((postSetupImage_spares hcfg F.tenant hcur4 hB P.ne_zero P.inside I4.live hfit
    L4).weaken fun _ => False.elim) ?_
  rintro m5 ⟨T5, hspares5, hslots, -⟩
  have hsecl3 : Secluded H cfg w3.m.mem w3.pcb := by
    intro p hp q hq
    rw [lookup, D.empty _ (by omega), if_pos rfl] at hq
    cases hq
  refine wp_pure.mpr ⟨T5, (hspares3.trans F.spares).trans hspares5, fun p hp q hq => ?_,
    N.aligned, fun i hi => ?_, N.pointer⟩
  · rw [← hslots.lookup_eq (by omega)] at hq
    exact F.secluded hsecl3 p hp q hq
  · have hlt := page_lt (pageAt w4.pcb.heap_base i)
    rw [← hslots.lookup_eq (by omega)]
    exact N.mapped i hi

end

/-! ## The first image -/

/-- The first image of a process; the frames `G` of the others are spared. -/
structure Settler (H : Header) (cfg : Config) (G : List Word) (w w' : Work) : Prop where
  tenant : Tenant H cfg G w'
  spares : Spares G w.m w'.m
  heap_base : w'.pcb.heap_base = w.pcb.heap_base
  heap_pointer : w'.pcb.heap_pointer = w.pcb.heap_pointer

theorem rootImage_settler (hcfg : cfg.RootOk) (T : Tenant H cfg G w)
    (hw : Secluded H cfg w.m.mem w.pcb) :
    wp (rootImage H al cfg w) (Settler H cfg G w) (· = .noMemory) := by
  have F0 := Furnished.of_pcb T (reset_process_stack cfg w.pcb) rfl rfl
  have hmore : wp (rootImage H al cfg w)
      (fun w' => Spares G w.m w'.m ∧ (.heap, rootRegion w'.pcb.pgtable) ∈ live w'.m.trace ∧
        Distinct H cfg w'.m.mem w'.pcb.pgtable ∧ w'.pcb.heap_base = w.pcb.heap_base ∧
          w'.pcb.heap_pointer = w.pcb.heap_pointer) (· = .noMemory) := by
    unfold rootImage
    refine wp.bind (allocateStack_furnished hcfg.area F0.tenant rfl rfl) ?_
    rintro w1 ⟨F1, hpcb⟩
    have F := F0.trans F1
    have T1 := F.tenant
    have hclear : cfg.rootRequest.Clear H w1.m.mem w1.pcb.pgtable := fun k hk _ =>
      (T1.small k (hcfg.slot_lt hk)).symm.imp_left And.right
    refine wp.bind (create_mapping_spec (r := cfg.rootRequest) T1.tables T1.ne_zero
      hcfg.request.toRange hclear) ?_
    intro m2 M
    have hpages := M.pages_ok hcfg.request
    have hn := hcfg.area.kernel_le
    -- the stack is in frames, and those are not in the image of the kernel
    have hstack : ∀ p < cfg.kernel * 256, ∀ q, lookup H w1.m.mem w1.pcb.pgtable p = some q →
        ¬cfg.InRootImage q := by
      intro p hp q hq
      refine T1.image.not_inRootImage T1.tables.blocks (T1.frames.mem_live.mpr ?_)
      exact List.mem_append_left G (F.secluded hw p hp q hq)
    refine wp_pure.mpr ⟨F.spares.trans (.of_extends M.ext T1.tables.blocks T1.root),
      M.ext.live_sub T1.root, fun p hp p' hp' q hq hq' => ?_, by rw [hpcb]; rfl, by rw [hpcb]; rfl⟩
    change lookup H m2.mem w1.pcb.pgtable p = some q at hq
    change lookup H m2.mem w1.pcb.pgtable p' = some q at hq'
    rw [hpages p (by omega)] at hq
    rw [hpages p' (by omega)] at hq'
    split at hq <;> split at hq'
    · have heq := Option.some.inj (hq.trans hq'.symm)
      omega
    · next hin _ =>
      exact absurd (Option.some.inj hq ▸ hcfg.inRootImage hin) (hstack p' hp' q hq')
    · next _ hin =>
      exact absurd (Option.some.inj hq' ▸ hcfg.inRootImage hin) (hstack p hp q hq)
    · exact T1.distinct p hp p' hp' q hq hq'
  refine ((rootImage_spec hcfg T.toSpace).and hmore).mono ?_
  rintro w' ⟨⟨E, -⟩, hspares, hroot, hdist, hbase, hpointer⟩
  exact ⟨⟨E.space, hroot, hspares.rootLive T.image, hdist⟩, hspares, hbase, hpointer⟩

/-! ## What a process reads -/

/-- The byte at an address of the user area, as the walk of the hardware finds it. -/
def privateByte (H : Header) (cfg : Config) (mem : Memory) (root v : Word) : Option Byte :=
  if l1pte_index v < cfg.kernel then (translate H root mem v).map mem else none

/-- Byte `v % 4096` of frame `q`. -/
def byteIn (q : Nat) (v : Word) : Word := BitVec.ofNat 32 (q * 4096 + v.toNat % 4096)

theorem byteIn_eq (q : Nat) (v : Word) :
    byteIn q v = frameAt q + BitVec.ofNat 32 (v.toNat % 4096) := BitVec.ofNat_add ..

/-- Bytes of different frames, or at different places, are different ones. -/
theorem byteIn_inj {q q' : Nat} {v v' : Word} (hq : q < 2 ^ 20) (hq' : q' < 2 ^ 20)
    (h : byteIn q v = byteIn q' v') : q = q' ∧ v.toNat % 4096 = v'.toNat % 4096 := by
  have heq := congrArg BitVec.toNat h
  rw [byteIn, byteIn, BitVec.toNat_ofNat, BitVec.toNat_ofNat] at heq
  omega

theorem byteIn_mem (q : Nat) (v : Word) : byteIn q v ∈ frameRegion q := by
  rw [byteIn_eq]
  exact Region.mem_add (Nat.mod_lt _ (by decide)) (by decide)

theorem privateByte_eq (hv : l1pte_index v < cfg.kernel) (mem : Memory) :
    privateByte H cfg mem root v =
      (lookup H mem root (v.toNat / 4096)).map fun q => mem (byteIn q v) := by
  rw [privateByte, if_pos hv, translate_eq, Option.map_map]
  rfl

/-- The user area is mapped as before, and the frames that it is mapped to are as before. -/
theorem privateByte_congr (hS : SameSlots H cfg.kernel root mem mem')
    (hdata : ∀ p < cfg.kernel * 256, ∀ q, lookup H mem root p = some q →
      mem.EqOn mem' (frameRegion q)) :
    privateByte H cfg mem' root = privateByte H cfg mem root := by
  funext v
  by_cases hv : l1pte_index v < cfg.kernel
  · have hpage : v.toNat / 4096 / 256 < cfg.kernel := by rwa [page_l1]
    rw [privateByte_eq hv, privateByte_eq hv, ← hS.lookup_eq hpage]
    cases hq : lookup H mem root (v.toNat / 4096) with
    | none => rfl
    | some q => exact congrArg some (hdata _ (by omega) q hq _ (byteIn_mem q v)).symm
  · rw [privateByte, privateByte, if_neg hv, if_neg hv]

/-! ## The child of a fork -/

/-- The child has pages of its own, and reads what the parent has read. Only blocks of the heap
are written to, and frames that are new. -/
structure Cloned (H : Header) (cfg : Config) (G : List Word) (parent : Word) (w w' : Work) :
    Prop where
  tenant : Tenant H cfg G w'
  spares : Spares G w.m w'.m
  secluded : Secluded H cfg w'.m.mem w'.pcb
  view : privateByte H cfg w'.m.mem w'.pcb.pgtable = privateByte H cfg w.m.mem parent
  pages : ∀ p < cfg.kernel * 256, (lookup H w'.m.mem w'.pcb.pgtable p).isSome =
    (lookup H w.m.mem parent p).isSome

theorem duplicate_user_space_cloned {parent : Word} (hfix : cfg.FixmapOk)
    (P : Parent H cfg w.m parent) (C : Child H cfg w.m parent w.pcb.pgtable)
    (hne : w.pcb.pgtable ≠ 0) (hpages : w.pcb.page_list = [])
    (hwindow : NoSect H w.m.mem w.pcb.pgtable (l1pte_index cfg.FIXMAP_MAPPING))
    (B : Beside H cfg.OwnSlot parent w.pcb.pgtable w.m) (L : FramesOk G w.m w.refcount)
    (himage : cfg.RootLive w.m) :
    wp (duplicate_user_space H al cfg parent w) (Cloned H cfg G parent w) (· = .noMemory) := by
  refine ((duplicate_user_space_offspring hfix P C hne hpages hwindow B L).and
    (duplicate_user_space_copied hfix C.ne_parent P C)).mono ?_
  rintro w' ⟨O, F, w1, D, -, ⟨R, -, -⟩, hw'⟩
  have hi := l1pte_index_lt cfg.FIXMAP_MAPPING
  have T := D.pair.parent_tables
  have hpcb := D.pcb
  rw [hpages, List.nil_append] at hpcb
  have htable : w'.pcb.pgtable = w.pcb.pgtable := by rw [hw', hpcb]
  have hlist : w'.pcb.page_list = F := by rw [hw', hpcb]
  have hlookup : ∀ p < cfg.kernel * 256,
      lookup H w1.m.mem w.pcb.pgtable p = lookup H w'.m.mem w.pcb.pgtable p := fun p hp =>
    (R.other_sameSlots T hi D.pair.child_tables C.ne_parent hfix.kernel_le
      D.pair.apart).lookup_eq (by omega)
  have hdata : ∀ pool r, (pool, r) ∈ live w1.m.trace → pool ≠ .heap → w1.m.mem.EqOn w'.m.mem r :=
    fun pool r hr hpool => R.eqOn_live T hi hr
      (ne_of_pool_ne T.blocks hr D.pair.parent_root hpool) fun _ h => hpool (congrArg Prod.fst h)
  have hspares : Spares G w.m w'.m := by
    rintro ⟨pool, r⟩ hb hG
    have hlive := D.pair.live_sub hb
    exact ⟨R.mem_live T hi hlive fun _ h => hG.ne_heap (congrArg Prod.fst h),
      (D.pair.data pool r hb hG.ne_heap).trans (hdata pool r hlive hG.ne_heap)⟩
  have hroot : (.heap, rootRegion w.pcb.pgtable) ∈ live w'.m.trace :=
    R.mem_live T hi D.pair.child_root fun _ h =>
      rootRegion_ne_tableRegion _ _ (congrArg Prod.snd h)
  have hisSome : ∀ p < cfg.kernel * 256, (lookup H w'.m.mem w'.pcb.pgtable p).isSome =
      (lookup H w.m.mem parent p).isSome := by
    intro p hp
    rw [htable, ← hlookup p hp]
    by_cases hmapped : (lookup H w.m.mem parent p).isSome
    · obtain ⟨f, -, hf⟩ := D.of_parent hmapped hp
      rw [hf, hmapped, Option.isSome_some]
    · rw [D.unmapped p hp (.inr (Option.not_isSome_iff_eq_none.mp hmapped)), Option.isSome_none]
      exact (Bool.eq_false_of_not_eq_true hmapped).symm
  refine ⟨⟨O.space, ?_, hspares.rootLive himage, ?_⟩, hspares, fun p hp q hq => ?_, ?_, hisSome⟩
  · rw [htable]
    exact hroot
  · intro p hp p' hp' q hq hq'
    rw [htable, ← hlookup p hp] at hq
    rw [htable, ← hlookup p' hp'] at hq'
    exact D.injective hp hp' hq hq'
  · rw [htable, ← hlookup p hp] at hq
    rw [hlist]
    exact (D.of_child hp hq).2
  · funext v
    by_cases hv : l1pte_index v < cfg.kernel
    · have hlt : v.toNat / 4096 < cfg.kernel * 256 := by
        have := page_l1 v
        omega
      rw [privateByte_eq hv, privateByte_eq hv]
      have hsome := hisSome _ hlt
      cases hq : lookup H w.m.mem parent (v.toNat / 4096) with
      | none =>
        rw [hq, Option.isSome_none, Option.isSome_eq_false_iff, Option.isNone_iff_eq_none] at hsome
        rw [hsome]
        rfl
      | some q =>
        rw [hq, Option.isSome_some] at hsome
        obtain ⟨q', hq'⟩ := Option.isSome_iff_exists.mp hsome
        rw [hq', Option.map_some, Option.map_some]
        rw [htable, ← hlookup _ hlt] at hq'
        have hmem := (D.frames _ (D.of_child hlt hq').2).2.1
        refine congrArg some ?_
        rw [← hdata .frames _ hmem nofun _ (byteIn_mem q' v), byteIn_eq, byteIn_eq]
        exact D.contents _ hlt q q' hq hq' _ (Nat.mod_lt _ (by decide))
    · rw [privateByte, privateByte, if_neg hv, if_neg hv]

end SyeLabs.Kernel
