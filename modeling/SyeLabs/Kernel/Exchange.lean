import SyeLabs.Kernel.Frames
import SyeLabs.Kernel.Relocation

/-!
# Exchanging the image of a process

`setup_proc_image_replace` empties the user area, gives the frames back, and maps new ones. If the
arguments fit into their page and the image meets no section of the kernel area, nothing is written
but the tables of the process, the page in the heap, and the new frame of the arguments.
-/

namespace SyeLabs.Kernel

open Mmu

variable {H : Header} {al : Allocators} {cfg : Config} {m m' : Machine} {args f : Word}
  {w w' : Work} {G : List Word} {name : ProcName} {argv envp : Option (List ArgString)}
  {elf_img_info : ElfImage}

/-- The places that the configuration sets are in the user area. -/
structure Config.AreaOk (cfg : Config) : Prop extends cfg.FixmapOk where
  args_aligned : 4096 ∣ cfg.args_base.toNat
  args : cfg.args_base.toNat + 4096 ≤ cfg.kernel * 2 ^ 20
  stack : (pageCount cfg.PROC_STACK_SIZE).toNat * 4096 ≤ cfg.args_base.toNat

/-- `heap_base`, behind as many pages as the stack and the image have. -/
def heapBase (cfg : Config) (segment_page_count : Word) : Word :=
  (pageCount cfg.PROC_STACK_SIZE + segment_page_count + 1) * BitVec.ofNat 32 PAGE_SIZE

/-- No page of the image or the heap lies in a slot that holds a section. -/
def ElfImage.Unsectioned (H : Header) (cfg : Config) (elf_img_info : ElfImage) (mem : Memory)
    (root : Word) : Prop :=
  Kernel.Unsectioned H mem root elf_img_info.e_entry elf_img_info.segment_page_count ∧
    Kernel.Unsectioned H mem root (heapBase cfg elf_img_info.segment_page_count)
      (pageCount cfg.HEAP_SIZE)

/-! ## The pages of the new image -/

/-- Other fields of the PCB do not matter. -/
theorem Space.setPcb (S : Space H cfg G w) {pcb : Pcb} (htable : pcb.pgtable = w.pcb.pgtable)
    (hpages : pcb.page_list = w.pcb.page_list) : Space H cfg G { w with pcb } := by
  obtain ⟨T, M, L⟩ := S
  rw [← htable] at T M
  rw [← hpages] at M L
  exact ⟨T, M, L⟩

theorem toInt_toNat_le (x : Word) : x.toInt.toNat ≤ x.toNat := by
  rw [BitVec.toInt_eq_toNat_cond]
  split <;> omega

theorem stack_toNat (hcfg : cfg.AreaOk) :
    (cfg.args_base - pageCount cfg.PROC_STACK_SIZE * BitVec.ofNat 32 PAGE_SIZE).toNat =
      cfg.args_base.toNat - (pageCount cfg.PROC_STACK_SIZE).toNat * 4096 := by
  have hlt := cfg.args_base.isLt
  have hstack := hcfg.stack
  have hsize : (pageCount cfg.PROC_STACK_SIZE * BitVec.ofNat 32 PAGE_SIZE).toNat =
      (pageCount cfg.PROC_STACK_SIZE).toNat * 4096 := by
    rw [BitVec.toNat_mul, BitVec.toNat_ofNat, PAGE_SIZE]
    exact Nat.mod_eq_of_lt (by omega)
  rw [BitVec.toNat_sub, hsize]
  omega

/-- The stack ends where the arguments begin, in the user area. -/
theorem allocateStack_spec (hcfg : cfg.AreaOk) (S : Space H cfg G w)
    (htop : w.pcb.stack_top = cfg.args_base)
    (hcount : w.pcb.page_count = pageCount cfg.PROC_STACK_SIZE) :
    wp (allocateStack H al w) (Allocated H cfg G w) (· = .noMemory) := by
  have hstart := stack_toNat hcfg
  have hargs := hcfg.args
  have haligned := hcfg.args_aligned
  have hstack := hcfg.stack
  have hle := toInt_toNat_le (pageCount cfg.PROC_STACK_SIZE)
  unfold allocateStack
  rw [htop, hcount]
  refine allocate_page_spec hcfg.kernel_le (by omega) S fun i hi => S.noSect ?_
  rw [l1pte_index_eq, pageAt, BitVec.toNat_add, hstart, BitVec.toNat_ofNat, PAGE_SIZE]
  omega

/-- The fields that say which process it is. -/
structure SameProcess (pcb pcb' : Pcb) : Prop where
  pid : pcb'.pid = pcb.pid
  pgtable : pcb'.pgtable = pcb.pgtable
  parent : pcb'.parent = pcb.parent
  state : pcb'.state = pcb.state

theorem SameProcess.trans {pcb pcb' pcb'' : Pcb} (h : SameProcess pcb pcb')
    (h' : SameProcess pcb' pcb'') : SameProcess pcb pcb'' :=
  ⟨h'.pid.trans h.pid, h'.pgtable.trans h.pgtable, h'.parent.trans h.parent,
    h'.state.trans h.state⟩

/-- The user area has grown, and fields of the PCB may have changed. -/
structure Rebuilt (H : Header) (cfg : Config) (G : List Word) (w w' : Work) : Prop where
  space : Space H cfg G w'
  grows : Grows H cfg w.pcb.pgtable w.m w'.m
  same : SameProcess w.pcb w'.pcb

theorem Allocated.rebuilt (A : Allocated H cfg G w w') : Rebuilt H cfg G w w' := by
  obtain ⟨F, hF⟩ := A.pcb
  exact ⟨A.space, A.grows, by rw [hF]; exact ⟨rfl, rfl, rfl, rfl⟩⟩

theorem Rebuilt.trans {w'' : Work} (R : Rebuilt H cfg G w w') (R' : Rebuilt H cfg G w' w'') :
    Rebuilt H cfg G w w'' := by
  have hgrows := R'.grows
  rw [R.same.pgtable] at hgrows
  exact ⟨R'.space, R.grows.trans hgrows, R.same.trans R'.same⟩

theorem Rebuilt.of_pcb (S : Space H cfg G w) (pcb : Pcb) (hpages : pcb.page_list = w.pcb.page_list)
    (h : SameProcess w.pcb pcb) : Rebuilt H cfg G w { w with pcb } :=
  ⟨S.setPcb h.pgtable hpages, Grows.refl S.tables, h⟩

theorem Rebuilt.unsectioned (R : Rebuilt H cfg G w w') {v nr_pages : Word}
    (h : Unsectioned H w.m.mem w.pcb.pgtable v nr_pages) :
    Unsectioned H w'.m.mem w'.pcb.pgtable v nr_pages := by
  rw [R.same.pgtable]
  exact fun i hi => R.grows.noSect _ (l1pte_index_lt _) (h i hi)

/-- The page at `v` is mapped to a frame of the process. -/
def Backed (H : Header) (w : Work) (v : Word) : Prop :=
  ∃ f ∈ w.pcb.page_list, 4096 ∣ f.toNat ∧
    lookup H w.m.mem w.pcb.pgtable (v.toNat / 4096) = some (f.toNat / 4096)

theorem allocateImage_spec (hcfg : cfg.AreaOk) (hentry : 4096 ∣ elf_img_info.e_entry.toNat)
    (hs : elf_img_info.Unsectioned H cfg w.m.mem w.pcb.pgtable) (S : Space H cfg G w)
    (htop : w.pcb.stack_top = cfg.args_base)
    (hcount : w.pcb.page_count = pageCount cfg.PROC_STACK_SIZE) :
    wp (allocateImage H al cfg w elf_img_info)
      (fun w' => Rebuilt H cfg G w w' ∧ Backed H w' cfg.args_base) (· = .noMemory) := by
  have hn := hcfg.kernel_le
  have hheap : 4096 ∣ (heapBase cfg elf_img_info.segment_page_count).toNat := by
    rw [heapBase, BitVec.toNat_mul, BitVec.toNat_ofNat, PAGE_SIZE]
    omega
  have hargs : l1pte_index cfg.args_base < cfg.kernel := by
    have := hcfg.args
    rw [l1pte_index_eq]
    omega
  unfold allocateImage
  refine wp.bind (allocateStack_spec hcfg S htop hcount) ?_
  intro w1 A1
  obtain ⟨F1, hpcb1⟩ := A1.pcb
  have hcount1 : w1.pcb.page_count = pageCount cfg.PROC_STACK_SIZE := by rw [hpcb1, hcount]
  -- the sections
  have R1 := A1.rebuilt.trans (Rebuilt.of_pcb A1.space { w1.pcb with
    bin_image_entry := elf_img_info.e_entry
    page_count := w1.pcb.page_count + elf_img_info.segment_page_count } rfl ⟨rfl, rfl, rfl, rfl⟩)
  refine wp.bind (allocate_page_spec hn hentry R1.space (R1.unsectioned hs.1)) ?_
  intro w2 A2
  obtain ⟨F2, hpcb2⟩ := A2.pcb
  have hheap_base : (w2.pcb.page_count + 1) * BitVec.ofNat 32 PAGE_SIZE =
      heapBase cfg elf_img_info.segment_page_count := by rw [hpcb2, hcount1, heapBase]
  -- the heap
  rw [hheap_base]
  have R2 := (R1.trans A2.rebuilt).trans (Rebuilt.of_pcb A2.space { w2.pcb with
    heap_base := heapBase cfg elf_img_info.segment_page_count
    heap_pointer := heapBase cfg elf_img_info.segment_page_count
    page_count := w2.pcb.page_count + pageCount cfg.HEAP_SIZE } rfl ⟨rfl, rfl, rfl, rfl⟩)
  refine wp.bind (allocate_page_spec hn hheap R2.space (R2.unsectioned hs.2)) ?_
  intro w3 A3
  -- the arguments
  have R3 := (R2.trans A3.rebuilt).trans (Rebuilt.of_pcb A3.space { w3.pcb with
    page_count := w3.pcb.page_count + 1 } rfl ⟨rfl, rfl, rfl, rfl⟩)
  refine (allocate_page_one hn hcfg.args_aligned R3.space (R3.space.noSect hargs)).mono ?_
  rintro w4 ⟨f, N⟩
  refine ⟨R3.trans N.allocated.rebuilt, ?_⟩
  have hpage := N.page (cfg.args_base.toNat / 4096) (by omega)
  rw [if_pos rfl] at hpage
  rw [Backed, N.pcb]
  exact ⟨f, List.mem_append_right _ List.mem_cons_self, N.aligned, hpage⟩

/-! ## The page of arguments in the heap -/

/-- Everything that the page of arguments has to hold. -/
def pageStrings (name : ProcName) (argv envp : Option (List ArgString)) : List (List Byte) :=
  argStrings name (argv.getD []).length argv ++ envStrings envp

/-- The page is in the heap, complete, and nothing else has changed. -/
structure PreservedPage (name : ProcName) (argv envp : Option (List ArgString)) (m : Machine)
    (args : Word) (m' : Machine) : Prop where
  ne_zero : args ≠ 0
  inside : args.toNat + PAGE_SIZE ≤ 2 ^ 32
  quiet : Quiet m m'
  live : (.heap, ⟨args, PAGE_SIZE⟩) ∈ live m'.trace
  frames : onPool .frames m'.trace = onPool .frames m.trace
  layout : Layout m'.mem args (fun _ => args)
    (BitVec.ofNat 32 (argStrings name (argv.getD []).length argv).length)
    (pageStrings name argv envp) (pageStrings name argv envp).length

theorem preserveArgs_spec (B : BlocksOk (live m.trace)) (hf : Fits (pageStrings name argv envp)) :
    wp (preserveArgs al m name (argv.getD []).length argv envp)
      (fun x => PreservedPage name argv envp m x.1 x.2) (· = .noMemory) := by
  have hguard : ¬((0 < (argv.getD []).length && argv.isNone) = true) := by
    cases argv with
    | none => exact Bool.false_ne_true
    | some l => simp
  unfold preserveArgs
  rw [if_neg hguard]
  unfold Machine.memalign
  cases ht : al.memalign m.trace PAGE_SIZE 8 with
  | none => exact wp_throw.mpr rfl
  | some t =>
    have F : Fresh (live m.trace) t PAGE_SIZE 8 := al.memalign_fresh ht
    have Q := Quiet.alloc B F .heap
    obtain ⟨mem, hmem, hoff, L⟩ := preserve_layout m.mem t rfl hf
    have hlive : (.heap, ⟨t, PAGE_SIZE⟩) ∈ live (.alloc .heap ⟨t, PAGE_SIZE⟩ :: m.trace) :=
      List.mem_cons_self
    have Q' := Quiet.write (m := { m with trace := .alloc .heap ⟨t, PAGE_SIZE⟩ :: m.trace })
      Q.blocks hlive rfl hoff
    simp only [pure_bind, hmem, if_neg F.ne_zero, wp_pure]
    exact ⟨F.ne_zero, F.inside, Q.trans Q', hlive,
      onPool_cons_of_ne _ (show Pool.heap ≠ .frames by decide), L⟩

/-! ## The page of arguments in the user area -/

/-- A page that is mapped to a frame stays so, whatever is written to the frame. -/
theorem Space.mapsPage (S : Space H cfg G w) {v : Word} (hv : 4096 ∣ v.toNat)
    (hf : f ∈ w.pcb.page_list) (hf4 : 4096 ∣ f.toNat)
    (hpage : lookup H w.m.mem w.pcb.pgtable (v.toNat / 4096) = some (f.toNat / 4096)) :
    MapsPage (translate H w.pcb.pgtable) w.m.mem v f := by
  have hlive := S.frames.mem_live.mpr (List.mem_append_left G hf)
  intro m' hoff k hk
  rw [translate_write S.tables hlive rfl hoff hv hpage hk, frameAt_div hf4]

theorem postSetupImage_spec (hcfg : cfg.AreaOk) (S : Space H cfg G w)
    (hcur : w.m.current_pgtable = w.pcb.pgtable) (hB : Backed H w cfg.args_base)
    (hargs : args ≠ 0) (hend : args.toNat + PAGE_SIZE ≤ 2 ^ 32)
    (hlive : (.heap, ⟨args, PAGE_SIZE⟩) ∈ live w.m.trace)
    (hfit : Fits (pageStrings name argv envp))
    (L : Layout w.m.mem args (fun _ => args)
      (BitVec.ofNat 32 (argStrings name (argv.getD []).length argv).length)
      (pageStrings name argv envp) (pageStrings name argv envp).length) :
    wp (postSetupImage H cfg w.m args)
      (fun m' => Quiet w.m m' ∧ onPool .frames m'.trace = onPool .frames w.m.trace)
      (fun _ => False) := by
  obtain ⟨f, hf, hf4, hpage⟩ := hB
  have B := S.tables.blocks
  have hflive := S.frames.mem_live.mpr (List.mem_append_left G hf)
  have hc : (argStrings name (argv.getD []).length argv).length ≤
      (pageStrings name argv envp).length := by
    rw [pageStrings, List.length_append]
    exact Nat.le_add_right _ _
  have hheap : Pool.heap ≠ .frames := by decide
  have hpools : (Pool.frames, (⟨f, PAGE_SIZE⟩ : Region)) ≠ (.heap, ⟨args, PAGE_SIZE⟩) := fun h =>
    hheap (congrArg Prod.fst h).symm
  obtain ⟨mem, hmem, hoff, -⟩ := L.post_setup_image hfit hc hargs hend
    (S.mapsPage hcfg.args_aligned hf hf4 hpage) (B.disjoint hflive hlive hpools)
  have Q := Quiet.write B hflive rfl hoff
  have hany : ((live w.m.trace).any fun b => b.1 = .heap && b.2.base = args) = true :=
    List.any_eq_true.mpr ⟨_, hlive, by simp⟩
  unfold postSetupImage
  rw [← hcur] at hmem
  rw [hmem]
  change wp (Machine.free { w.m with mem := mem } args) _ _
  rw [Machine.free, if_pos hany, wp_pure]
  exact ⟨Q.trans (Quiet.free Q.blocks hlive (by decide)), onPool_cons_of_ne _ hheap⟩

/-! ## The exchange -/

/-- A process that runs, with a new image: it has the pages of this image only. -/
structure Exchanged (H : Header) (cfg : Config) (G : List Word) (w w' : Work) : Prop where
  space : Space H cfg G w'
  confined : Confined H cfg.OwnSlot w.pcb.pgtable w.m w'.m
  mapped : ∃ p < cfg.kernel * 256, (lookup H w'.m.mem w.pcb.pgtable p).isSome

/-- An empty user area. -/
theorem Space.empty (hne : w.pcb.pgtable ≠ 0)
    (T : TablesOk H w.m w.pcb.pgtable) (hempty : ∀ i < cfg.kernel, l1 w.m.mem w.pcb.pgtable i = 0)
    (hwindow : NoSect H w.m.mem w.pcb.pgtable (l1pte_index cfg.FIXMAP_MAPPING))
    (hpages : w.pcb.page_list = []) (L : FramesOk G w.m w.refcount) : Space H cfg G w where
  ne_zero := hne
  tables := T
  small i hi := .inl (hempty i hi)
  window := hwindow
  maps p hp q hq := by
    rw [lookup, hempty _ (by omega), if_pos rfl] at hq
    exact absurd hq.symm (Option.some_ne_none q)
  frames := by
    rw [hpages]
    exact L

/-- The old image is gone, with all its frames. -/
structure Cleared (H : Header) (cfg : Config) (G : List Word) (w w' : Work) : Prop where
  space : Space H cfg G w'
  confined : Confined H cfg.OwnSlot w.pcb.pgtable w.m w'.m
  noSect : ∀ i < 4096, NoSect H w.m.mem w.pcb.pgtable i → NoSect H w'.m.mem w.pcb.pgtable i
  intact : ∀ {mem : Memory} {r : Region}, r.size = PAGE_SIZE → Intact mem (.heap, r) w.m →
    Intact mem (.heap, r) w'.m
  pcb : w'.pcb = { reset_process_stack cfg w.pcb with page_list := [] }

theorem reset_root_pgtable_cleared (hn : cfg.kernel ≤ 4096) (S : Space H cfg G w) :
    wp (reset_root_pgtable H cfg.kernel w.m w.pcb.pgtable false)
      (fun m => Cleared H cfg G w
        (Work.release_proc_pages { w with pcb := reset_process_stack cfg w.pcb, m := m }))
      (fun _ => False) := by
  refine (reset_root_pgtable_spec (U := cfg.OwnSlot) S.tables hn fun _ => Or.inl).mono ?_
  intro m R
  obtain ⟨GB, hpcb⟩ := release_proc_pages_spec
    (w := { w with pcb := reset_process_stack cfg w.pcb, m := m }) R.tables.blocks
    (S.frames.congr R.frames)
  generalize Work.release_proc_pages { w with pcb := reset_process_stack cfg w.pcb, m := m } = w'
    at GB hpcb
  have htable : w'.pcb.pgtable = w.pcb.pgtable := by rw [hpcb]; rfl
  have T : TablesOk H w'.m w'.pcb.pgtable := htable ▸ GB.quiet.tables R.tables
  have hsect : ∀ i < 4096, NoSect H w.m.mem w.pcb.pgtable i →
      NoSect H w'.m.mem w.pcb.pgtable i := by
    rw [GB.mem]
    exact R.noSect
  have hempty : ∀ i < cfg.kernel, l1 w'.m.mem w'.pcb.pgtable i = 0 := by
    rw [htable, GB.mem]
    exact R.empty
  have hspace : Space H cfg G w' := Space.empty (htable ▸ S.ne_zero) T hempty
    (htable ▸ hsect _ (l1pte_index_lt _) S.window) (by rw [hpcb]) GB.frames
  refine ⟨hspace, R.toConfined.trans (GB.quiet.confined R.tables), hsect, fun hsize I => ?_, hpcb⟩
  have I' := R.intact hsize I
  exact ⟨GB.heap _ I'.live, by rw [GB.mem]; exact I'.eqOn⟩

theorem setup_proc_image_replace_spec (hcfg : cfg.AreaOk) (S : Space H cfg G w)
    (hcur : w.m.current_pgtable = w.pcb.pgtable) (hentry : 4096 ∣ elf_img_info.e_entry.toNat)
    (hs : elf_img_info.Unsectioned H cfg w.m.mem w.pcb.pgtable)
    (hfit : Fits (pageStrings w.pcb.name argv envp)) :
    wp (setup_proc_image_replace H al cfg w elf_img_info (argv.getD []).length argv envp)
      (fun x => x.1 = 0 ∧ Exchanged H cfg G w x.2 ∧ SameProcess w.pcb x.2.pcb) (· = .noMemory) := by
  have hn := hcfg.kernel_le
  unfold setup_proc_image_replace
  refine wp.bind (preserveArgs_spec S.tables.blocks hfit) ?_
  rintro ⟨args, m1⟩ P
  have S1 : Space H cfg G { w with m := m1 } :=
    S.stays hn (P.quiet.tables S.tables) (P.quiet.stays S.tables) P.frames
  have C1 : Confined H cfg.OwnSlot w.pcb.pgtable w.m m1 := P.quiet.confined S.tables
  simp only [Nat.not_lt_zero, if_false]
  -- the old image goes
  refine wp.bind ((reset_root_pgtable_cleared hn S1).weaken fun _ => False.elim) ?_
  intro m2 D
  change Cleared H cfg G { w with m := m1 }
    (Work.release_proc_pages { w with pcb := reset_process_stack cfg w.pcb, m := m2 }) at D
  generalize Work.release_proc_pages { w with pcb := reset_process_stack cfg w.pcb, m := m2 } = w3
    at D
  have htable3 : w3.pcb.pgtable = w.pcb.pgtable := by rw [D.pcb]; rfl
  have hsame3 : SameProcess w.pcb w3.pcb := by rw [D.pcb]; exact ⟨rfl, rfl, rfl, rfl⟩
  have C3 := C1.trans D.confined
  have hcur3 : w3.m.current_pgtable = w3.pcb.pgtable := C3.current.trans (hcur.trans htable3.symm)
  have hs3 : elf_img_info.Unsectioned H cfg w3.m.mem w3.pcb.pgtable := by
    have hsect : ∀ i < 4096, NoSect H w.m.mem w.pcb.pgtable i →
        NoSect H w3.m.mem w.pcb.pgtable i := fun i hi h =>
      D.noSect i hi (h.congr (P.quiet.entries S.tables i hi).symm)
    rw [htable3]
    exact ⟨fun i hi => hsect _ (l1pte_index_lt _) (hs.1 i hi),
      fun i hi => hsect _ (l1pte_index_lt _) (hs.2 i hi)⟩
  -- the new one comes
  refine wp.bind (allocateImage_spec hcfg hentry hs3 D.space (by rw [D.pcb]; rfl)
    (by rw [D.pcb]; rfl)) ?_
  rintro w4 ⟨A, hB⟩
  have I4 := A.grows.intact rfl (D.intact rfl (⟨P.live, fun _ _ => rfl⟩ : Intact m1.mem _ _))
  have L4 := P.layout.move hfit fun k hk => (I4.eqOn _ (Region.mem_add hk (by decide))).symm
  have hcur4 := A.grows.current.trans (hcur3.trans A.same.pgtable.symm)
  rw [if_pos P.ne_zero]
  refine wp.bind ((postSetupImage_spec hcfg A.space hcur4 hB P.ne_zero P.inside I4.live hfit
    L4).weaken fun _ => False.elim) ?_
  rintro m5 ⟨Q, hframes5⟩
  have htable4 : w4.pcb.pgtable = w.pcb.pgtable := A.same.pgtable.trans htable3
  have hgrows := A.grows
  have hslots := Q.sameSlots A.space.tables
  have C5 := Q.confined (U := cfg.OwnSlot) A.space.tables
  obtain ⟨f, -, -, hpage⟩ := hB
  rw [htable3] at hgrows
  rw [htable4] at hslots C5 hpage
  have S5 := A.space.stays hn (Q.tables A.space.tables) (Q.stays A.space.tables) hframes5
  refine wp_pure.mpr ⟨rfl, ⟨S5, (C3.trans hgrows.toConfined).trans C5, ?_⟩, hsame3.trans A.same⟩
  have hargs := hcfg.args
  rw [hslots.lookup_eq (by omega)] at hpage
  exact ⟨cfg.args_base.toNat / 4096, by omega, by rw [hpage]; rfl⟩

/-! ## The first image -/

/-- The mapping of the image of `root_proc`. -/
def Config.rootRequest (cfg : Config) : Request :=
  ⟨cfg.USER_SPACE_VADDR, cfg.root_proc_start, cfg.root_proc_size, false⟩

/-- The image of `root_proc` is mapped in the user area, by small pages. -/
structure Config.RootOk (cfg : Config) : Prop where
  area : cfg.AreaOk
  request : cfg.rootRequest.Ok
  root : cfg.rootRequest.hi ≤ cfg.kernel * 2 ^ 20
  small : ∀ k, cfg.rootRequest.slot k → ¬cfg.rootRequest.sect k

theorem newImage_spec (B : BlocksOk (live m.trace)) (hn : cfg.kernel ≤ 4096) {pool : Pool}
    (hsys : (pool, rootRegion m.sys_root_pgtable) ∈ live m.trace) :
    wp (newImage al cfg m) (fun x => NewTree cfg.kernel m x.1 x.2) (· = .noMemory) := by
  unfold newImage
  exact wp.bind (new_root_pgtable_spec B) fun x N => wp_pure.mpr (N.newTree hn hsys)

theorem Config.RootOk.slot_lt (hcfg : cfg.RootOk) {k : Nat} (hk : cfg.rootRequest.slot k) :
    k < cfg.kernel := by
  have hle := (Request.slot_mul hk).2
  have hpos := hcfg.request.toRange.lo_lt_hi
  have hroot := hcfg.root
  omega

/-- The pages of the request are those of the image. -/
theorem Config.RootOk.inRootImage (hcfg : cfg.RootOk) {p : Nat}
    (hp : cfg.rootRequest.lo / 4096 ≤ p ∧ p < cfg.rootRequest.hi / 4096) :
    cfg.InRootImage (cfg.root_proc_start.toNat / 4096 + (p - cfg.rootRequest.lo / 4096)) := by
  have hoff : cfg.USER_SPACE_VADDR.toNat % 4096 = cfg.root_proc_start.toNat % 4096 :=
    hcfg.request.offset
  have hlo : cfg.rootRequest.lo = cfg.USER_SPACE_VADDR.toNat / 4096 * 4096 := rfl
  have hhi : cfg.rootRequest.hi =
      (cfg.USER_SPACE_VADDR.toNat + cfg.root_proc_size.toNat + 4095) / 4096 * 4096 := rfl
  unfold InRootImage
  omega

theorem rootImage_spec (hcfg : cfg.RootOk) (S : Space H cfg G w) :
    wp (rootImage H al cfg w)
      (fun w' => Exchanged H cfg G w w' ∧ w'.pcb.pid = w.pcb.pid ∧
        w'.pcb.pgtable = w.pcb.pgtable ∧ w'.pcb.state = .READY) (· = .noMemory) := by
  have hn := hcfg.area.kernel_le
  have R := Rebuilt.of_pcb S (reset_process_stack cfg w.pcb) rfl ⟨rfl, rfl, rfl, rfl⟩
  unfold rootImage
  refine wp.bind (allocateStack_spec hcfg.area R.space rfl rfl) ?_
  intro w1 A
  obtain ⟨hpid, htable, -, -⟩ := A.rebuilt.same
  change w1.pcb.pgtable = w.pcb.pgtable at htable
  have S1 := A.space
  have hgrows := A.grows
  change Grows H cfg w.pcb.pgtable w.m w1.m at hgrows
  have hclear : cfg.rootRequest.Clear H w1.m.mem w1.pcb.pgtable := fun k hk _ =>
    (S1.small k (hcfg.slot_lt hk)).symm.imp_left And.right
  refine wp.bind (create_mapping_spec (r := cfg.rootRequest) S1.tables S1.ne_zero
    hcfg.request.toRange hclear) ?_
  intro m2 M
  have hslot : ∀ i < 4096, ¬cfg.rootRequest.slot i →
      l1 m2.mem w1.pcb.pgtable i = l1 w1.m.mem w1.pcb.pgtable i := fun i hi hs =>
    (M.ext.touched.l1_eq M.ext.tables hi hs).symm
  have hpages := M.pages_ok hcfg.request
  have hconfined := M.ext.confined (U := cfg.OwnSlot)
  have habove : ∀ {i}, cfg.kernel ≤ i → ¬cfg.rootRequest.slot i := fun hi hs =>
    Nat.not_lt.mpr hi (hcfg.slot_lt hs)
  have T2 : Tree H cfg m2 w1.pcb.pgtable := by
    refine ⟨S1.ne_zero, M.ext.tables, fun i hi => ?_,
      S1.window.congr (hslot _ (l1pte_index_lt _) (habove hcfg.area.above))⟩
    by_cases hs : cfg.rootRequest.slot i
    · exact .inr (M.isTable hcfg.request.toRange hs (hcfg.small i hs))
    · rw [hslot i (lt_of_lt_of_le hi hn) hs]
      exact S1.small i hi
  have M2 : MapsOwn H cfg m2.mem w1.pcb.pgtable w1.pcb.page_list := by
    intro p hp q hq
    rw [hpages p (by omega)] at hq
    split at hq
    · next hin =>
      rw [← Option.some.inj hq]
      exact .inr (hcfg.inRootImage hin)
    · exact S1.maps p hp q hq
  have S2 : Space H cfg G { w1 with m := m2 } :=
    ⟨T2, M2, S1.frames.congr (M.ext.onPool_eq (by decide))⟩
  rw [htable] at hpages hconfined
  refine wp_pure.mpr ⟨⟨S2.setPcb rfl rfl, hgrows.toConfined.trans hconfined, ?_⟩, hpid, htable, rfl⟩
  have hlo := hcfg.request.toRange.lo_lt_hi
  have hroot := hcfg.root
  have hlo4 := cfg.rootRequest.lo_dvd
  have hhi4 := cfg.rootRequest.hi_dvd
  refine ⟨cfg.rootRequest.lo / 4096, by omega, ?_⟩
  change (lookup H m2.mem w.pcb.pgtable (cfg.rootRequest.lo / 4096)).isSome
  rw [hpages _ (by omega), if_pos (by omega)]
  rfl

end SyeLabs.Kernel
