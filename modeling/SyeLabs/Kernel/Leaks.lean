import SyeLabs.Kernel.KernelSpace
import SyeLabs.Kernel.Privacy
import SyeLabs.Kernel.Tidiness

/-!
# Nothing is lost on the heap

In every run the blocks of the heap are those of the boot and the tables of the processes in the
list: none is lost, and none is given back that is still in use.
-/

namespace SyeLabs.Kernel

open Mmu

variable {H : Header} {al : Allocators} {cfg : Config} {m m' : Machine} {a c : Word} {p q : Pcb}
  {S : Region → Prop} {l l' : List Word} {l₁ l₂ : List Pcb} {w : Work} {s s' : World} {b : Region}

/-! ## The heap of some trees -/

/-- The heap has the blocks `S`, and the trees with the root tables `l`; no window is open. -/
structure Accounted (H : Header) (cfg : Config) (S : Region → Prop) (l : List Word) (m : Machine) :
    Prop where
  strays : ∀ b, Stray H cfg.OwnSlot l m b ↔ S b
  windows : ∀ a ∈ l, windowEntry cfg m.mem a = 0

theorem Accounted.step (A : Accounted H cfg S l m) (h : SameStrays H cfg.OwnSlot l m l' m')
    (hwindows : ∀ a ∈ l', windowEntry cfg m'.mem a = 0) : Accounted H cfg S l' m' :=
  ⟨fun b => (h b).trans (A.strays b), hwindows⟩

theorem Accounted.perm (A : Accounted H cfg S l m) (h : l.Perm l') : Accounted H cfg S l' m := by
  refine A.step (fun b => ⟨fun hb => ?_, fun hb => ?_⟩) fun a ha => A.windows a (h.mem_iff.mpr ha)
  · exact ⟨hb.on_heap, fun a ha => hb.unowned a (h.mem_iff.mp ha)⟩
  · exact ⟨hb.on_heap, fun a ha => hb.unowned a (h.mem_iff.mpr ha)⟩

/-- The entries are as before, and so is the heap. -/
theorem Accounted.of_entries (A : Accounted H cfg S l m) (htrace : m'.trace = m.trace)
    (h : ∀ a ∈ l, ∀ i < 4096, l1 m'.mem a i = l1 m.mem a i) : Accounted H cfg S l m' := by
  refine A.step (.of_entries (fun b => by rw [htrace]) fun a ha i hi _ => h a ha i hi) ?_
  intro a ha
  exact (h a ha _ (l1pte_index_lt _)).trans (A.windows a ha)

/-- A step on one of the trees. -/
theorem Accounted.tidy (A : Accounted H cfg S l m) (h : Tidy H cfg a m m') (ha : a ∈ l)
    (hother : ∀ c ∈ l, c ≠ a → ∀ i < 4096, l1 m'.mem c i = l1 m.mem c i) :
    Accounted H cfg S l m' := by
  refine A.step (h.sameStrays.widen (List.cons_subset.mpr ⟨ha, List.nil_subset l⟩)
    fun c hc hne i hi _ => hother c hc (fun h => hne (List.mem_singleton.mpr h)) i hi)
    fun c hc => ?_
  rcases eq_or_ne c a with rfl | hne
  · exact h.window.trans (A.windows c hc)
  · exact (hother c hc hne _ (l1pte_index_lt _)).trans (A.windows c hc)

/-- A new tree, of a process that has nothing in its user area. -/
theorem Accounted.newTree (A : Accounted H cfg S l m) (N : NewTree cfg.kernel m a m')
    (hfix : cfg.FixmapOk) (hsys : SysOk H cfg m) (hl : ∀ c ∈ l, TablesOk H m c) :
    Accounted H cfg S (a :: l) m' := by
  have hwindow : windowEntry cfg m'.mem a = 0 := by
    rw [windowEntry, N.entries _ (l1pte_index_lt _), if_neg (Nat.not_lt.mpr hfix.above)]
    exact hsys.window
  refine A.step (N.sameStrays hl fun i hi hU => ?_) fun c hc => ?_
  · rcases hU with hlt | rfl
    · exact NewTree.empty N hfix.kernel_le i hlt
    · exact hwindow
  · rcases List.mem_cons.mp hc with rfl | hc
    · exact hwindow
    · have hentry := (N.stays (U := cfg.OwnSlot) (hl c hc)).entries _
        (l1pte_index_lt cfg.FIXMAP_MAPPING)
      exact hentry.symm.trans (A.windows c hc)

/-- A tree goes whose user area is empty. -/
theorem Accounted.drop (A : Accounted H cfg S (a :: l) m) (B : BlocksOk (live m.trace))
    (ha : (.heap, rootRegion a) ∈ live m.trace) (hempty : ∀ i < cfg.kernel, l1 m.mem a i = 0) :
    Accounted H cfg S l (dropRoot m a) := by
  refine A.step (.drop B ha fun i _ hU ht => ?_) fun c hc => A.windows c (List.mem_cons_of_mem _ hc)
  rcases hU with hi | rfl
  · exact ht.1 (hempty i hi)
  · exact ht.1 (A.windows a List.mem_cons_self)

/-- The tables of a process are in its user area. -/
theorem Accounted.treeBlock (A : Accounted H cfg S l m) (ha : a ∈ l)
    (hb : TreeBlock H cfg.OwnSlot m.mem a b) : TreeBlock H (· < cfg.kernel) m.mem a b := by
  cases hb with
  | root => exact .root
  | table hi hU ht =>
    rcases hU with hU | rfl
    · exact .table hi hU ht
    · exact absurd (A.windows a ha) ht.1

/-! ## The calls -/

namespace World

/-- The heap has the blocks `S`, and the trees of the processes. -/
def HeapOk (H : Header) (cfg : Config) (S : Region → Prop) (s : World) : Prop :=
  Accounted H cfg S s.roots s.m

theorem pgtable_mem_roots (hp : p ∈ s.procs.proc_list) : p.pgtable ∈ s.roots :=
  List.mem_map_of_mem hp

theorem Inv.tables (I : Inv H cfg s) (ha : a ∈ s.roots) : TablesOk H s.m a := by
  obtain ⟨p, hp, rfl⟩ := List.mem_map.mp ha
  exact (I.kin.homes p hp).tables

theorem roots_eq (hl : s.procs.proc_list = l₁ ++ p :: l₂) :
    s.roots = l₁.map Pcb.pgtable ++ p.pgtable :: l₂.map Pcb.pgtable := by
  rw [roots, hl, List.map_append, List.map_cons]

theorem roots_leave (I : Inv H cfg s) (hl : s.procs.proc_list = l₁ ++ p :: l₂)
    (hpid : w.pcb.pid = p.pid) (htable : w.pcb.pgtable = p.pgtable) :
    (s.leave w).roots = s.roots := by
  have hlist := leave_proc_list hl hpid fun q hq => I.pid_unique hl hq
  rw [roots_eq hlist, roots_eq hl, htable]

theorem roots_enter (I : Inv H cfg s) (hp : p.pid = s.procs.pid_current)
    (hpid : w.pcb.pid = p.pid) : ((s.entered p).leave w).roots = s.roots ++ [w.pcb.pgtable] := by
  have hl : (s.entered p).procs.proc_list = s.procs.proc_list ++ p :: [] := rfl
  rw [roots_eq (leave_proc_list hl hpid fun q hq => ?_)]
  · rfl
  · rw [List.append_nil] at hq
    exact (I.pid_ne hp hq).symm

/-- The entries of the others after a step on the tree of the caller. -/
theorem Inv.entries_others (I : Inv H cfg s) (hn : cfg.kernel ≤ 4096)
    (hl : s.procs.proc_list = l₁ ++ p :: l₂)
    (C : Confined H cfg.OwnSlot p.pgtable (s.running p).m m') (ha : a ∈ s.roots)
    (hne : a ≠ p.pgtable) (i : Nat) (hi : i < 4096) : l1 m'.mem a i = l1 s.m.mem a i := by
  obtain ⟨q, hq, rfl⟩ := List.mem_map.mp ha
  rw [hl] at hq
  rcases List.mem_cons.mp (List.perm_middle.mem_iff.mp hq) with rfl | hq
  · exact absurd rfl hne
  · exact ((C.beside _ ((I.running hn hl).1.head q hq).left).2.entries i hi).symm

/-- The tree of the caller after a call that leaves nothing over. -/
theorem HeapOk.leave (A : HeapOk H cfg S s) (I : Inv H cfg s) (hn : cfg.kernel ≤ 4096)
    (hl : s.procs.proc_list = l₁ ++ p :: l₂) (hpid : w.pcb.pid = p.pid)
    (htable : w.pcb.pgtable = p.pgtable)
    (C : Confined H cfg.OwnSlot p.pgtable (s.running p).m w.m)
    (htidy : Tidy H cfg p.pgtable (s.running p).m w.m) : HeapOk H cfg S (s.leave w) := by
  have hp : p ∈ s.procs.proc_list := by
    rw [hl]
    exact List.mem_append_right _ List.mem_cons_self
  have A' : Accounted H cfg S s.roots (s.running p).m := A.of_entries rfl fun _ _ _ _ => rfl
  rw [HeapOk, roots_leave I hl hpid htable]
  exact A'.tidy htidy (pgtable_mem_roots hp) fun a ha hne => I.entries_others hn hl C ha hne

theorem exchange_heapOk (hcfg : cfg.AreaOk) (I : Tenanted H cfg s) (A : HeapOk H cfg S s)
    (hp : p ∈ s.procs.proc_list) (hz : p.state ≠ .ZOMBIE) {elf_img_info : ElfImage}
    {argv envp : Option (List ArgString)} (hentry : 4096 ∣ elf_img_info.e_entry.toNat)
    (hin : elf_img_info.InUserArea cfg) (hfit : Fits (pageStrings p.name argv envp)) :
    wp (s.exchange H al cfg p elf_img_info argv envp) (HeapOk H cfg S) (fun _ => True) := by
  obtain ⟨l₁, l₂, hl⟩ := List.append_of_mem hp
  have T := I.tenant hcfg.kernel_le hl hz
  have hs : elf_img_info.Unsectioned H cfg (s.running p).m.mem (s.running p).pcb.pgtable :=
    ⟨hin.sections.unsectioned fun _ => T.noSect, hin.heap.unsectioned fun _ => T.noSect⟩
  unfold exchange
  refine wp.bind (((setup_proc_image_replace_spec hcfg T.toSpace rfl hentry hs hfit).and
    (setup_proc_image_replace_tidy hcfg T rfl hentry hin hfit)).weaken fun _ _ => trivial) ?_
  rintro ⟨ret, w⟩ ⟨⟨rfl, E, hsame⟩, htidy⟩
  exact wp_pure.mpr
    (A.leave I.toInv hcfg.kernel_le hl hsame.pid hsame.pgtable E.confined htidy)

theorem do_exit_heapOk (hn : cfg.kernel ≤ 4096) (I : Inv H cfg s) (A : HeapOk H cfg S s)
    (hp : p ∈ s.procs.proc_list) (exit_status : Word) :
    wp (s.do_exit p exit_status) (HeapOk H cfg S) (fun _ => True) := by
  obtain ⟨l₁, l₂, hl⟩ := List.append_of_mem hp
  obtain ⟨K, L⟩ := I.running hn hl
  have hhome := K.homes p List.mem_cons_self
  unfold do_exit
  split
  · exact wp_throw.mpr trivial
  · obtain ⟨R, hpcb⟩ := release_proc_pages_spec
      (w := s.running { p with state := .ZOMBIE, exit_status }) hhome.tables.blocks L
    have htidy : Tidy H cfg p.pgtable _ _ :=
      release_proc_pages_tidy (s.running { p with state := .ZOMBIE, exit_status })
    rw [wp_pure]
    generalize Work.release_proc_pages (s.running { p with state := .ZOMBIE, exit_status }) = w
      at R hpcb htidy
    have C : Confined H cfg.OwnSlot p.pgtable (s.running p).m w.m := R.quiet.confined hhome.tables
    exact A.leave (w := { w with pcb := w.pcb.exit exit_status }) I hn hl (by rw [hpcb]; rfl)
      (by rw [hpcb]; rfl) C htidy

theorem create_root_process_heapOk (hcfg : cfg.RootOk) (I : Inv H cfg s) (A : HeapOk H cfg S s) :
    wp (s.create_root_process H al cfg) (HeapOk H cfg S) (fun _ => True) := by
  have hn := hcfg.area.kernel_le
  obtain ⟨pool, hroot⟩ := I.kin.sys.tables.root_live
  unfold create_root_process
  refine wp.bind ((newImage_spec I.kin.sys.tables.blocks hn hroot).weaken fun _ _ => trivial) ?_
  rintro ⟨pgtable, m1⟩ N
  have A1 := Accounted.newTree A N hcfg.area.toFixmapOk I.kin.sys fun c hc => I.tables hc
  obtain ⟨T, -⟩ := I.newcomer hcfg.area N
  simp only [ProcTable.new_process]
  refine wp.bind (((rootImage_spec hcfg T.toSpace).and (rootImage_tidy hcfg T)).weaken
    fun _ _ => trivial) ?_
  rintro w ⟨⟨E, hpid, htable, -⟩, htidy⟩
  have A2 : Accounted H cfg S (pgtable :: s.roots) w.m := by
    refine A1.tidy htidy List.mem_cons_self fun c hc hne i hi => ?_
    obtain ⟨q, hq, rfl⟩ := List.mem_map.mp ((List.mem_cons.mp hc).resolve_left hne)
    exact ((E.confined.beside _ (NewTree.beside_proc N I.kin hq)).2.entries i hi).symm
  refine wp_pure.mpr ?_
  change Accounted H cfg S ((s.entered _).leave w).roots w.m
  rw [roots_enter I rfl hpid, htable]
  exact A2.perm (List.perm_append_singleton _ _).symm

theorem do_fork_heapOk (hcfg : cfg.AreaOk) (I : Inv H cfg s) (A : HeapOk H cfg S s)
    (hp : p ∈ s.procs.proc_list) (hz : p.state ≠ .ZOMBIE) :
    wp (s.do_fork H al cfg p) (HeapOk H cfg S) (fun _ => True) := by
  obtain ⟨l₁, l₂, hl⟩ := List.append_of_mem hp
  have hfix := hcfg.toFixmapOk
  unfold do_fork
  refine wp.bind (I.forking hcfg hl hz) ?_
  rintro ⟨pgtable, m1⟩ F
  have N := F.newTree
  have K := F.before
  have A0 : Accounted H cfg S s.roots (s.running p).m := A.of_entries rfl fun _ _ _ _ => rfl
  have hin : ∀ {c}, c ∈ s.roots → ∃ q ∈ p :: (l₁ ++ l₂), q.pgtable = c := by
    intro c hc
    obtain ⟨q, hq, rfl⟩ := List.mem_map.mp hc
    rw [hl] at hq
    exact ⟨q, List.perm_middle.mem_iff.mp hq, rfl⟩
  have A1 : Accounted H cfg S (pgtable :: s.roots) m1 := by
    refine A0.newTree N hfix K.sys fun c hc => ?_
    obtain ⟨q, hq, rfl⟩ := hin hc
    exact (K.homes q hq).tables
  have hwindow := A1.windows p.pgtable (List.mem_cons_of_mem _ (pgtable_mem_roots hp))
  simp only [ProcTable.new_process]
  refine wp.bind (wp.and (F.offspring hfix rfl rfl rfl rfl)
    ((duplicate_user_space_sameStrays hfix F.child.ne_parent F.parent F.child hwindow).weaken
      fun _ _ => trivial)) ?_
  rintro w ⟨O, hbal, hparent, hchild⟩
  split
  · exact wp_throw.mpr trivial
  · next name _ =>
    obtain ⟨frames, hpcb⟩ := O.pcb
    have hthird : ∀ c ∈ pgtable :: s.roots, c ∉ [p.pgtable, pgtable] → ∀ i < 4096,
        l1 w.m.mem c i = l1 m1.mem c i := by
      intro c hc hne i hi
      rw [List.mem_pair, not_or] at hne
      obtain ⟨hnp, hnc⟩ := hne
      obtain ⟨q, hq, rfl⟩ := hin ((List.mem_cons.mp hc).resolve_left hnc)
      have hql := (List.mem_cons.mp hq).resolve_left fun h => hnp (h ▸ rfl)
      exact ((Forking.stays O F hql).entries i hi).symm
    have hsub : [p.pgtable, pgtable] ⊆ pgtable :: s.roots := by
      simp [pgtable_mem_roots hp]
    have A2 : Accounted H cfg S (pgtable :: s.roots) w.m := by
      refine A1.step (hbal.widen hsub fun c hc hne i hi _ => hthird c hc hne i hi) fun c hc => ?_
      by_cases hne : c ∈ [p.pgtable, pgtable]
      · rcases List.mem_pair.mp hne with rfl | rfl
        · exact hparent
        · exact hchild.trans (A1.windows _ List.mem_cons_self)
      · exact (hthird c hc hne _ (l1pte_index_lt _)).trans (A1.windows c hc)
    refine wp_pure.mpr ?_
    change Accounted H cfg S ((s.entered _).leave { w with pcb := w.pcb.start name }).roots w.m
    rw [roots_enter I rfl (by rw [hpcb]; rfl)]
    have htable : (w.pcb.start name).pgtable = pgtable := by rw [hpcb]; rfl
    rw [htable]
    exact A2.perm (List.perm_append_singleton _ _).symm

theorem Reaped.heapOk (hn : cfg.kernel ≤ 4096) (hfix : cfg.FixmapOk) (I : Inv H cfg s)
    (A : HeapOk H cfg S s) (R : Reaped H cfg s s') : HeapOk H cfg S s' := by
  obtain ⟨l₁, p, l₂, m', hl, hz, hreset, rfl⟩ := R
  have K := I.kin
  rw [hl] at K
  have K' := K.perm List.perm_middle
  have hhome := K'.homes p List.mem_cons_self
  have A1 : Accounted H cfg S (p.pgtable :: (l₁ ++ l₂).map Pcb.pgtable) s.m := by
    refine Accounted.perm A ?_
    rw [roots_eq hl, List.map_append]
    exact List.perm_middle
  have hspec : wp (reset_root_pgtable H cfg.kernel s.m p.pgtable true)
      (Accounted H cfg S ((l₁ ++ l₂).map Pcb.pgtable)) (fun _ => False) := by
    rw [reset_root_pgtable_remove]
    refine wp.bind ((reset_root_pgtable_spec (U := cfg.OwnSlot) hhome.tables hn
      fun _ => Or.inl).and (reset_root_pgtable_tidy hfix hhome.tables)) ?_
    rintro m1 ⟨E, htidy⟩
    have hroot := E.root _ hhome.root rfl
    rw [free_eq_dropRoot hroot, wp_ok]
    refine (A1.tidy htidy List.mem_cons_self fun c hc hne i hi => ?_).drop E.tables.blocks hroot
      E.empty
    obtain ⟨q, hq, rfl⟩ := List.mem_map.mp ((List.mem_cons.mp hc).resolve_left hne)
    exact ((E.beside _ (K'.head q hq).left).2.entries i hi).symm
  exact hspec.of_ok hreset

/-! ## What programs do -/

theorem do_sbrk_heapOk (I : Inv H cfg s) (A : HeapOk H cfg S s) (hp : p ∈ s.procs.proc_list)
    (increment : Word) : HeapOk H cfg S (s.do_sbrk cfg p increment) := by
  obtain ⟨l₁, l₂, hl⟩ := List.append_of_mem hp
  obtain ⟨hpointer, heq⟩ := sbrk_eq cfg p increment
  rw [do_sbrk, HeapOk, roots_leave I hl (by rw [heq]) (by rw [heq])]
  exact A

/-- What a process writes to its memory changes no table. -/
theorem Written.heapOk {bs : List (Word × Byte)} (W : Written H cfg s p bs s')
    (A : HeapOk H cfg S s) : HeapOk H cfg S s' := by
  have hroots : s'.roots = s.roots := by rw [roots, roots, W.procs]
  rw [HeapOk, hroots]
  refine Accounted.of_entries A W.trace fun a ha i hi => ?_
  obtain ⟨q, hq, rfl⟩ := List.mem_map.mp ha
  exact ((W.stays q hq).entries i hi).symm

/-! ## Runs -/

/-- The image of an exchange lies in the user area, and so does the heap behind it. -/
def Act.Inside (cfg : Config) : Act → Prop
  | .call (.setup_proc_image_replace _ elf_img_info _ _) => elf_img_info.InUserArea cfg
  | _ => True

theorem exec_heapOk (hcfg : cfg.RootOk) (I : Tenanted H cfg s) (A : HeapOk H cfg S s) {c : Call}
    (hok : (Act.call c).Ok H cfg s) (hin : (Act.call c).Inside cfg) :
    wp (s.exec H al cfg c) (HeapOk H cfg S) (fun _ => True) := by
  cases c with
  | create_root_process => exact create_root_process_heapOk hcfg I.toInv A
  | do_fork pid =>
    rcases s.caller_cases pid with hp | ⟨p, hmem, hz, rfl, hp⟩
    · simp only [exec, hp]
      exact wp_throw.mpr trivial
    · simp only [exec, hp]
      exact do_fork_heapOk hcfg.area I.toInv A hmem hz
  | setup_proc_image_replace pid elf_img_info argv envp =>
    rcases s.caller_cases pid with hp | ⟨p, hmem, hz, rfl, hp⟩
    · simp only [exec, hp]
      exact wp_throw.mpr trivial
    · obtain ⟨hlegal, hcareful⟩ := hok
      simp only [exec, hp]
      exact exchange_heapOk hcfg.area I A hmem hz hlegal hin (hcareful p hp).1
  | do_exit pid exit_status =>
    rcases s.caller_cases pid with hp | ⟨p, hmem, hz, rfl, hp⟩
    · simp only [exec, hp]
      exact wp_throw.mpr trivial
    · simp only [exec, hp]
      exact do_exit_heapOk hcfg.area.kernel_le I.toInv A hmem exit_status

theorem act_heapOk (hcfg : cfg.RootOk) (I : Tenanted H cfg s) (A : HeapOk H cfg S s) {a : Act}
    (hok : a.Ok H cfg s) (hin : a.Inside cfg) :
    wp (s.act H al cfg a) (HeapOk H cfg S) (fun _ => True) := by
  cases a with
  | call c => exact exec_heapOk hcfg I A hok hin
  | waitpid caller pid wstatus nohang =>
    rcases s.caller_cases caller with hp | ⟨p, hmem, hz, rfl, hp⟩
    · simp only [act, hp]
      exact wp_throw.mpr trivial
    · simp only [act, hp]
      obtain ⟨hc, hu⟩ := hok
      refine (do_waitpid_written hcfg.area.kernel_le I hmem hz hc hu).mono ?_
      rintro s' ⟨s₁, bs, hs₁, -, -, -, W⟩
      refine W.heapOk ?_
      rcases hs₁ with rfl | R
      · exact A
      · exact R.heapOk hcfg.area.kernel_le hcfg.area.toFixmapOk I.toInv A
  | sbrk pid increment =>
    rcases s.caller_cases pid with hp | ⟨p, hmem, hz, rfl, hp⟩
    · simp only [act, hp]
      exact wp_throw.mpr trivial
    · simp only [act, hp]
      exact wp_pure.mpr (do_sbrk_heapOk I.toInv A hmem increment)
  | store pid v x =>
    rcases s.caller_cases pid with hp | ⟨p, hmem, hz, rfl, hp⟩
    · simp only [act, hp]
      exact wp_throw.mpr trivial
    · simp only [act, hp]
      exact (store_written hcfg.area.kernel_le I hmem hz v x).mono fun s' W => W.heapOk A

theorem Tenanted.runs_heapOk (hcfg : cfg.RootOk) (hpos : 0 < cfg.HEAP_SIZE.toNat)
    (hsize : cfg.HEAP_SIZE.toNat < 2 ^ 30) (I : Tenanted H cfg s) (A : HeapOk H cfg S s)
    {as : List Act} (h : Runs H al cfg s as s') (hin : ∀ a ∈ as, a.Inside cfg) :
    HeapOk H cfg S s' := by
  induction h with
  | nil s => exact A
  | cons hok hact _ ih =>
    obtain ⟨ha, has⟩ := List.forall_mem_cons.mp hin
    obtain ⟨I', -⟩ := (act_acted hcfg hpos hsize I hok).of_ok hact
    exact ih I' ((act_heapOk hcfg I A hok ha).of_ok hact) has

/-- A block of the heap was there at the boot, or it is a table of a process in the list: of one,
and of one only. The blocks are those for page tables and for pages of arguments; the PCBs, their
page lists and the threads are not in this heap. -/
structure NothingLost (H : Header) (cfg : Config) (s₀ s : World) : Prop where
  heap : ∀ b, (.heap, b) ∈ live s.m.trace ↔ (.heap, b) ∈ live s₀.m.trace ∨
    ∃ p ∈ s.procs.proc_list, TreeBlock H (· < cfg.kernel) s.m.mem p.pgtable b
  once : ∀ p ∈ s.procs.proc_list, ∀ b, TreeBlock H (· < cfg.kernel) s.m.mem p.pgtable b →
    (.heap, b) ∉ live s₀.m.trace ∧ ∀ q ∈ s.procs.proc_list,
      TreeBlock H (· < cfg.kernel) s.m.mem q.pgtable b → p.pid = q.pid

theorem HeapOk.nothingLost {s₀ : World} (I : Inv H cfg s)
    (A : HeapOk H cfg (fun b => (.heap, b) ∈ live s₀.m.trace) s) : NothingLost H cfg s₀ s := by
  have hown : ∀ {p b}, TreeBlock H (· < cfg.kernel) s.m.mem p b →
      TreeBlock H cfg.OwnSlot s.m.mem p b := fun hb => hb.mono fun _ => Or.inl
  constructor
  · intro b
    constructor
    · intro hb
      by_cases hstray : ∀ a ∈ s.roots, ¬TreeBlock H cfg.OwnSlot s.m.mem a b
      · exact .inl ((A.strays b).mp ⟨hb, hstray⟩)
      · push Not at hstray
        obtain ⟨a, ha, hblock⟩ := hstray
        obtain ⟨p, hp, rfl⟩ := List.mem_map.mp ha
        exact .inr ⟨p, hp, A.treeBlock ha hblock⟩
    · rintro (hb | ⟨p, hp, hb⟩)
      · exact ((A.strays b).mpr hb).on_heap
      · have h := I.kin.homes p hp
        exact hb.on_heap h.tables h.root
  · intro p hp b hb
    refine ⟨fun hold => ((A.strays b).mpr hold).unowned _ (pgtable_mem_roots hp) (hown hb),
      fun q hq hbq => ?_⟩
    by_contra hne
    have hpq : p ≠ q := fun h => hne (congrArg Pcb.pid h)
    have : Std.Symm (Strangers H cfg s.m) := ⟨fun _ _ h => h.symm⟩
    exact (I.kin.strangers.forall hp hq hpq).left.treeBlock (hown hb) (hown hbq)

end World
end SyeLabs.Kernel
