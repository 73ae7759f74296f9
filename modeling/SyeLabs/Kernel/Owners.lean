import SyeLabs.Kernel.Duplicate
import SyeLabs.Kernel.World

/-!
# Every page frame has one owner

The trees of the processes and of the system stand beside each other, and the frames of all page
lists are in one ledger. Each call changes the tree of its caller, or adds a tree; what it does to
the others is what `Confined`, `NewTree` and `Offspring` say.
-/

namespace SyeLabs.Kernel

open Mmu

variable {H : Header} {al : Allocators} {cfg : Config} {m m' : Machine} {a c root : Word}
  {p q : Pcb} {l l₁ l₂ : List Pcb} {G : List Word} {w w' : Work} {s s' : World}

/-! ## Trees that a step leaves alone -/

/-- The tree at `c` is there as before. -/
structure Kept (H : Header) (cfg : Config) (m m' : Machine) (c : Word) : Prop where
  tables : TablesOk H m' c
  stays : Stays H cfg.OwnSlot c m.mem m'.mem

theorem Kept.beside (K : Kept H cfg m m' a) (K' : Kept H cfg m m' c)
    (B : Beside H cfg.OwnSlot a c m) : Beside H cfg.OwnSlot a c m' :=
  B.of_entries K'.tables K.stays.entries K'.stays.entries

/-- A step that the processes of the list and the system do not notice. -/
structure Leaves (H : Header) (cfg : Config) (l : List Pcb) (m m' : Machine) : Prop where
  kept : ∀ p ∈ l, Kept H cfg m m' p.pgtable
  sys : Kept H cfg m m' m.sys_root_pgtable
  root : ∀ b ∈ live m.trace, b.2.size = 16384 → b ∈ live m'.trace
  image : ∀ b ∈ live m.trace, b.1 = .image → b ∈ live m'.trace
  sys_root : m'.sys_root_pgtable = m.sys_root_pgtable

/-- A process with its tree. A zombie has given its frames back. -/
structure Home (H : Header) (cfg : Config) (m : Machine) (p : Pcb) : Prop
    extends Tree H cfg m p.pgtable where
  root : (.heap, rootRegion p.pgtable) ∈ live m.trace
  maps : p.state ≠ .ZOMBIE → MapsOwn H cfg m.mem p.pgtable p.page_list
  mapped : p.state ≠ .ZOMBIE →
    ∃ v < cfg.kernel * 256, (lookup H m.mem p.pgtable v).isSome

theorem mapped_congr {mem mem' : Memory} (h : SameSlots H cfg.kernel root mem mem')
    (hmapped : ∃ v < cfg.kernel * 256, (lookup H mem root v).isSome) :
    ∃ v < cfg.kernel * 256, (lookup H mem' root v).isSome := by
  obtain ⟨v, hv, hsome⟩ := hmapped
  rw [h.lookup_eq (by omega)] at hsome
  exact ⟨v, hv, hsome⟩

theorem Home.kept (h : Home H cfg m p) (hn : cfg.kernel ≤ 4096) (L : Leaves H cfg l m m')
    (K : Kept H cfg m m' p.pgtable) : Home H cfg m' p where
  toTree := h.toTree.stays hn K.tables K.stays
  root := L.root _ h.root rfl
  maps hz := (h.maps hz).congr (K.stays.sameSlots hn fun _ => Or.inl)
  mapped hz := mapped_congr (K.stays.sameSlots hn fun _ => Or.inl) (h.mapped hz)

theorem SysOk.kept (S : SysOk H cfg m) (hn : cfg.kernel ≤ 4096) (L : Leaves H cfg l m m') :
    SysOk H cfg m' where
  tables := by
    rw [L.sys_root]
    exact L.sys.tables
  user i hi := by
    rw [L.sys_root, ← L.sys.stays.entries i (lt_of_lt_of_le hi hn)]
    exact S.user i hi
  window := by
    rw [L.sys_root, ← L.sys.stays.entries _ (l1pte_index_lt _)]
    exact S.window
  image := by
    obtain ⟨r, hr, hsub⟩ := S.image
    exact ⟨r, L.image _ hr rfl, hsub⟩

/-! ## The processes beside each other -/

/-- Two processes with different pids and trees beside each other. -/
structure Strangers (H : Header) (cfg : Config) (m : Machine) (p q : Pcb) : Prop where
  pid : p.pid ≠ q.pid
  left : Beside H cfg.OwnSlot p.pgtable q.pgtable m
  right : Beside H cfg.OwnSlot q.pgtable p.pgtable m

theorem Strangers.symm (h : Strangers H cfg m p q) : Strangers H cfg m q p :=
  ⟨h.pid.symm, h.right, h.left⟩

/-- The processes of a list and the system. -/
structure Neighbours (H : Header) (cfg : Config) (l : List Pcb) (m : Machine) : Prop where
  sys : SysOk H cfg m
  homes : ∀ p ∈ l, Home H cfg m p
  beside : ∀ p ∈ l, Beside H cfg.OwnSlot p.pgtable m.sys_root_pgtable m
  strangers : l.Pairwise (Strangers H cfg m)

theorem Neighbours.perm (K : Neighbours H cfg l m) (h : l.Perm l₁) : Neighbours H cfg l₁ m where
  sys := K.sys
  homes p hp := K.homes p (h.mem_iff.mpr hp)
  beside p hp := K.beside p (h.mem_iff.mpr hp)
  strangers := (h.pairwise_iff Strangers.symm).mp K.strangers

theorem Neighbours.tail (K : Neighbours H cfg (p :: l) m) : Neighbours H cfg l m where
  sys := K.sys
  homes q hq := K.homes q (List.mem_cons_of_mem _ hq)
  beside q hq := K.beside q (List.mem_cons_of_mem _ hq)
  strangers := (List.pairwise_cons.mp K.strangers).2

theorem Neighbours.head (K : Neighbours H cfg (p :: l) m) (q : Pcb) (hq : q ∈ l) :
    Strangers H cfg m p q :=
  (List.pairwise_cons.mp K.strangers).1 q hq

theorem Neighbours.cons (K : Neighbours H cfg l m) (hp : Home H cfg m p)
    (hpid : ∀ q ∈ l, p.pid ≠ q.pid)
    (hb : ∀ q ∈ l, Beside H cfg.OwnSlot p.pgtable q.pgtable m)
    (hsys : Beside H cfg.OwnSlot p.pgtable m.sys_root_pgtable m) : Neighbours H cfg (p :: l) m where
  sys := K.sys
  homes := List.forall_mem_cons.mpr ⟨hp, K.homes⟩
  beside := List.forall_mem_cons.mpr ⟨hsys, K.beside⟩
  strangers := List.pairwise_cons.mpr
    ⟨fun q hq => ⟨hpid q hq, hb q hq, (hb q hq).symm hp.tables⟩, K.strangers⟩

theorem Neighbours.leaves (K : Neighbours H cfg l m) (hn : cfg.kernel ≤ 4096)
    (L : Leaves H cfg l m m') : Neighbours H cfg l m' where
  sys := K.sys.kept hn L
  homes p hp := (K.homes p hp).kept hn L (L.kept p hp)
  beside p hp := by
    rw [L.sys_root]
    exact (L.kept p hp).beside L.sys (K.beside p hp)
  strangers := K.strangers.imp_of_mem fun hp hq h =>
    ⟨h.pid, (L.kept _ hp).beside (L.kept _ hq) h.left, (L.kept _ hq).beside (L.kept _ hp) h.right⟩

/-- Which table is the current one does not matter. -/
theorem Neighbours.current (K : Neighbours H cfg l m) (hn : cfg.kernel ≤ 4096) (a : Word) :
    Neighbours H cfg l { m with current_pgtable := a } :=
  K.leaves hn
    { kept := fun p hp => ⟨(K.homes p hp).tables.congr (fun _ _ => rfl) (fun _ h => h)
        K.sys.tables.blocks, Stays.refl _⟩
      sys := ⟨K.sys.tables.congr (fun _ _ => rfl) (fun _ h => h) K.sys.tables.blocks, Stays.refl _⟩
      root := fun _ hb _ => hb
      image := fun _ hb _ => hb
      sys_root := rfl }

/-- A step on a tree beside those of the list. -/
theorem Confined.leaves (C : Confined H cfg.OwnSlot a m m')
    (hb : ∀ q ∈ l, Beside H cfg.OwnSlot a q.pgtable m)
    (hsys : Beside H cfg.OwnSlot a m.sys_root_pgtable m) : Leaves H cfg l m m' where
  kept q hq := ⟨(C.beside _ (hb q hq)).1.tables, (C.beside _ (hb q hq)).2⟩
  sys := ⟨(C.beside _ hsys).1.tables, (C.beside _ hsys).2⟩
  root := C.root
  image := C.image
  sys_root := C.sys_root

/-- The process that has made the step is put beside the others. -/
theorem Neighbours.join (K : Neighbours H cfg l m) (hn : cfg.kernel ≤ 4096)
    (C : Confined H cfg.OwnSlot a m m')
    (hp : Home H cfg m' p) (ha : p.pgtable = a) (hpid : ∀ q ∈ l, p.pid ≠ q.pid)
    (hb : ∀ q ∈ l, Beside H cfg.OwnSlot a q.pgtable m)
    (hsys : Beside H cfg.OwnSlot a m.sys_root_pgtable m) : Neighbours H cfg (p :: l) m' := by
  subst ha
  refine (K.leaves hn (Confined.leaves C hb hsys)).cons hp hpid (fun q hq => ?_) ?_
  · exact (C.beside _ (hb q hq)).1
  · rw [C.sys_root]
    exact (C.beside _ hsys).1

theorem Exchanged.home (E : Exchanged H cfg G w w') (htable : w'.pcb.pgtable = w.pcb.pgtable)
    (hroot : (.heap, rootRegion w.pcb.pgtable) ∈ live w.m.trace) : Home H cfg w'.m w'.pcb where
  toTree := E.space.toTree
  root := by
    rw [htable]
    exact E.confined.root _ hroot rfl
  maps _ := E.space.maps
  mapped _ := by
    rw [htable]
    exact E.mapped

/-- A process that can be forked: it is the current one and has not exited. -/
theorem Home.parent (h : Home H cfg m p) (hz : p.state ≠ .ZOMBIE) (S : SysOk H cfg m)
    (hlive : ∀ f ∈ p.page_list, (.frames, (⟨f, PAGE_SIZE⟩ : Region)) ∈ live m.trace)
    (hcur : m.current_pgtable = p.pgtable) : Parent H cfg m p.pgtable where
  current := hcur
  ne_zero := h.ne_zero
  tables := h.tables
  root := h.root
  small := h.small
  mapped := h.mapped hz
  frames v hv q hq := by
    rcases h.maps hz v hv q hq with hmem | himage
    · exact ⟨.frames, _, hlive _ hmem, by decide, fun _ hx => hx⟩
    · obtain ⟨r, hr, hsub⟩ := S.image
      exact ⟨.image, r, hr, by decide, hsub q himage⟩
  window := h.window

/-- The child is put beside the parent and the others. -/
theorem Neighbours.fork {w₀ : Work} (K : Neighbours H cfg (p :: l) w₀.m) (hn : cfg.kernel ≤ 4096)
    (hz : p.state ≠ .ZOMBIE) (O : Offspring H cfg G p.pgtable w₀ w)
    (hb : ∀ q ∈ p :: l, Beside H cfg.OwnSlot w₀.pcb.pgtable q.pgtable w₀.m)
    (hsys : Beside H cfg.OwnSlot w₀.pcb.pgtable w₀.m.sys_root_pgtable w₀.m)
    (hroot : (.heap, rootRegion w₀.pcb.pgtable) ∈ live w₀.m.trace)
    (hpid : ∀ r ∈ p :: l, q.pid ≠ r.pid) (htable : q.pgtable = w₀.pcb.pgtable)
    (hpages : q.page_list = w.pcb.page_list) : Neighbours H cfg (q :: p :: l) w.m := by
  have hmem : p ∈ p :: l := List.mem_cons_self
  have hthird := fun r (hr : r ∈ l) =>
    O.third _ (K.head r hr).left (hb r (List.mem_cons_of_mem _ hr))
  have hthirdsys := O.third _ (K.beside p hmem) hsys
  have K1 : Neighbours H cfg l w.m := K.tail.leaves hn
    { kept := fun r hr => ⟨(hthird r hr).1.tables, (hthird r hr).2.2⟩
      sys := ⟨hthirdsys.1.tables, hthirdsys.2.2⟩
      root := O.root
      image := O.image
      sys_root := O.sys_root }
  have K2 : Neighbours H cfg (p :: l) w.m := by
    have h := K.homes p hmem
    refine K1.cons ⟨O.parent_tree, O.root _ h.root rfl, fun _ => (h.maps hz).congr O.parent_slots,
      fun _ => mapped_congr O.parent_slots (h.mapped hz)⟩ (fun r hr => (K.head r hr).pid)
      (fun r hr => (hthird r hr).1) ?_
    rw [O.sys_root]
    exact hthirdsys.1
  obtain ⟨F, hF⟩ := O.pcb
  have hwtable : w.pcb.pgtable = q.pgtable := by rw [hF, htable]
  have T := O.space.toTree
  have M := O.space.maps
  rw [hwtable] at T M
  rw [← hpages] at M
  rw [← htable] at hroot
  refine K2.cons ⟨T, O.root _ hroot rfl, fun _ => M, ?_⟩ hpid ?_ ?_
  · rw [htable]
    exact fun _ => O.mapped
  · rw [htable]
    exact List.forall_mem_cons.mpr
      ⟨O.beside.symm O.parent_tree.tables, fun r hr => (hthird r hr).2.1⟩
  · rw [htable, O.sys_root]
    exact hthirdsys.2.1

/-! ## A new tree -/

theorem Config.OwnSlot.empty_sys (S : SysOk H cfg m) {i : Nat} (hU : cfg.OwnSlot i)
    (hin : cfg.kernel ≤ i) : l1 m.mem m.sys_root_pgtable i = 0 := by
  rcases hU with hi | rfl
  · exact absurd hi (Nat.not_lt.mpr hin)
  · exact S.window

/-- The slots of the system that every process has for its own hold no table. -/
theorem SysOk.alone (S : SysOk H cfg m) {i : Nat} (hU : cfg.OwnSlot i) :
    Alone H m.mem c m.sys_root_pgtable i := by
  intro k hk ht
  rcases hU with hi | rfl
  · exact absurd ht (S.user i hi)
  · rw [S.window] at ht
    exact absurd ht not_isTable_zero

section
variable (N : NewTree cfg.kernel m root m')
include N

theorem NewTree.kept (T : TablesOk H m c) : Kept H cfg m m' c := ⟨N.other_tables T, N.stays T⟩

theorem NewTree.leaves (K : Neighbours H cfg l m) : Leaves H cfg l m m' where
  kept p hp := NewTree.kept N (K.homes p hp).tables
  sys := NewTree.kept N K.sys.tables
  root _ hb _ := N.live_sub hb
  image _ hb _ := N.live_sub hb
  sys_root := N.sys_root

theorem NewTree.beside_proc (K : Neighbours H cfg l m) (hp : p ∈ l) :
    Beside H cfg.OwnSlot root p.pgtable m' :=
  N.beside (K.homes p hp).tables (fun _ _ hU hin => hU.empty_sys K.sys hin) (K.beside p hp).alone'

theorem NewTree.beside_sys (K : Neighbours H cfg l m) :
    Beside H cfg.OwnSlot root m'.sys_root_pgtable m' := by
  rw [N.sys_root]
  exact N.beside K.sys.tables (fun i _ hU hin => hU.empty_sys K.sys hin)
    fun i _ hU => K.sys.alone hU

theorem NewTree.empty (hn : cfg.kernel ≤ 4096) (i : Nat) (hi : i < cfg.kernel) :
    l1 m'.mem root i = 0 := (N.entries i (lt_of_lt_of_le hi hn)).trans (if_pos hi)

theorem NewTree.window (S : SysOk H cfg m) (hfix : cfg.FixmapOk) :
    NoSect H m'.mem root (l1pte_index cfg.FIXMAP_MAPPING) := by
  right
  rw [N.entries _ (l1pte_index_lt _), if_neg (Nat.not_lt.mpr hfix.above)]
  exact S.window

theorem NewTree.frames : onPool .frames m'.trace = onPool .frames m.trace := by
  rw [N.trace, onPool_cons]
  exact if_neg nofun

end

/-! ## The invariant -/

/-- The processes with their trees, and all their frames in the ledger. -/
structure World.Inv (H : Header) (cfg : Config) (s : World) : Prop where
  kin : Neighbours H cfg s.procs.proc_list s.m
  fresh : ∀ p ∈ s.procs.proc_list, p.pid < s.procs.pid_current
  frames : FramesOk s.pages s.m s.refcount

namespace World

theorem Booted.inv (B : Booted H cfg s) : Inv H cfg s := by
  constructor
  case kin =>
    rw [B.proc_list]
    exact ⟨B.sys, nofun, nofun, List.Pairwise.nil⟩
  case fresh =>
    rw [B.proc_list]
    exact nofun
  case frames =>
    rw [FramesOk, B.frames, pages, B.proc_list, funext B.refcount]
    exact Ledger.nil

theorem caller_eq_some {pid : Nat} (h : s.caller pid = some p) :
    p ∈ s.procs.proc_list ∧ p.state ≠ .ZOMBIE := by
  obtain ⟨hf, hp⟩ := Option.filter_eq_some_iff.mp h
  exact ⟨(ProcTable.find_proc_by_pid_eq_some hf).1, of_decide_eq_true hp⟩

/-- The process of a call is put back into the list. -/
theorem Inv.leave (hl : s.procs.proc_list = l₁ ++ p :: l₂) (hpid : w.pcb.pid = p.pid)
    (hfresh : ∀ q ∈ s.procs.proc_list, q.pid < s.procs.pid_current)
    (K : Neighbours H cfg (w.pcb :: (l₁ ++ l₂)) w.m)
    (L : FramesOk (w.pcb.page_list ++ (l₁ ++ l₂).flatMap Pcb.page_list) w.m w.refcount) :
    Inv H cfg (s.leave w) := by
  have hother : ∀ l ⊆ l₁ ++ l₂, (l.map fun q => if q.pid = w.pcb.pid then w.pcb else q) = l := by
    intro l hsub
    refine (List.map_congr_left fun q hq => ?_).trans (List.map_id l)
    exact if_neg (K.head q (hsub hq)).pid.symm
  have hlist : (s.leave w).procs.proc_list = l₁ ++ w.pcb :: l₂ := by
    change s.procs.proc_list.map (fun q => if q.pid = w.pcb.pid then w.pcb else q) = _
    rw [hl, List.map_append, List.map_cons, if_pos hpid.symm,
      hother l₁ (List.subset_append_left _ _), hother l₂ (List.subset_append_right _ _)]
  have hperm : (w.pcb :: (l₁ ++ l₂)).Perm (l₁ ++ w.pcb :: l₂) := List.perm_middle.symm
  constructor
  case kin =>
    rw [hlist]
    exact K.perm hperm
  case fresh =>
    intro q hq
    rw [hlist] at hq
    rcases List.mem_cons.mp (hperm.mem_iff.mpr hq) with rfl | hq
    · rw [hpid]
      exact hfresh p (by rw [hl]; exact List.mem_append_right _ List.mem_cons_self)
    · refine hfresh q ?_
      rw [hl]
      exact List.perm_middle.mem_iff.mpr (List.mem_cons_of_mem _ hq)
  case frames =>
    rw [pages, hlist]
    exact Ledger.perm L (hperm.flatMap_right _)

/-- A new process is put at the end of the list. -/
theorem Inv.enter (I : Inv H cfg s) (hp : p.pid = s.procs.pid_current) (hpid : w.pcb.pid = p.pid)
    (K : Neighbours H cfg (w.pcb :: s.procs.proc_list) w.m)
    (L : FramesOk (w.pcb.page_list ++ s.pages) w.m w.refcount) :
    Inv H cfg ({ s with
      procs :=
        { proc_list := s.procs.proc_list ++ [p]
          pid_current := s.procs.pid_current + 1 } }.leave w) := by
  refine Inv.leave (show _ = s.procs.proc_list ++ p :: [] from rfl) hpid (fun q hq => ?_) ?_ ?_
  · rcases List.mem_append.mp hq with hq | hq
    · exact Nat.lt_succ_of_lt (I.fresh q hq)
    · rw [List.mem_singleton.mp hq, hp]
      exact Nat.lt_succ_self _
  · rw [List.append_nil]
    exact K
  · rw [List.append_nil]
    exact L

theorem Inv.pid_ne (I : Inv H cfg s) (hp : p.pid = s.procs.pid_current)
    (hq : q ∈ s.procs.proc_list) : p.pid ≠ q.pid := by
  rw [hp]
  exact (I.fresh q hq).ne'

/-! ## The calls -/

/-- The caller, before the others in the list, with its page table as the current one. -/
theorem Inv.running (I : Inv H cfg s) (hn : cfg.kernel ≤ 4096)
    (hl : s.procs.proc_list = l₁ ++ p :: l₂) :
    Neighbours H cfg (p :: (l₁ ++ l₂)) (s.running p).m ∧
      FramesOk (p.page_list ++ (l₁ ++ l₂).flatMap Pcb.page_list) (s.running p).m s.refcount := by
  have hperm : (l₁ ++ p :: l₂).Perm (p :: (l₁ ++ l₂)) := List.perm_middle
  have K := I.kin
  have L := I.frames
  rw [pages, hl] at L
  rw [hl] at K
  exact ⟨(K.perm hperm).current hn _, Ledger.perm L (hperm.flatMap_right _)⟩

theorem exchange_inv (hcfg : cfg.AreaOk) (I : Inv H cfg s) (hp : p ∈ s.procs.proc_list)
    (hz : p.state ≠ .ZOMBIE) {elf_img_info : ElfImage} {argv envp : Option (List ArgString)}
    (hentry : 4096 ∣ elf_img_info.e_entry.toNat) (hfit : Fits (pageStrings p.name argv envp))
    (hs : elf_img_info.Unsectioned H cfg s.m.mem p.pgtable) :
    wp (s.exchange H al cfg p elf_img_info argv envp) (Inv H cfg) (fun _ => True) := by
  obtain ⟨l₁, l₂, hl⟩ := List.append_of_mem hp
  have hn := hcfg.kernel_le
  obtain ⟨K, L⟩ := I.running hn hl
  have hhome := K.homes p List.mem_cons_self
  have S : Space H cfg ((l₁ ++ l₂).flatMap Pcb.page_list) (s.running p) :=
    ⟨hhome.toTree, hhome.maps hz, L⟩
  unfold exchange
  refine wp.bind ((setup_proc_image_replace_spec hcfg S rfl hentry hs hfit).weaken
    fun _ _ => trivial) ?_
  rintro ⟨ret, w⟩ ⟨rfl, E, hsame⟩
  simp only [if_true, wp_pure]
  refine Inv.leave hl hsame.pid I.fresh ?_ E.space.frames
  refine K.tail.join hn E.confined (E.home hsame.pgtable hhome.root) hsame.pgtable (fun q hq => ?_)
    (fun q hq => (K.head q hq).left) (K.beside p List.mem_cons_self)
  rw [hsame.pid]
  exact (K.head q hq).pid

theorem do_exit_inv (hn : cfg.kernel ≤ 4096) (I : Inv H cfg s) (hp : p ∈ s.procs.proc_list)
    (exit_status : Word) : wp (s.do_exit p exit_status) (Inv H cfg) (fun _ => True) := by
  obtain ⟨l₁, l₂, hl⟩ := List.append_of_mem hp
  obtain ⟨K, L⟩ := I.running hn hl
  have hhome := K.homes p List.mem_cons_self
  unfold do_exit
  split
  · exact wp_throw.mpr trivial
  · obtain ⟨R, hpcb⟩ := release_proc_pages_spec
      (w := s.running { p with state := .ZOMBIE, exit_status }) hhome.tables.blocks L
    have C : Confined H cfg.OwnSlot p.pgtable _ _ := R.quiet.confined hhome.tables
    have T := hhome.toTree.stays hn C.tables (R.quiet.stays hhome.tables)
    rw [wp_pure]
    generalize Work.release_proc_pages (s.running { p with state := .ZOMBIE, exit_status }) = w
      at R hpcb C T
    have htable : (w.pcb.exit exit_status).pgtable = p.pgtable := by rw [hpcb]; rfl
    have hpid : (w.pcb.exit exit_status).pid = p.pid := by rw [hpcb]; rfl
    refine Inv.leave hl hpid I.fresh ?_ R.frames
    refine K.tail.join hn C ⟨?_, ?_, fun h => absurd rfl h, fun h => absurd rfl h⟩ htable
      (fun q hq => ?_) (fun q hq => (K.head q hq).left) (K.beside p List.mem_cons_self)
    · rw [htable]
      exact T
    · rw [htable]
      exact C.root _ hhome.root rfl
    · rw [hpid]
      exact (K.head q hq).pid

theorem create_root_process_inv (hcfg : cfg.RootOk) (I : Inv H cfg s) :
    wp (s.create_root_process H al cfg) (Inv H cfg) (fun _ => True) := by
  have hn := hcfg.area.kernel_le
  have hsys := I.kin.sys
  obtain ⟨pool, hroot⟩ := hsys.tables.root_live
  unfold create_root_process
  refine wp.bind ((newImage_spec hsys.tables.blocks hn hroot).weaken fun _ _ => trivial) ?_
  rintro ⟨pgtable, m1⟩ N
  have K1 : Neighbours H cfg s.procs.proc_list m1 := I.kin.leaves hn (NewTree.leaves N I.kin)
  have S : Space H cfg s.pages
      { pcb := { pid := s.procs.pid_current, pgtable }, m := m1, refcount := s.refcount } :=
    Space.empty N.ne_zero (N.tables hsys.tables) (NewTree.empty N hn)
      (NewTree.window N hsys hcfg.area.toFixmapOk) rfl (I.frames.congr (NewTree.frames N))
  simp only [ProcTable.new_process]
  refine wp.bind ((rootImage_spec hcfg S).weaken fun _ _ => trivial) ?_
  rintro w ⟨E, hpid, htable, -⟩
  rw [wp_pure]
  refine I.enter rfl hpid ?_ E.space.frames
  exact K1.join hn E.confined (E.home htable N.root_live) htable (fun q hq => I.pid_ne hpid hq)
    (fun q hq => NewTree.beside_proc N I.kin hq) (NewTree.beside_sys N I.kin)

/-- The new page table of `do_fork` at `root`, before the user area of the parent is copied. -/
structure Forking (H : Header) (cfg : Config) (s : World) (p : Pcb) (l : List Pcb) (root : Word)
    (m : Machine) : Prop where
  newTree : NewTree cfg.kernel (s.running p).m root m
  before : Neighbours H cfg (p :: l) (s.running p).m
  neighbours : Neighbours H cfg (p :: l) m
  parent : Parent H cfg m p.pgtable
  child : Child H cfg m p.pgtable root
  beside : Beside H cfg.OwnSlot p.pgtable root m
  frames : FramesOk s.pages m s.refcount
  window : NoSect H m.mem root (l1pte_index cfg.FIXMAP_MAPPING)

theorem Inv.forking (hcfg : cfg.AreaOk) (I : Inv H cfg s)
    (hl : s.procs.proc_list = l₁ ++ p :: l₂) (hz : p.state ≠ .ZOMBIE) :
    wp (newImage al cfg (s.running p).m)
      (fun x => Forking H cfg s p (l₁ ++ l₂) x.1 x.2) (fun _ => True) := by
  have hn := hcfg.kernel_le
  have K := (I.running hn hl).1
  have hmem : p ∈ p :: (l₁ ++ l₂) := List.mem_cons_self
  have hp : p ∈ s.procs.proc_list := by
    rw [hl]
    exact List.mem_append_right l₁ List.mem_cons_self
  obtain ⟨pool, hroot⟩ := K.sys.tables.root_live
  refine ((newImage_spec K.sys.tables.blocks hn hroot).mono ?_).weaken fun _ _ => trivial
  rintro ⟨root, m⟩ N
  have K1 : Neighbours H cfg (p :: (l₁ ++ l₂)) m := K.leaves hn (NewTree.leaves N K)
  have hframes := NewTree.frames N
  have L : FramesOk s.pages m s.refcount := I.frames.congr hframes
  have B := NewTree.beside_proc N K hmem
  have T := N.tables K.sys.tables
  refine ⟨N, K, K1, ?_, ?_, B.symm T, L, NewTree.window N K.sys hcfg.toFixmapOk⟩
  · exact (K1.homes p hmem).parent hz K1.sys
      (fun f hf => L.mem_live.mpr (List.mem_flatMap.mpr ⟨p, hp, hf⟩)) N.current
  · exact ⟨B.ne.symm, T, N.root_live, NewTree.empty N hn,
      fun i hi => B.alone i (lt_of_lt_of_le hi hn) (.inl hi)⟩

/-- The copy of the user area in `do_fork`. -/
theorem Forking.offspring (F : Forking H cfg s p l root m) (hfix : cfg.FixmapOk) {w₀ : Work}
    (hroot : w₀.pcb.pgtable = root) (hm : w₀.m = m) (hcount : w₀.refcount = s.refcount)
    (hpages : w₀.pcb.page_list = []) :
    wp (duplicate_user_space H al cfg p.pgtable w₀) (Offspring H cfg s.pages p.pgtable w₀)
      (fun _ => True) := by
  subst hroot hm
  have hframes : FramesOk s.pages w₀.m w₀.refcount := hcount ▸ F.frames
  exact (duplicate_user_space_offspring hfix F.parent F.child F.newTree.ne_zero hpages F.window
    F.beside hframes).weaken fun _ _ => trivial

/-- The copy touches the trees of the parent and of the child. -/
theorem Forking.stays {w₀ : Work} (O : Offspring H cfg G p.pgtable w₀ w)
    (F : Forking H cfg s p l w₀.pcb.pgtable w₀.m) (hq : q ∈ l) :
    Stays H cfg.OwnSlot q.pgtable w₀.m.mem w.m.mem := by
  have hbeside := NewTree.beside_proc F.newTree F.before (List.mem_cons_of_mem p hq)
  exact (O.third _ (F.neighbours.head q hq).left hbeside).2.2

theorem Forking.sameSlots (F : Forking H cfg s p l root m) (hn : cfg.kernel ≤ 4096)
    (hq : q ∈ p :: l) : SameSlots H cfg.kernel q.pgtable s.m.mem m.mem := by
  have hstays : Stays H cfg.OwnSlot q.pgtable (s.running p).m.mem m.mem :=
    NewTree.stays F.newTree (F.before.homes q hq).tables
  exact hstays.sameSlots hn fun _ => Or.inl

theorem Forking.copied {w₀ : Work} (O : Offspring H cfg G p.pgtable w₀ w)
    (F : Forking H cfg s p l w₀.pcb.pgtable w₀.m) (hn : cfg.kernel ≤ 4096) (hq : q ∈ p :: l) :
    SameSlots H cfg.kernel q.pgtable s.m.mem w.m.mem := by
  refine (F.sameSlots hn hq).trans ?_
  rcases List.mem_cons.mp hq with rfl | hq
  · exact O.parent_slots
  · exact (F.stays O hq).sameSlots hn fun _ => Or.inl

theorem do_fork_inv (hcfg : cfg.AreaOk) (I : Inv H cfg s) (hp : p ∈ s.procs.proc_list)
    (hz : p.state ≠ .ZOMBIE) : wp (s.do_fork H al cfg p) (Inv H cfg) (fun _ => True) := by
  obtain ⟨l₁, l₂, hl⟩ := List.append_of_mem hp
  unfold do_fork
  refine wp.bind (I.forking hcfg hl hz) ?_
  rintro ⟨pgtable, m1⟩ F
  simp only [ProcTable.new_process]
  refine wp.bind (F.offspring hcfg.toFixmapOk rfl rfl rfl rfl) ?_
  intro w O
  split
  · exact wp_throw.mpr trivial
  · next name _ =>
    rw [wp_pure]
    obtain ⟨frames, hpcb⟩ := O.pcb
    have hpid : (w.pcb.start name).pid = s.procs.pid_current := by rw [hpcb]; rfl
    have K2 : Neighbours H cfg (w.pcb.start name :: p :: (l₁ ++ l₂)) w.m := by
      refine F.neighbours.fork hcfg.kernel_le hz O
        (fun q hq => NewTree.beside_proc F.newTree F.before hq)
        (NewTree.beside_sys F.newTree F.before) F.child.root (fun q hq => I.pid_ne hpid ?_)
        (by rw [hpcb]; rfl) rfl
      rw [hl]
      exact List.perm_middle.mem_iff.mpr hq
    refine I.enter rfl hpid ?_ O.space.frames
    rw [hl]
    exact K2.perm (List.perm_middle.symm.cons _)

/-! ## Runs -/

theorem exec_inv (hcfg : cfg.RootOk) (I : Inv H cfg s) {c : Call} (hc : c.Legal)
    (hok : Careful H cfg s c) : wp (s.exec H al cfg c) (Inv H cfg) (fun _ => True) := by
  cases c with
  | create_root_process => exact create_root_process_inv hcfg I
  | do_fork pid =>
    cases hp : s.caller pid with
    | none =>
      simp only [exec, hp]
      exact wp_throw.mpr trivial
    | some p =>
      obtain ⟨hmem, hz⟩ := caller_eq_some hp
      simp only [exec, hp]
      exact do_fork_inv hcfg.area I hmem hz
  | setup_proc_image_replace pid elf_img_info argv envp =>
    cases hp : s.caller pid with
    | none =>
      simp only [exec, hp]
      exact wp_throw.mpr trivial
    | some p =>
      obtain ⟨hmem, hz⟩ := caller_eq_some hp
      obtain ⟨hfit, hs⟩ := hok p hp
      simp only [exec, hp]
      exact exchange_inv hcfg.area I hmem hz hc hfit hs
  | do_exit pid exit_status =>
    cases hp : s.caller pid with
    | none =>
      simp only [exec, hp]
      exact wp_throw.mpr trivial
    | some p =>
      simp only [exec, hp]
      exact do_exit_inv hcfg.area.kernel_le I (caller_eq_some hp).1 exit_status

theorem Reached.inv (hcfg : cfg.RootOk) (h : Reached H al cfg (Careful H cfg) s) :
    Inv H cfg s := by
  induction h with
  | boot B => exact B.inv
  | call _ hc hok hexec ih => exact (exec_inv hcfg ih hc hok).of_ok hexec

theorem Inv.framesOwned (I : Inv H cfg s) : FramesOwned H cfg s where
  owner f hf := by
    have hcount := List.count_eq_one_of_mem I.frames.nodup (I.frames.mem_live.mp hf)
    exact ⟨hcount, (I.frames.refcount f).trans hcount⟩
  maps p hp := (I.kin.homes p hp).maps
  balanced f := by
    have hbal := I.frames.balanced f
    rwa [onPool, List.count_filter (by simp [Event.pool]), List.count_filter (by simp [Event.pool])]
      at hbal
  unused f hf := List.count_eq_zero.mpr fun h => hf (I.frames.mem_live.mpr h)

/-- Frames have one owner and go back once, in every run in which the arguments of each `exec` fit
into their page and the image stays away from sections. -/
theorem reached_framesOwned (hcfg : cfg.RootOk) (h : Reached H al cfg (Careful H cfg) s) :
    FramesOwned H cfg s := (h.inv hcfg).framesOwned

/-! ## Two processes -/

/-- `newImage`, with the kernel area copied at once. -/
def newImageCopy (al : Allocators) (cfg : Config) (m : Machine) :
    Except Fault (Word × Machine) := do
  let (pgtable, m) ← new_root_pgtable al m
  return (pgtable, { m with
    mem := m.mem.copy (entry pgtable cfg.kernel) (entry m.sys_root_pgtable cfg.kernel)
      (4 * (4096 - cfg.kernel)) })

theorem newImage_eq (S : SysOk H cfg m) (hn : cfg.kernel ≤ 4096) :
    newImage al cfg m = newImageCopy al cfg m := by
  obtain ⟨pool, hroot⟩ := S.tables.root_live
  have hnew : wp (new_root_pgtable al m) _ _ := new_root_pgtable_spec S.tables.blocks
  unfold newImage newImageCopy
  cases h : new_root_pgtable al m with
  | error e => rfl
  | ok x =>
    have N := hnew.of_ok h
    have hblocks := N.blocks
    rw [N.trace] at hblocks
    have hdisj := (List.pairwise_cons.mp hblocks.apart).1 _ hroot
    exact congrArg (fun m => Except.ok (x.1, m))
      (pgtable_copy_kernel_area_eq hn (N.sys_root.symm ▸ hdisj))

/-- `create_root_process`, in the same way. -/
def createCopy (H : Header) (al : Allocators) (cfg : Config) (s : World) : Except Fault World := do
  let (pgtable, m) ← newImageCopy al cfg s.m
  let (pcb, procs) := s.procs.new_process pgtable
  let w ← rootImage H al cfg { pcb, m, refcount := s.refcount }
  return { s with procs }.leave w

theorem create_root_process_eq (I : Inv H cfg s) (hn : cfg.kernel ≤ 4096) :
    s.create_root_process H al cfg = createCopy H al cfg s := by
  rw [create_root_process, createCopy, newImage_eq I.kin.sys hn]

/-- `do_fork`, with whole pages copied. -/
def forkCopy (H : Header) (al : Allocators) (cfg : Config) (s : World) (parent : Pcb) :
    Except Fault World := do
  let (pgtable, m) ← newImageCopy al cfg (s.running parent).m
  let (pcb, procs) := s.procs.new_process pgtable
  let w ← duplicateCopy H al cfg parent.pgtable
    { pcb := pcb.inherit parent, m, refcount := s.refcount }
  match ProcName.ofString (parent.childName pcb.pid) with
  | none => throw .overrun
  | some name => return { s with procs }.leave { w with pcb := w.pcb.start name }

theorem do_fork_eq (hcfg : cfg.AreaOk) (I : Inv H cfg s) (hp : p ∈ s.procs.proc_list)
    (hz : p.state ≠ .ZOMBIE) : s.do_fork H al cfg p = forkCopy H al cfg s p := by
  obtain ⟨l₁, l₂, hl⟩ := List.append_of_mem hp
  have hn := hcfg.kernel_le
  have hnew : wp (newImage al cfg (s.running p).m) _ _ := I.forking hcfg hl hz
  unfold do_fork forkCopy
  rw [← newImage_eq (I.running hn hl).1.sys hn]
  refine bind_eq_bind fun x hx => ?_
  obtain ⟨pgtable, m⟩ := x
  have F := hnew.of_ok hx
  exact congrArg (fun w => w >>= _)
    (duplicate_user_space_eq hcfg.toFixmapOk F.child.ne_parent F.parent F.child)

/-- `exec`, with both. -/
def execCopy (H : Header) (al : Allocators) (cfg : Config) (s : World) :
    Call → Except Fault World
  | .create_root_process => createCopy H al cfg s
  | .do_fork pid =>
    match s.caller pid with
    | none => throw .bug
    | some parent => forkCopy H al cfg s parent
  | c => s.exec H al cfg c

theorem exec_eq (hcfg : cfg.RootOk) (I : Inv H cfg s) (c : Call) :
    s.exec H al cfg c = execCopy H al cfg s c := by
  cases c with
  | create_root_process => exact create_root_process_eq I hcfg.area.kernel_le
  | do_fork pid =>
    rw [exec, execCopy]
    cases hp : s.caller pid with
    | none => rfl
    | some p =>
      obtain ⟨hmem, hz⟩ := caller_eq_some hp
      exact do_fork_eq hcfg.area I hmem hz
  | setup_proc_image_replace | do_exit => rfl

/-- A user area of 16 MB, with a page each for the stack, the heap and the image of `root_proc`. -/
def narrow : Config where
  kernel := 16
  FIXMAP_MAPPING := 0xF0000000
  args_base := 0xFFF000
  PROC_STACK_SIZE := 0x1000
  HEAP_SIZE := 0x1000
  USER_SPACE_VADDR := 0x1000
  root_proc_start := 0x310000
  root_proc_size := 0x1000

/-- Blocks of each size in a zone of their own; the zone of second-level tables begins where the
first page of the heap ends. -/
def zoned : Allocators :=
  { Arm.allocators with
    memalign := fun h size align =>
      firstFit (if size = 16384 then 0x100000 else if size = 1024 then 0x200000 else 0x1FF000)
        align 64 (live h) size align
    memalign_fresh := fun h => firstFit_fresh h }

def booted : World where
  procs := {}
  m := ⟨fun _ => 0, [.alloc .image ⟨0x300000, 16384⟩, .alloc .image ⟨0x310000, 4096⟩], 0x300000,
    0x300000⟩
  refcount := fun _ => 0

theorem narrow_ok : narrow.RootOk where
  area :=
    { aligned := by decide
      above := by decide
      args_aligned := by decide
      args := by decide
      stack := by decide }
  request := ⟨⟨by decide, by decide⟩, by decide, by decide⟩
  root := by decide
  small _ hk := Request.page_not_sect (Request.page_range (v := 0x1000) (by decide)) hk

theorem booted_booted : Booted Arm.header narrow booted where
  proc_list := rfl
  refcount _ := rfl
  frames := rfl
  sys := by
    have hz : ∀ i, ¬IsTable Arm.header (l1 booted.m.mem booted.m.sys_root_pgtable i) :=
      fun _ ht => ht.1 rfl
    exact
      { tables := ⟨.of_apart (by decide) (by decide), ⟨.image, by decide⟩,
          fun i _ ht => absurd ht (hz i), fun i _ _ _ ht => absurd ht (hz i)⟩
        user := fun i _ => hz i
        window := rfl
        image := by
          refine ⟨⟨0x310000, 4096⟩, by decide, fun q hq => ?_⟩
          have hle : 0x310 ≤ q := hq.1
          have hlt : q * 4096 < 0x311000 := hq.2
          obtain rfl : q = 0x310 := by omega
          exact fun _ hx => hx }

theorem Reached.mono {ok ok' : World → Call → Prop} (h : Reached H al cfg ok s)
    (hok : ∀ s c, ok s c → ok' s c) : Reached H al cfg ok' s := by
  induction h with
  | boot B => exact .boot B
  | call _ hc hc' hexec ih => exact ih.call hc (hok _ _ hc') hexec

theorem Reached.run (hcfg : cfg.RootOk) (h : Reached H al cfg (Careful H cfg) s)
    {calls : List Call} (hc : ∀ c ∈ calls, c.Legal ∧ ∀ s, Careful H cfg s c)
    (hrun : calls.foldlM (execCopy H al cfg) s = .ok s') :
    Reached H al cfg (Careful H cfg) s' := by
  induction calls generalizing s with
  | nil =>
    obtain rfl := Except.ok.inj hrun
    exact h
  | cons c calls ih =>
    rw [List.foldlM_cons] at hrun
    obtain ⟨s1, hexec, hrun⟩ := exists_of_bind_ok hrun
    obtain ⟨⟨hlegal, hok⟩, hc⟩ := List.forall_mem_cons.mp hc
    rw [← exec_eq hcfg (h.inv hcfg)] at hexec
    exact ih (h.call hlegal (hok s) hexec) hc hrun

theorem exists_of_any {x : Except Fault World} {b : World → Bool}
    (h : x.toOption.any b = true) : ∃ s, x = .ok s ∧ b s = true := by
  cases x with
  | ok s => exact ⟨s, rfl, h⟩
  | error _ => exact absurd h Bool.false_ne_true

/-- A child that exits. -/
def forkExit : List Call := [.create_root_process, .do_fork 1, .do_exit 2 42]

/-- The frames of the child have gone back; those of the parent are as before. -/
theorem reached_framesOwned_two :
    ∃ s, Reached Arm.header zoned narrow (Careful Arm.header narrow) s ∧
      s.procs.proc_list.map Pcb.page_list = [[0x800000], []] ∧
      s.m.trace.count (.free .frames 0x801000) = 1 ∧ FramesOwned Arm.header narrow s := by
  have h : ((forkExit.foldlM (execCopy Arm.header zoned narrow) booted).toOption.any fun s =>
      s.procs.proc_list.map Pcb.page_list = [[0x800000], []] ∧
        s.m.trace.count (.free .frames 0x801000) = 1) = true := by
    decide +kernel
  obtain ⟨s, hs, hpages⟩ := exists_of_any h
  obtain ⟨hlists, hfree⟩ := of_decide_eq_true hpages
  have R : Reached Arm.header zoned narrow (Careful Arm.header narrow) s :=
    (Reached.boot booted_booted).run narrow_ok (by simp [forkExit, Call.Legal, Careful]) hs
  exact ⟨s, R, hlists, hfree, reached_framesOwned narrow_ok R⟩

/-- 1018 times the letter `b`. -/
def letters : ArgString :=
  ⟨List.replicate 1018 98, fun h => absurd (List.eq_of_mem_replicate h) (by decide), by
    rw [List.length_replicate]
    omega⟩

/-- The last of the four arguments ends four bytes behind the page. -/
def longExec : Call :=
  .setup_proc_image_replace 2 ⟨0x1000, 1, [], [], 0⟩ (some [letters, letters, letters, letters])
    none

/-- The last argument is copied into the table that maps the stack of the other process. -/
theorem not_framesOwned_overrun :
    ∃ s, Reached Arm.header zoned narrow (fun _ _ => True) s ∧
      ¬FramesOwned Arm.header narrow s := by
  have h : (([Call.create_root_process, .create_root_process].foldlM
      (execCopy Arm.header zoned narrow) booted >>= fun s =>
        s.exec Arm.header zoned narrow longExec).toOption.any fun s =>
      s.procs.proc_list.any fun p => p.state = .READY ∧ p.page_list = [0x800000] ∧
        lookup Arm.header s.m.mem p.pgtable 0xF00 = some 0x626) = true := by
    decide +kernel
  obtain ⟨s, hs, hstray⟩ := exists_of_any h
  obtain ⟨s1, htwo, hexec⟩ := exists_of_bind_ok hs
  have R : Reached Arm.header zoned narrow (fun _ _ => True) s1 :=
    ((Reached.boot booted_booted).run narrow_ok (by simp [Call.Legal, Careful]) htwo).mono
      fun _ _ _ => trivial
  have hlegal : longExec.Legal := show 4096 ∣ 0x1000 by decide
  refine ⟨s, R.call hlegal trivial hexec, fun h => ?_⟩
  obtain ⟨p, hp, hstray⟩ := List.any_eq_true.mp hstray
  obtain ⟨hstate, hpages, hlookup⟩ := of_decide_eq_true hstray
  have hz : p.state ≠ .ZOMBIE := by
    rw [hstate]
    decide
  rcases h.maps p hp hz 0xF00 (by decide) 0x626 hlookup with hmem | himage
  · rw [hpages] at hmem
    exact absurd hmem (by decide)
  · exact absurd himage.2 (by decide)

end World

end SyeLabs.Kernel
