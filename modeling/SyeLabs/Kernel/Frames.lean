import SyeLabs.Theory.Ledger
import SyeLabs.Kernel.Fork

/-!
# The frames of a process

`allocate_page` gives frames to a process, and `release_proc_pages` takes all of them back. The
frames are kept in a ledger, in which those of the process stand before those of all others.
-/

namespace SyeLabs.Kernel

open Mmu

variable {H : Header} {al : Allocators} {cfg : Config} {m m' m'' : Machine} {a f v nr_pages : Word}
  {n i p q : Nat} {w w' : Work} {G : List Word} {mem : Memory} {b : Pool × Region}

/-- A page of physical memory that the image of `root_proc` is in. -/
def Config.InRootImage (cfg : Config) (q : Nat) : Prop :=
  cfg.root_proc_start.toNat / 4096 ≤ q ∧
    q * 4096 < cfg.root_proc_start.toNat + cfg.root_proc_size.toNat

/-- The user area is mapped to the frames of a list, or to the image of `root_proc`. -/
def MapsOwn (H : Header) (cfg : Config) (mem : Memory) (root : Word) (pages : List Word) : Prop :=
  ∀ p < cfg.kernel * 256, ∀ q, lookup H mem root p = some q →
    frameAt q ∈ pages ∨ cfg.InRootImage q

/-- The state of the frames that are handed out to the owners in a list. -/
def FramesOk (pages : List Word) (m : Machine) (refcount : Word → Nat) : Prop :=
  Ledger .frames PAGE_SIZE pages (onPool .frames m.trace) refcount

theorem mem_live_onPool : (.frames, (⟨f, PAGE_SIZE⟩ : Region)) ∈ live (onPool .frames m.trace) ↔
    (.frames, (⟨f, PAGE_SIZE⟩ : Region)) ∈ live m.trace := by
  rw [live_onPool, List.mem_filter, decide_eq_true_iff]
  exact and_iff_left rfl

theorem FramesOk.congr {pages : List Word} {refcount : Word → Nat} (L : FramesOk pages m refcount)
    (h : onPool .frames m'.trace = onPool .frames m.trace) : FramesOk pages m' refcount := by
  rw [FramesOk, h]
  exact L

theorem FramesOk.mem_live {pages : List Word} {refcount : Word → Nat}
    (L : FramesOk pages m refcount) : (.frames, (⟨f, PAGE_SIZE⟩ : Region)) ∈ live m.trace ↔
      f ∈ pages := mem_live_onPool.symm.trans (Ledger.mem_live L)

/-- The page table of a process: small pages in the user area, no section in the window's slot. -/
structure Tree (H : Header) (cfg : Config) (m : Machine) (root : Word) : Prop where
  ne_zero : root ≠ 0
  tables : TablesOk H m root
  small : ∀ i < cfg.kernel, l1 m.mem root i = 0 ∨ IsTable H (l1 m.mem root i)
  window : NoSect H m.mem root (l1pte_index cfg.FIXMAP_MAPPING)

theorem Tree.noSect {root : Word} (T : Tree H cfg m root) (hi : i < cfg.kernel) :
    NoSect H m.mem root i := (T.small i hi).symm.imp_left And.right

theorem Tree.stays {root : Word} (T : Tree H cfg m root) (hn : cfg.kernel ≤ 4096)
    (T' : TablesOk H m' root) (h : Stays H cfg.OwnSlot root m.mem m'.mem) : Tree H cfg m' root where
  ne_zero := T.ne_zero
  tables := T'
  small i hi := by
    rw [← h.entries i (lt_of_lt_of_le hi hn)]
    exact T.small i hi
  window := T.window.congr (h.entries _ (l1pte_index_lt _)).symm

/-- The user area is the same, so it is mapped to the same frames. -/
theorem MapsOwn.congr {root : Word} {pages : List Word} (M : MapsOwn H cfg mem root pages)
    {mem' : Memory} (h : SameSlots H cfg.kernel root mem mem') : MapsOwn H cfg mem' root pages := by
  intro p hp q hq
  rw [← h.lookup_eq (by omega)] at hq
  exact M p hp q hq

/-- A process with its page table and its frames; `G` are the frames of the others. -/
structure Space (H : Header) (cfg : Config) (G : List Word) (w : Work) : Prop
    extends Tree H cfg w.m w.pcb.pgtable where
  maps : MapsOwn H cfg w.m.mem w.pcb.pgtable w.pcb.page_list
  frames : FramesOk (w.pcb.page_list ++ G) w.m w.refcount

theorem Space.stays (S : Space H cfg G w) (hn : cfg.kernel ≤ 4096)
    (T' : TablesOk H m' w.pcb.pgtable) (h : Stays H cfg.OwnSlot w.pcb.pgtable w.m.mem m'.mem)
    (hframes : onPool .frames m'.trace = onPool .frames w.m.trace) :
    Space H cfg G { w with m := m' } :=
  ⟨S.toTree.stays hn T' h, S.maps.congr (h.sameSlots hn fun _ => Or.inl), S.frames.congr hframes⟩

/-- Pages have been added to the tree at `a`. -/
structure Grows (H : Header) (cfg : Config) (a : Word) (m m' : Machine) : Prop
    extends Confined H cfg.OwnSlot a m m' where
  noSect : ∀ i < 4096, NoSect H m.mem a i → NoSect H m'.mem a i
  intact : ∀ {mem b}, b.2.size = PAGE_SIZE → Intact mem b m → Intact mem b m'

theorem Grows.refl (T : TablesOk H m a) : Grows H cfg a m m :=
  ⟨Confined.refl T, fun _ _ h => h, fun _ I => I⟩

theorem Grows.trans (h : Grows H cfg a m m') (h' : Grows H cfg a m' m'') : Grows H cfg a m m'' :=
  ⟨h.toConfined.trans h'.toConfined, fun i hi hs => h'.noSect i hi (h.noSect i hi hs),
    fun hsize I => h'.intact hsize (h.intact hsize I)⟩

/-! ## `allocate_page` -/

/-- A new frame `f`, mapped at `v`. -/
structure NewFrame (H : Header) (cfg : Config) (G : List Word) (v : Word) (w : Work) (f : Word)
    (w' : Work) : Prop where
  space : Space H cfg G w'
  grows : Grows H cfg w.pcb.pgtable w.m w'.m
  pcb : w'.pcb = { w.pcb with page_list := w.pcb.page_list ++ [f] }
  page : ∀ p < 2 ^ 20, lookup H w'.m.mem w.pcb.pgtable p =
    if p = v.toNat / 4096 then some (f.toNat / 4096) else lookup H w.m.mem w.pcb.pgtable p
  aligned : 4096 ∣ f.toNat

theorem newFrame_of_mapped (hn : cfg.kernel ≤ 4096) (hv : 4096 ∣ v.toNat) (S : Space H cfg G w)
    (F : Fresh (live w.m.trace) f PAGE_SIZE PAGE_SIZE)
    (M : Mapped H w.pcb.pgtable (Request.page v f)
      { w.m with trace := .alloc .frames ⟨f, PAGE_SIZE⟩ :: w.m.trace } m') :
    NewFrame H cfg G v w f ({ w with m := m' }.add_page_to_proc f) := by
  have hf : 4096 ∣ f.toNat := F.aligned
  have Q := Quiet.alloc S.tables.blocks F .frames
  have hslot : ∀ i < 4096, i ≠ l1pte_index v →
      l1 m'.mem w.pcb.pgtable i = l1 w.m.mem w.pcb.pgtable i := fun i hi hne =>
    (M.ext.touched.l1_eq M.ext.tables hi fun hs => hne ((Request.page_slot hv).mp hs)).symm
  have hlookup := fun p hp => M.page_lookup hv p hp
  have htable := M.page_isTable hv
  have hsmall : ∀ i < cfg.kernel,
      l1 m'.mem w.pcb.pgtable i = 0 ∨ IsTable H (l1 m'.mem w.pcb.pgtable i) := by
    intro i hi
    rcases eq_or_ne i (l1pte_index v) with rfl | hne
    · exact .inr htable
    · rw [hslot i (lt_of_lt_of_le hi hn) hne]
      exact S.small i hi
  have hsect : ∀ i < 4096, NoSect H w.m.mem w.pcb.pgtable i → NoSect H m'.mem w.pcb.pgtable i := by
    intro i hi h
    rcases eq_or_ne i (l1pte_index v) with rfl | hne
    · exact htable.noSect
    · exact h.congr (hslot i hi hne)
  have hmaps : MapsOwn H cfg m'.mem w.pcb.pgtable (w.pcb.page_list ++ [f]) := by
    intro p hp q hq
    rw [hlookup p (by omega)] at hq
    split at hq
    · rw [← Option.some.inj hq, frameAt_div hf]
      exact .inl (List.mem_append_right _ List.mem_cons_self)
    · exact (S.maps p hp q hq).imp_left fun h => List.mem_append_left _ h
  have hframes : FramesOk (w.pcb.page_list ++ [f] ++ G) m'
      (Function.update w.refcount f (w.refcount f + 1)) := by
    have hnew : f ∉ w.pcb.page_list ++ G := fun h =>
      F.notMem (by decide) .frames (S.frames.mem_live.mpr h)
    have htrace : onPool .frames m'.trace =
        .alloc .frames ⟨f, PAGE_SIZE⟩ :: onPool .frames w.m.trace :=
      (M.ext.onPool_eq (by decide)).trans ((onPool_cons _ _ _).trans (if_pos rfl))
    have L := Ledger.alloc S.frames hnew
    rw [← htrace] at L
    refine L.perm ?_
    rw [List.append_assoc, List.singleton_append]
    exact List.perm_middle.symm
  have hgrows : Grows H cfg w.pcb.pgtable w.m m' := by
    refine ⟨(Q.confined S.tables).trans M.ext.confined, hsect, fun hsize I => ?_⟩
    exact M.ext.intact ⟨List.mem_cons_of_mem _ I.live, I.eqOn⟩ hsize
  have htree : Tree H cfg m' w.pcb.pgtable :=
    ⟨S.ne_zero, M.ext.tables, hsmall, hsect _ (l1pte_index_lt _) S.window⟩
  exact ⟨⟨htree, hmaps, hframes⟩, hgrows, rfl, hlookup, hf⟩

/-- Page `i` of a range. -/
def pageAt (v : Word) (i : Nat) : Word := v + BitVec.ofNat 32 (i * PAGE_SIZE)

theorem pageAt_dvd (hv : 4096 ∣ v.toNat) (i : Nat) : 4096 ∣ (pageAt v i).toNat := by
  rw [pageAt, BitVec.toNat_add, BitVec.toNat_ofNat, PAGE_SIZE]
  omega

theorem allocatePage_spec (hn : cfg.kernel ≤ 4096) (hv : 4096 ∣ v.toNat)
    (hs : NoSect H w.m.mem w.pcb.pgtable (l1pte_index (pageAt v i))) (S : Space H cfg G w) :
    wp (allocatePage H al v i w) (fun w' => ∃ f, NewFrame H cfg G (pageAt v i) w f w')
      (· = .noMemory) := by
  have hv' := pageAt_dvd hv i
  unfold allocatePage Machine.get_free_page
  cases hf : al.get_free_page w.m.trace with
  | none => exact wp_throw.mpr rfl
  | some f =>
    have F : Fresh (live w.m.trace) f PAGE_SIZE PAGE_SIZE := al.get_free_page_fresh hf
    have Q := Quiet.alloc S.tables.blocks F .frames
    simp only [pure_bind]
    refine wp.bind (create_mapping_page hv' (Q.tables S.tables) S.ne_zero hs) ?_
    exact fun m' M => wp_pure.mpr ⟨f, newFrame_of_mapped hn hv' S F M⟩

/-- Frames have been given to the process, and mapped in its user area. -/
structure Allocated (H : Header) (cfg : Config) (G : List Word) (w w' : Work) : Prop where
  space : Space H cfg G w'
  grows : Grows H cfg w.pcb.pgtable w.m w'.m
  pcb : ∃ F, w'.pcb = { w.pcb with page_list := w.pcb.page_list ++ F }

theorem Allocated.refl (S : Space H cfg G w) : Allocated H cfg G w w :=
  ⟨S, Grows.refl S.tables, [], by rw [List.append_nil]⟩

theorem Allocated.trans {w'' : Work} (A : Allocated H cfg G w w') (A' : Allocated H cfg G w' w'') :
    Allocated H cfg G w w'' := by
  obtain ⟨F, hF⟩ := A.pcb
  obtain ⟨F', hF'⟩ := A'.pcb
  have hgrows := A'.grows
  rw [hF] at hgrows hF'
  exact ⟨A'.space, A.grows.trans hgrows, F ++ F', by rw [hF', List.append_assoc]⟩

theorem NewFrame.allocated (N : NewFrame H cfg G v w f w') : Allocated H cfg G w w' :=
  ⟨N.space, N.grows, [f], N.pcb⟩

/-- No page of the range lies in a slot that holds a section. -/
def Unsectioned (H : Header) (mem : Memory) (root v nr_pages : Word) : Prop :=
  ∀ i < nr_pages.toInt.toNat, NoSect H mem root (l1pte_index (pageAt v i))

theorem Allocated.unsectioned (A : Allocated H cfg G w w')
    (h : Unsectioned H w.m.mem w.pcb.pgtable v nr_pages) :
    Unsectioned H w'.m.mem w'.pcb.pgtable v nr_pages := by
  obtain ⟨F, hF⟩ := A.pcb
  rw [hF]
  exact fun i hi => A.grows.noSect _ (l1pte_index_lt _) (h i hi)

theorem allocate_page_spec (hn : cfg.kernel ≤ 4096) (hv : 4096 ∣ v.toNat) (S : Space H cfg G w)
    (hs : Unsectioned H w.m.mem w.pcb.pgtable v nr_pages) :
    wp (allocate_page H al w v nr_pages) (Allocated H cfg G w) (· = .noMemory) := by
  refine wp_forLoop (fun _ => Allocated H cfg G w) ?_ (Allocated.refl S)
  intro i w1 hi A
  refine (allocatePage_spec hn hv (A.unsectioned hs i hi) A.space).mono ?_
  exact fun w2 ⟨f, N⟩ => A.trans N.allocated

/-- A range of one page. -/
theorem allocate_page_one (hn : cfg.kernel ≤ 4096) (hv : 4096 ∣ v.toNat) (S : Space H cfg G w)
    (hs : NoSect H w.m.mem w.pcb.pgtable (l1pte_index v)) :
    wp (allocate_page H al w v 1) (fun w' => ∃ f, NewFrame H cfg G v w f w') (· = .noMemory) := by
  have hpage : pageAt v 0 = v := BitVec.add_zero v
  refine wp.bind (allocatePage_spec hn hv (hpage.symm ▸ hs) S) fun w' hw' => wp_pure.mpr ?_
  rwa [hpage] at hw'

/-! ## `release_proc_pages` -/

/-- The frames of the process have been given back, and nothing else has happened. -/
structure GivenBack (G : List Word) (w w' : Work) : Prop where
  mem : w'.m.mem = w.m.mem
  quiet : Quiet w.m w'.m
  heap : ∀ r, (.heap, r) ∈ live w.m.trace → (.heap, r) ∈ live w'.m.trace
  frames : FramesOk G w'.m w'.refcount

/-- A frame with one owner goes back at once. -/
theorem releasePage_spec (B : BlocksOk (live w.m.trace)) {F : List Word}
    (L : FramesOk (f :: F) w.m w.refcount) :
    GivenBack F w (w.releasePage f) ∧ (w.releasePage f).pcb = w.pcb := by
  have hlive : (.frames, ⟨f, PAGE_SIZE⟩) ∈ live w.m.trace := L.mem_live.mpr List.mem_cons_self
  have hzero : w.refcount f - 1 = 0 := Nat.sub_eq_zero_of_le (Ledger.count_le L f)
  have hm : (w.releasePage f).m = w.m.free_page f := by
    rw [Work.releasePage, Function.update_self]
    exact if_pos hzero
  refine ⟨⟨by rw [hm]; rfl, ?_, fun r hr => ?_, ?_⟩, rfl⟩
  · rw [hm]
    exact Quiet.free B hlive (by decide)
  · rw [hm]
    exact mem_live_free.mpr ⟨hr, nofun⟩
  · have htrace : onPool .frames (w.m.free_page f).trace =
        .free .frames f :: onPool .frames w.m.trace := (onPool_cons _ _ _).trans (if_pos rfl)
    rw [FramesOk, hm, htrace]
    exact Ledger.free L

theorem releasePages_spec (B : BlocksOk (live w.m.trace)) (F : List Word)
    (L : FramesOk (F ++ G) w.m w.refcount) :
    GivenBack G w (F.foldl Work.releasePage w) ∧ (F.foldl Work.releasePage w).pcb = w.pcb := by
  induction F generalizing w with
  | nil => exact ⟨⟨rfl, Quiet.refl B, fun _ hr => hr, L⟩, rfl⟩
  | cons f F ih =>
    obtain ⟨R, hpcb⟩ := releasePage_spec B L
    obtain ⟨R', hpcb'⟩ := ih R.quiet.blocks R.frames
    rw [List.foldl_cons]
    exact ⟨⟨R'.mem.trans R.mem, R.quiet.trans R'.quiet, fun r hr => R'.heap r (R.heap r hr),
      R'.frames⟩, hpcb'.trans hpcb⟩

theorem release_proc_pages_spec (B : BlocksOk (live w.m.trace))
    (L : FramesOk (w.pcb.page_list ++ G) w.m w.refcount) :
    GivenBack G w w.release_proc_pages ∧
      w.release_proc_pages.pcb = { w.pcb with page_list := [] } := by
  obtain ⟨R, hpcb⟩ := releasePages_spec B w.pcb.page_list L
  refine ⟨⟨R.mem, R.quiet, R.heap, R.frames⟩, ?_⟩
  rw [Work.release_proc_pages, hpcb]

end SyeLabs.Kernel
