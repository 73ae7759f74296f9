import SyeLabs.Mmu.Beside
import SyeLabs.Kernel.Image

/-!
# The user space of a child

`duplicate_user_space` maps each new frame at `FIXMAP_MAPPING` in the table of the parent, which
is the current one, and copies the page of the parent through this window. The child ends up with
the pages of the parent, each in a frame of its own.
-/

namespace SyeLabs.Kernel

open Mmu

/-- The first byte of frame `q`. -/
def frameAt (q : Nat) : Word := BitVec.ofNat 32 (q * 4096)

def frameRegion (q : Nat) : Region := ⟨frameAt q, PAGE_SIZE⟩

/-- The window lies outside the user area. -/
structure Config.FixmapOk (cfg : Config) : Prop where
  aligned : 4096 ∣ cfg.FIXMAP_MAPPING.toNat
  above : cfg.kernel ≤ l1pte_index cfg.FIXMAP_MAPPING

/-- A parent whose user area consists of small pages, at least one, in frames that are in use. -/
structure Parent (H : Header) (cfg : Config) (m : Machine) (parent : Word) : Prop where
  current : m.current_pgtable = parent
  ne_zero : parent ≠ 0
  tables : TablesOk H m parent
  root : (.heap, rootRegion parent) ∈ live m.trace
  small : ∀ i < cfg.kernel, l1 m.mem parent i = 0 ∨ IsTable H (l1 m.mem parent i)
  mapped : ∃ p < cfg.kernel * 256, (lookup H m.mem parent p).isSome
  frames : ∀ p < cfg.kernel * 256, ∀ q, lookup H m.mem parent p = some q →
    ∃ pool r, (pool, r) ∈ live m.trace ∧ pool ≠ .heap ∧ frameRegion q ⊆ r
  /-- The slot of the window does not hold a section. -/
  window : H.l1pte_is_sect (l1 m.mem parent (l1pte_index cfg.FIXMAP_MAPPING)) = false ∨
    l1 m.mem parent (l1pte_index cfg.FIXMAP_MAPPING) = 0

/-- A fresh child: the user area of its table is empty. -/
structure Child (H : Header) (cfg : Config) (m : Machine) (parent child : Word) : Prop where
  ne_parent : parent ≠ child
  tables : TablesOk H m child
  root : (.heap, rootRegion child) ∈ live m.trace
  empty : ∀ i < cfg.kernel, l1 m.mem child i = 0
  apart : Apart H m.mem cfg.kernel child parent

/-- A slot of the user area, or that of the window: no two processes share its table. -/
def Config.OwnSlot (cfg : Config) (i : Nat) : Prop :=
  i < cfg.kernel ∨ i = l1pte_index cfg.FIXMAP_MAPPING

variable {H : Header} {al : Allocators} {cfg : Config} {m m' m₀ : Machine} {parent child : Word}
  {pool : Pool} {r : Region} {i j k p q : Nat} {f v : Word}

/-! ## Blocks that are no tables -/

/-- A block outside the heap is neither a root table nor a second-level one. -/
theorem ne_of_pool_ne (B : BlocksOk (live m.trace)) {r' : Region}
    (hr : (pool, r) ∈ live m.trace) (hr' : (.heap, r') ∈ live m.trace) (hpool : pool ≠ .heap) :
    r ≠ r' := by
  rintro rfl
  have hmem := Region.base_mem (B.pos _ hr)
  exact hpool (congrArg Prod.fst (B.eq_of_mem hr hr' hmem hmem))

theorem Extends.eqOn_data {root : Word} {S : Nat → Prop} (E : Extends H root S m m')
    (B : BlocksOk (live m.trace)) (hroot : (.heap, rootRegion root) ∈ live m.trace)
    (hr : (pool, r) ∈ live m.trace) (hpool : pool ≠ .heap) : m.mem.EqOn m'.mem r :=
  E.eqOn_live hr (ne_of_pool_ne B hr hroot hpool) fun _ _ _ h => hpool (congrArg Prod.fst h)

theorem Config.FixmapOk.kernel_le (hfix : cfg.FixmapOk) : cfg.kernel ≤ 4096 :=
  hfix.above.trans (l1pte_index_lt _).le

/-! ## The two trees -/

/-- What holds of the two trees at every moment; `m₀` is the machine at the start. -/
structure Pair (H : Header) (cfg : Config) (m₀ : Machine) (parent child : Word) (m : Machine) :
    Prop where
  current : m.current_pgtable = parent
  parent_tables : TablesOk H m parent
  parent_root : (.heap, rootRegion parent) ∈ live m.trace
  child_tables : TablesOk H m child
  child_root : (.heap, rootRegion child) ∈ live m.trace
  apart : Apart H m.mem cfg.kernel parent child
  apart' : Apart H m.mem cfg.kernel child parent
  window : H.l1pte_is_sect (l1 m.mem parent (l1pte_index cfg.FIXMAP_MAPPING)) = false ∨
    l1 m.mem parent (l1pte_index cfg.FIXMAP_MAPPING) = 0
  same : SameSlots H cfg.kernel parent m₀.mem m.mem
  /-- The window is the only page of the parent that is mapped anew. -/
  others : ∀ p < 2 ^ 20, p ≠ cfg.FIXMAP_MAPPING.toNat / 4096 →
    lookup H m.mem parent p = lookup H m₀.mem parent p
  live_sub : live m₀.trace ⊆ live m.trace
  data : ∀ pool r, (pool, r) ∈ live m₀.trace → pool ≠ .heap → m₀.mem.EqOn m.mem r
  beside : Beside H cfg.OwnSlot parent child m₀ → Beside H cfg.OwnSlot parent child m
  /-- A tree beside the two. -/
  third : ∀ c, Beside H cfg.OwnSlot parent c m₀ → Beside H cfg.OwnSlot child c m₀ →
    Beside H cfg.OwnSlot parent c m ∧ Beside H cfg.OwnSlot child c m ∧
      Stays H cfg.OwnSlot c m₀.mem m.mem
  child_small : ∀ i < cfg.kernel, l1 m.mem child i = 0 ∨ IsTable H (l1 m.mem child i)
  child_entries : ∀ i, cfg.kernel ≤ i → i < 4096 → l1 m₀.mem child i = l1 m.mem child i
  sys_root : m.sys_root_pgtable = m₀.sys_root_pgtable

section
variable (C : Pair H cfg m₀ parent child m) (hfix : cfg.FixmapOk) (hne : parent ≠ child)
include C

omit C in
theorem Pair.first (P : Parent H cfg m parent) (C : Child H cfg m parent child) :
    Pair H cfg m parent child m where
  current := P.current
  parent_tables := P.tables
  parent_root := P.root
  child_tables := C.tables
  child_root := C.root
  apart i hi _ _ ht := absurd (C.empty i hi ▸ ht) not_isTable_zero
  apart' := C.apart
  window := P.window
  same := SameSlots.refl _
  others _ _ _ := rfl
  live_sub _ h := h
  data _ _ _ _ _ _ := rfl
  beside B := B
  third _ B B' := ⟨B, B', Stays.refl _⟩
  child_small i hi := .inl (C.empty i hi)
  child_entries _ _ _ := rfl
  sys_root := rfl

/-- A page frame is taken. -/
theorem Pair.alloc (F : Fresh (live m.trace) f PAGE_SIZE PAGE_SIZE) :
    Pair H cfg m₀ parent child { m with trace := .alloc .frames ⟨f, PAGE_SIZE⟩ :: m.trace } := by
  have Q := Quiet.alloc C.parent_tables.blocks F .frames
  have hsub : live m.trace ⊆ (.frames, ⟨f, PAGE_SIZE⟩) :: live m.trace := List.subset_cons_self _ _
  refine ⟨C.current, Q.tables C.parent_tables, hsub C.parent_root, Q.tables C.child_tables,
    hsub C.child_root, C.apart, C.apart', C.window, C.same, C.others,
    fun _ h => hsub (C.live_sub h), C.data, fun B => ?_, fun c hp hc => ?_, C.child_small,
    C.child_entries, C.sys_root⟩
  · exact ((Q.confined C.parent_tables).beside child (C.beside B)).1
  · obtain ⟨B, B', h⟩ := C.third c hp hc
    exact ⟨((Q.confined C.parent_tables).beside c B).1, ((Q.confined C.child_tables).beside c B').1,
      h⟩

include hne in
/-- The window is moved. -/
theorem Pair.mapWindow (hfix : cfg.FixmapOk)
    (M : Mapped H parent (Request.page cfg.FIXMAP_MAPPING f) m m') :
    Pair H cfg m₀ parent child m' := by
  have hn := hfix.kernel_le
  have hS : ∀ i < cfg.kernel, ¬(Request.page cfg.FIXMAP_MAPPING f).slot i := by
    intro i hi hs
    rw [Request.page_slot hfix.aligned] at hs
    have := hfix.above
    omega
  constructor
  case current => exact M.ext.current.trans C.current
  case parent_tables => exact M.ext.tables
  case parent_root => exact M.ext.live_sub C.parent_root
  case child_tables => exact M.ext.other_tables C.child_tables hne
  case child_root => exact M.ext.live_sub C.child_root
  case apart => exact M.ext.apart_left C.child_tables hne hn C.apart
  case apart' => exact M.ext.apart_right C.child_tables hne hn C.apart'
  case window =>
    have hslot : (Request.page cfg.FIXMAP_MAPPING f).slot (l1pte_index cfg.FIXMAP_MAPPING) :=
      (Request.page_slot hfix.aligned).mpr rfl
    left
    rw [← Bool.not_eq_true, M.sect _ hslot]
    exact Request.page_not_sect (Request.page_range hfix.aligned) hslot
  case same => exact C.same.trans (M.ext.touched.sameSlots M.ext.tables hn hS)
  case others =>
    intro p hp hne
    rw [M.page_lookup hfix.aligned p hp, if_neg hne]
    exact C.others p hp hne
  case live_sub => exact fun _ h => M.ext.live_sub (C.live_sub h)
  case data =>
    intro pool r hr hpool
    exact (C.data pool r hr hpool).trans (Extends.eqOn_data M.ext C.parent_tables.blocks
      C.parent_root (C.live_sub hr) hpool)
  case beside => exact fun B => M.ext.beside (C.beside B)
  case third =>
    intro c hp hc
    obtain ⟨B, B', h⟩ := C.third c hp hc
    have h' := M.ext.stays B
    refine ⟨M.ext.beside B, B'.of_entries (M.ext.other_tables B.tables B.ne) ?_ h'.entries,
      h.trans h'⟩
    exact fun _ hi => M.ext.other_l1 C.child_tables hne hi
  case child_small =>
    intro i hi
    rw [← M.ext.other_l1 C.child_tables hne (lt_of_lt_of_le hi hn)]
    exact C.child_small i hi
  case child_entries =>
    intro i hin hi
    rw [C.child_entries i hin hi]
    exact M.ext.other_l1 C.child_tables hne hi
  case sys_root => exact M.ext.sys_root.trans C.sys_root

include hne in
/-- A step on the tree of the child. -/
theorem Pair.childStep (hn : cfg.kernel ≤ 4096) {S : Nat → Prop} (E : Extends H child S m m')
    (hS : SameSlots H 4096 parent m.mem m'.mem)
    (hslot : ∀ i, S i → i < cfg.kernel ∧ IsTable H (l1 m'.mem child i)) :
    Pair H cfg m₀ parent child m' := by
  constructor
  case current => exact E.current.trans C.current
  case parent_tables => exact E.other_tables C.parent_tables hne.symm
  case parent_root => exact E.live_sub C.parent_root
  case child_tables => exact E.tables
  case child_root => exact E.live_sub C.child_root
  case apart => exact E.apart_right C.parent_tables hne.symm hn C.apart
  case apart' => exact E.apart_left C.parent_tables hne.symm hn C.apart'
  case window =>
    rw [← E.other_l1 C.parent_tables hne.symm (l1pte_index_lt _)]
    exact C.window
  case same => exact C.same.trans fun i hi => hS i (lt_of_lt_of_le hi hn)
  case others =>
    intro p hp hne
    rw [← hS.lookup_eq (by omega)]
    exact C.others p hp hne
  case live_sub => exact fun _ h => E.live_sub (C.live_sub h)
  case data =>
    intro pool r hr hpool
    exact (C.data pool r hr hpool).trans (Extends.eqOn_data E C.child_tables.blocks
      C.child_root (C.live_sub hr) hpool)
  case beside => exact fun B => (E.beside ((C.beside B).symm C.parent_tables)).symm E.tables
  case third =>
    intro c hp hc
    obtain ⟨B, B', h⟩ := C.third c hp hc
    have h' := E.stays B'
    refine ⟨B.of_entries (E.other_tables B'.tables B'.ne) ?_ h'.entries, E.beside B', h.trans h'⟩
    exact fun i hi => (hS i hi).1
  case child_small =>
    intro i hi
    by_cases hs : S i
    · exact .inr (hslot i hs).2
    · rw [← E.touched.l1_eq E.tables (lt_of_lt_of_le hi hn) hs]
      exact C.child_small i hi
  case child_entries =>
    intro i hin hi
    rw [C.child_entries i hin hi]
    exact E.touched.l1_eq E.tables hi fun hs => absurd (hslot i hs).1 (Nat.not_lt.mpr hin)
  case sys_root => exact E.sys_root.trans C.sys_root

/-- A write to a page frame that was free at the start. -/
theorem Pair.frameWrite (hn : cfg.kernel ≤ 4096) {mem' : Memory}
    (hf : (.frames, ⟨f, PAGE_SIZE⟩) ∈ live m.trace)
    (hfresh : ∀ b ∈ live m₀.trace, (⟨f, PAGE_SIZE⟩ : Region).Disjoint b.2)
    (hw : m.mem.EqOff mem' ⟨f, PAGE_SIZE⟩) :
    Pair H cfg m₀ parent child { m with mem := mem' } := by
  have Q := Quiet.write C.parent_tables.blocks hf rfl hw
  have hP := Q.entries C.parent_tables
  have hC := Q.entries C.child_tables
  have hS := Q.sameSlots C.parent_tables
  constructor
  case current => exact C.current
  case parent_tables => exact Q.tables C.parent_tables
  case parent_root => exact C.parent_root
  case child_tables => exact Q.tables C.child_tables
  case child_root => exact C.child_root
  case apart => exact C.apart.of_entries hn hP hC
  case apart' => exact C.apart'.of_entries hn hC hP
  case window =>
    rw [← (hS _ (l1pte_index_lt _)).1]
    exact C.window
  case same => exact C.same.trans fun i hi => hS i (lt_of_lt_of_le hi hn)
  case others =>
    intro p hp hne
    rw [← hS.lookup_eq (by omega)]
    exact C.others p hp hne
  case live_sub => exact C.live_sub
  case data =>
    intro pool r hr hpool
    exact (C.data pool r hr hpool).trans (hw.eqOn (hfresh _ hr).symm)
  case beside => exact fun B => ((Q.confined C.parent_tables).beside child (C.beside B)).1
  case third =>
    intro c hp hc
    obtain ⟨B, B', h⟩ := C.third c hp hc
    obtain ⟨B1, h1⟩ := (Q.confined C.parent_tables).beside c B
    exact ⟨B1, ((Q.confined C.child_tables).beside c B').1, h.trans h1⟩
  case child_small =>
    intro i hi
    rw [← hC i (lt_of_lt_of_le hi hn)]
    exact C.child_small i hi
  case child_entries => exact fun i hin hi => (C.child_entries i hin hi).trans (hC i hi)
  case sys_root => exact C.sys_root

end
/-! ## Pages and their addresses -/

theorem frameAt_div {f : Word} (hf : 4096 ∣ f.toNat) : frameAt (f.toNat / 4096) = f := by
  rw [frameAt, Nat.div_mul_cancel hf, BitVec.ofNat_toNat, BitVec.setWidth_eq]

/-- A page that is mapped is translated in one piece. -/
theorem translate_add {mem : Memory} {root : Word} (hv : 4096 ∣ v.toNat)
    (h : lookup H mem root (v.toNat / 4096) = some q) (hk : k < PAGE_SIZE) :
    translate H root mem (v + BitVec.ofNat 32 k) = some (frameAt q + BitVec.ofNat 32 k) := by
  unfold PAGE_SIZE at hk
  have hlt := v.isLt
  have hsum : (v + BitVec.ofNat 32 k).toNat = v.toNat + k := by
    rw [BitVec.toNat_add, BitVec.toNat_ofNat]
    omega
  have hpage : (v.toNat + k) / 4096 = v.toNat / 4096 := by omega
  have hoff : (v.toNat + k) % 4096 = k := by omega
  rw [translate_eq, hsum, hpage, hoff, h, Option.map_some, frameAt, ← BitVec.ofNat_add]

/-- It stays so, whatever is written to a page of data. -/
theorem translate_write {mem' : Memory} {root : Word} (T : TablesOk H m root)
    (hr : (pool, r) ∈ live m.trace) (hsize : r.size = PAGE_SIZE) (hw : m.mem.EqOff mem' r)
    (hv : 4096 ∣ v.toNat) (h : lookup H m.mem root (v.toNat / 4096) = some q)
    (hk : k < PAGE_SIZE) :
    translate H root mem' (v + BitVec.ofNat 32 k) = some (frameAt q + BitVec.ofNat 32 k) := by
  refine translate_add hv ?_ hk
  rw [← (T.page_sameSlots hr hsize hw).lookup_eq (page_l1 v ▸ l1pte_index_lt v)]
  exact h

theorem pte_index_to_vaddr_toNat (hi : i < 4096) (hj : j < 256) :
    (pte_index_to_vaddr i j).toNat = (i * 256 + j) * 4096 := by
  rw [pte_index_to_vaddr, BitVec.toNat_ofNat]
  omega

/-! ## One page -/

/-- The pages below `n` that the parent maps. -/
def mappedBelow (H : Header) (mem : Memory) (parent : Word) (n : Nat) : List Nat :=
  (List.range n).filter fun p => (lookup H mem parent p).isSome

theorem mappedBelow_succ (mem : Memory) (parent : Word) (n : Nat) :
    mappedBelow H mem parent (n + 1) = mappedBelow H mem parent n ++
      if (lookup H mem parent n).isSome then [n] else [] := by
  rw [mappedBelow, List.range_succ, List.filter_append, List.filter_singleton, Bool.cond_eq_ite]
  rfl

/-- The pages below `n` have been copied, into the frames `F`. -/
structure Copied (H : Header) (cfg : Config) (w₀ : Work) (parent : Word) (n : Nat) (F : List Word)
    (w : Work) : Prop where
  pair : Pair H cfg w₀.m parent w₀.pcb.pgtable w.m
  pcb : w.pcb = { w₀.pcb with page_list := w₀.pcb.page_list ++ F }
  refcount : ∀ x, w.refcount x = w₀.refcount x + F.count x
  history : onPool .frames w.m.trace =
    (F.map fun f => Event.alloc Pool.frames ⟨f, PAGE_SIZE⟩).reverse ++ onPool .frames w₀.m.trace
  nodup : F.Nodup
  frames : ∀ f ∈ F, 4096 ∣ f.toNat ∧ (.frames, ⟨f, PAGE_SIZE⟩) ∈ live w.m.trace ∧
    ∀ b ∈ live w₀.m.trace, (⟨f, PAGE_SIZE⟩ : Region).Disjoint b.2
  maps : (mappedBelow H w₀.m.mem parent n).map (lookup H w.m.mem w₀.pcb.pgtable) =
    F.map fun f => some (f.toNat / 4096)
  unmapped : ∀ p < cfg.kernel * 256, n ≤ p ∨ lookup H w₀.m.mem parent p = none →
    lookup H w.m.mem w₀.pcb.pgtable p = none
  window : F ≠ [] → IsTable H (l1 w.m.mem parent (l1pte_index cfg.FIXMAP_MAPPING))
  contents : ∀ p < n, ∀ q q', lookup H w₀.m.mem parent p = some q →
    lookup H w.m.mem w₀.pcb.pgtable p = some q' →
    ∀ k < PAGE_SIZE, w.m.mem (frameAt q' + BitVec.ofNat 32 k) =
      w₀.m.mem (frameAt q + BitVec.ofNat 32 k)

variable {w w₀ : Work} {n : Nat} {F : List Word}

/-- A page that the parent does not map. -/
theorem Copied.skip (D : Copied H cfg w₀ parent n F w)
    (hnone : lookup H w₀.m.mem parent n = none) : Copied H cfg w₀ parent (n + 1) F w := by
  obtain ⟨pair, pcb, refcount, history, nodup, frames, maps, unmapped, window, contents⟩ := D
  refine ⟨pair, pcb, refcount, history, nodup, frames, ?_, ?_, window, ?_⟩
  · rw [mappedBelow_succ, hnone, Option.isSome_none, if_neg Bool.false_ne_true, List.append_nil]
    exact maps
  · intro p hp h
    apply unmapped p hp
    by_cases hpn : p = n
    · exact .inl hpn.ge
    · exact h.imp (fun h => by omega) id
  · intro p hp q q' hq
    have hpn : p ≠ n := by
      rintro rfl
      exact absurd (hnone ▸ hq) nofun
    exact contents p (by omega) q q' hq

/-- The write of the entry of the child does not touch the tree of the parent. -/
theorem Pair.parent_same {mem' : Memory} (C : Pair H cfg m₀ parent child m)
    (hi : i < cfg.kernel) (hn : cfg.kernel ≤ 4096) (ht : IsTable H (l1 m.mem child i))
    (hw : m.mem.EqOff mem' (tableRegion (tableOf (l1 m.mem child i)))) :
    SameSlots H 4096 parent m.mem mem' := by
  have htable := C.child_tables.table_live i (lt_of_lt_of_le hi hn) ht
  refine SameSlots.of_eqOn le_rfl (hw.eqOn ?_) fun k hk htk => hw.eqOn ?_
  · refine C.parent_tables.blocks.disjoint C.parent_root htable fun h => ?_
    exact rootRegion_ne_tableRegion _ _ (congrArg Prod.snd h)
  · refine C.parent_tables.blocks.disjoint (C.parent_tables.table_live k hk htk) htable fun h => ?_
    exact C.apart i hi k hk ht htk (congrArg (fun x => x.2.base) h).symm

/-- Page `i * 256 + j` of the child has been set up in frame `f`, as a copy of frame `q`. -/
structure NewPage (H : Header) (cfg : Config) (m₀ : Machine) (parent child : Word) (i j q : Nat)
    (f : Word) (m m' : Machine) : Prop where
  pair : Pair H cfg m₀ parent child m'
  history : onPool .frames m'.trace = .alloc .frames ⟨f, PAGE_SIZE⟩ :: onPool .frames m.trace
  live_sub : (.frames, ⟨f, PAGE_SIZE⟩) :: live m.trace ⊆ live m'.trace
  l1_eq : ∀ k < cfg.kernel, l1 m'.mem child k = l1 m.mem child k
  lookup_eq : ∀ p < cfg.kernel * 256, lookup H m'.mem child p =
    if p = i * 256 + j then some (f.toNat / 4096) else lookup H m.mem child p
  window : IsTable H (l1 m'.mem parent (l1pte_index cfg.FIXMAP_MAPPING))
  copy : ∀ k < PAGE_SIZE,
    m'.mem (f + BitVec.ofNat 32 k) = m.mem (frameAt q + BitVec.ofNat 32 k)
  data : ∀ pool r, (pool, r) ∈ live m.trace → pool ≠ .heap → m.mem.EqOn m'.mem r

/-- From the moment when the window shows the new frame. -/
theorem newPage_of_window {m2 : Machine} (hfix : cfg.FixmapOk) (hne : parent ≠ child)
    (C : Pair H cfg m₀ parent child m) (F : Fresh (live m.trace) f PAGE_SIZE PAGE_SIZE)
    (M : Mapped H parent (Request.page cfg.FIXMAP_MAPPING f)
      { m with trace := .alloc .frames ⟨f, PAGE_SIZE⟩ :: m.trace } m2)
    (hi : i < cfg.kernel) (hj : j < 256) (ht : IsTable H (l1 m.mem child i))
    (hq : lookup H m.mem parent (i * 256 + j) = some q)
    (hsrc : (pool, r) ∈ live m.trace) (hpool : pool ≠ .heap) (hsub : frameRegion q ⊆ r) :
    ∃ mem4, (m2.mem.store (entry (tableOf (l1 m.mem child i)) j)
          (H.set_l2_pte_dcache f false)).memcpy (translate H parent) (translate H parent)
        cfg.FIXMAP_MAPPING (pte_index_to_vaddr i j) PAGE_SIZE = some mem4 ∧
      (m2.mem.store (entry (tableOf (l1 m.mem child i)) j)
          (H.set_l2_pte_dcache f false)).copyAt (translate H parent) (translate H parent)
        cfg.FIXMAP_MAPPING (pte_index_to_vaddr i j) PAGE_SIZE = some mem4 ∧
      NewPage H cfg m₀ parent child i j q f m { m2 with mem := mem4 } ∧
      SameSlots H 4096 parent m2.mem mem4 := by
  have hn := hfix.kernel_le
  have hi4 : i < 4096 := lt_of_lt_of_le hi hn
  have hf : 4096 ∣ f.toNat := F.aligned
  have hfq : f.toNat / 4096 < 2 ^ 20 := page_lt f
  -- the window
  have P1 := C.alloc F
  have P2 := P1.mapWindow hne hfix M
  have hl1 : ∀ k < 4096, l1 m.mem child k = l1 m2.mem child k := fun k hk =>
    M.ext.other_l1 P1.child_tables hne hk
  have hS2 : SameSlots H cfg.kernel child m.mem m2.mem :=
    M.ext.other_sameSlots P1.child_tables hne hn P1.apart
  -- the entry of the child
  rw [hl1 i hi4] at ht ⊢
  have hpte : H.set_l2_pte_dcache f false = pte H false (f.toNat / 4096) := by
    rw [pte]
    exact congrArg (H.set_l2_pte_dcache · false) (frameAt_div hf).symm
  generalize hmem3 : m2.mem.store (entry (tableOf (l1 m2.mem child i)) j)
    (H.set_l2_pte_dcache f false) = mem3
  have hoff3 : m2.mem.EqOff mem3 (tableRegion (tableOf (l1 m2.mem child i))) :=
    hmem3 ▸ (Memory.eqOff_store _ _ _).mono (entry_sub_table hj)
  obtain ⟨E3, hl1'⟩ := Extends.of_tableWrite P2.child_tables hi4 ht hoff3
  have hS3 := P2.parent_same hi hn ht hoff3
  have P3 := P2.childStep hne hn E3 hS3 fun k hk => hk ▸ ⟨hi, hl1' i hi4 ▸ ht⟩
  have hdata : ∀ pool r, (pool, r) ∈ live m.trace → pool ≠ .heap → m.mem.EqOn mem3 r := by
    intro pool r hr hpool
    have hr1 : (pool, r) ∈ (Pool.frames, (⟨f, PAGE_SIZE⟩ : Region)) :: live m.trace :=
      List.mem_cons_of_mem _ hr
    have h2 := Extends.eqOn_data M.ext P1.parent_tables.blocks P1.parent_root hr1 hpool
    exact h2.trans (Extends.eqOn_data E3 P2.child_tables.blocks P2.child_root
      (M.ext.live_sub hr1) hpool)
  -- the copy
  have hflive : (.frames, ⟨f, PAGE_SIZE⟩) ∈ live m2.trace := M.ext.live_sub List.mem_cons_self
  have hvaddr := pte_index_to_vaddr_toNat hi4 hj
  have hshown : lookup H mem3 parent (cfg.FIXMAP_MAPPING.toNat / 4096) =
      some (f.toNat / 4096) := by
    rw [← hS3.lookup_eq (page_l1 _ ▸ l1pte_index_lt _),
      M.page_lookup hfix.aligned _ (page_lt cfg.FIXMAP_MAPPING), if_pos rfl]
  have hdst : ∀ m', Memory.EqOff mem3 m' ⟨f, PAGE_SIZE⟩ → ∀ k < PAGE_SIZE,
      translate H parent m' (cfg.FIXMAP_MAPPING + BitVec.ofNat 32 k) =
        some (f + BitVec.ofNat 32 k) := by
    intro m' hm' k hk
    rw [translate_write P3.parent_tables hflive rfl hm' hfix.aligned hshown hk, frameAt_div hf]
  have hpage : lookup H mem3 parent ((pte_index_to_vaddr i j).toNat / 4096) = some q := by
    have hp : (i * 256 + j) / 256 < cfg.kernel := by omega
    rw [hvaddr, Nat.mul_div_cancel _ (by decide), ← hS3.lookup_eq (by omega),
      ← P2.same.lookup_eq hp, C.same.lookup_eq hp, hq]
  have hsource : ∀ m', Memory.EqOff mem3 m' ⟨f, PAGE_SIZE⟩ → ∀ k < PAGE_SIZE,
      translate H parent m' (pte_index_to_vaddr i j + BitVec.ofNat 32 k) =
        some (frameAt q + BitVec.ofNat 32 k) := fun m' hm' k hk =>
    translate_write P3.parent_tables hflive rfl hm' (hvaddr ▸ Nat.dvd_mul_left _ _) hpage hk
  have hdisj : (⟨f, PAGE_SIZE⟩ : Region).Disjoint ⟨frameAt q, PAGE_SIZE⟩ :=
    (F.apart _ hsrc).mono (fun _ h => h) hsub
  have hoff4 := Memory.eqOff_copy mem3 f (frameAt q) PAGE_SIZE
  have P4 := P3.frameWrite hn hflive (fun b hb => F.apart b (C.live_sub hb)) hoff4
  have hS4 := P3.child_tables.page_sameSlots hflive rfl hoff4
  have hparent := hS3.trans (P3.parent_tables.page_sameSlots hflive rfl hoff4)
  have hdst0 := hdst mem3 (fun _ _ => rfl) 0 (by decide)
  have hsource0 := hsource mem3 (fun _ _ => rfl) 0 (by decide)
  rw [BitVec.add_zero, BitVec.add_zero] at hdst0 hsource0
  refine ⟨_, Memory.memcpy_eq_copy hdst hsource hdisj (by decide),
    Memory.copyAt_eq_copy hdst0 hsource0, ⟨P4, ?_, M.ext.live_sub, ?_, ?_,
    ?_, ?_, ?_⟩, hparent⟩
  · exact (M.ext.onPool_eq (by decide)).trans ((onPool_cons _ _ _).trans (if_pos rfl))
  · intro k hk
    have hk4 := lt_of_lt_of_le hk hn
    rw [← (hS4 k hk4).1, hl1' k hk4, hl1 k hk4]
  · intro p hp
    have hp20 : p < 2 ^ 20 := by omega
    have hp256 : p / 256 < cfg.kernel := by omega
    rw [← hS4.lookup_eq (by omega), ← hmem3, hpte,
      lookup_setPte P2.child_tables hi4 ht hj hfq hp20, hS2.lookup_eq hp256]
  · rw [← (hparent _ (l1pte_index_lt _)).1]
    exact M.page_isTable hfix.aligned
  · intro k hk
    refine (Memory.copy_apply k hk (by decide)).trans ?_
    exact (hdata pool r hsrc hpool _ (hsub _ (Region.mem_add hk (by decide)))).symm
  · intro pool r hr hpool
    exact (hdata pool r hr hpool).trans (hoff4.eqOn (F.apart _ hr).symm)

theorem mem_mappedBelow {mem : Memory} :
    p ∈ mappedBelow H mem parent n ↔ p < n ∧ (lookup H mem parent p).isSome := by
  rw [mappedBelow, List.mem_filter, List.mem_range]

/-- The frame of a page that has been copied. -/
theorem Copied.frame (D : Copied H cfg w₀ parent n F w) (hp : p < n) {q' : Nat}
    (hq : lookup H w₀.m.mem parent p = some q)
    (hq' : lookup H w.m.mem w₀.pcb.pgtable p = some q') : frameAt q' ∈ F := by
  have hmem : some q' ∈ F.map fun f => some (f.toNat / 4096) := by
    rw [← D.maps, ← hq']
    refine List.mem_map_of_mem (mem_mappedBelow.mpr ⟨hp, ?_⟩)
    rw [hq, Option.isSome_some]
  obtain ⟨f, hf, heq⟩ := List.mem_map.mp hmem
  rw [← Option.some.inj heq, frameAt_div (D.frames f hf).1]
  exact hf

/-- A page that the parent maps. -/
theorem Copied.copy (D : Copied H cfg w₀ parent n F w) (P : Parent H cfg w₀.m parent)
    (hn : n = i * 256 + j) (hi : i < cfg.kernel) (hj : j < 256)
    (hq : lookup H w₀.m.mem parent n = some q)
    (Fr : Fresh (live w.m.trace) f PAGE_SIZE PAGE_SIZE)
    (N : NewPage H cfg w₀.m parent w₀.pcb.pgtable i j q f w.m m') :
    Copied H cfg w₀ parent (n + 1) (F ++ [f]) ({ w with m := m' }.add_page_to_proc f) := by
  have hlt : n < cfg.kernel * 256 := by omega
  have hlookup : ∀ p < cfg.kernel * 256, p ≠ n →
      lookup H m'.mem w₀.pcb.pgtable p = lookup H w.m.mem w₀.pcb.pgtable p := by
    intro p hp hpn
    rw [N.lookup_eq p hp, if_neg (hn ▸ hpn)]
  have hnew : lookup H m'.mem w₀.pcb.pgtable n = some (f.toNat / 4096) := by
    rw [N.lookup_eq n hlt, if_pos hn]
  constructor
  case pair => exact N.pair
  case pcb =>
    change { w.pcb with page_list := w.pcb.page_list ++ [f] } = _
    rw [D.pcb, List.append_assoc]
  case refcount =>
    intro x
    change Function.update w.refcount f (w.refcount f + 1) x = _
    rw [List.count_append, List.count_singleton]
    by_cases hx : x = f
    · subst hx
      rw [Function.update_self, D.refcount, beq_self_eq_true, if_pos rfl, Nat.add_assoc]
    · rw [Function.update_of_ne hx, D.refcount, beq_eq_false_iff_ne.mpr (Ne.symm hx),
        if_neg Bool.false_ne_true, Nat.add_zero]
  case history =>
    rw [List.map_append, List.reverse_append]
    exact N.history.trans (congrArg _ D.history)
  case nodup =>
    refine List.nodup_append.mpr ⟨D.nodup, List.nodup_singleton f, fun a ha b hb => ?_⟩
    rw [List.mem_singleton.mp hb]
    rintro rfl
    exact Fr.notMem (by decide) .frames (D.frames a ha).2.1
  case frames =>
    intro a ha
    rcases List.mem_append.mp ha with ha | ha
    · obtain ⟨hal, hlive, hdisj⟩ := D.frames a ha
      exact ⟨hal, N.live_sub (List.mem_cons_of_mem _ hlive), hdisj⟩
    · rw [List.mem_singleton.mp ha]
      exact ⟨Fr.aligned, N.live_sub List.mem_cons_self,
        fun b hb => Fr.apart b (D.pair.live_sub hb)⟩
  case maps =>
    rw [mappedBelow_succ, hq, Option.isSome_some, if_pos rfl, List.map_append, List.map_append,
      ← D.maps, List.map_singleton, List.map_singleton]
    congr 1
    · refine List.map_congr_left fun p hp => ?_
      have hpn := (mem_mappedBelow.mp hp).1
      exact hlookup p (by omega) (by omega)
    · exact congrArg (· :: []) hnew
  case unmapped =>
    intro p hp h
    have hpn : p ≠ n := by
      rintro rfl
      rcases h with h | h
      · omega
      · exact absurd (hq ▸ h) nofun
    exact (hlookup p hp hpn).trans (D.unmapped p hp (h.imp (fun h => by omega) id))
  case window => exact fun _ => N.window
  case contents =>
    intro p hp a b ha hb k hk
    by_cases hpn : p = n
    · subst hpn
      obtain ⟨pool, r, hr, hpool, hsub⟩ := P.frames p hlt q hq
      obtain rfl : a = q := Option.some.inj (ha.symm.trans hq)
      obtain rfl : b = f.toNat / 4096 := Option.some.inj (hb.symm.trans hnew)
      rw [frameAt_div Fr.aligned]
      refine (N.copy k hk).trans ?_
      exact (D.pair.data pool r hr hpool _ (hsub _ (Region.mem_add hk (by decide)))).symm
    · have hp' : p < n := by omega
      have hb' : lookup H w.m.mem w₀.pcb.pgtable p = some b :=
        (hlookup p (by omega) hpn).symm.trans hb
      have hlive := (D.frames _ (D.frame hp' ha hb')).2.1
      rw [← D.contents p hp' a b ha hb' k hk]
      exact (N.data .frames _ hlive (by decide) _ (Region.mem_add hk (by decide))).symm

/-! ## The two loops -/

section
variable (hfix : cfg.FixmapOk) (hne : parent ≠ w₀.pcb.pgtable) (P : Parent H cfg w₀.m parent)
include hfix hne P

/-- Where the inner loop stands: slot `i` of the child has the table `t`. -/
def InSlot (H : Header) (cfg : Config) (w₀ : Work) (parent : Word) (i : Nat) (t : Word) (j : Nat)
    (w : Work) : Prop :=
  (∃ F, Copied H cfg w₀ parent (i * 256 + j) F w) ∧ IsTable H (l1 w.m.mem w₀.pcb.pgtable i) ∧
    tableOf (l1 w.m.mem w₀.pcb.pgtable i) = t

/-- Page `i * 256 + j` of the parent, in frame `q`, has been copied to frame `f`; `m` is the machine
when the window shows this frame. -/
structure PageCopied (H : Header) (al : Allocators) (cfg : Config) (w₀ : Work) (parent : Word)
    (i j : Nat) (w : Work) (q : Nat) (f : Word) (m : Machine) (w' : Work) : Prop where
  page : lookup H w₀.m.mem parent (i * 256 + j) = some q
  fresh : Fresh (live w.m.trace) f PAGE_SIZE PAGE_SIZE
  shown : create_mapping H al { w.m with trace := .alloc .frames ⟨f, PAGE_SIZE⟩ :: w.m.trace }
    parent cfg.FIXMAP_MAPPING f (BitVec.ofNat 32 PAGE_SIZE) false = .ok m
  mapped : Mapped H parent (Request.page cfg.FIXMAP_MAPPING f)
    { w.m with trace := .alloc .frames ⟨f, PAGE_SIZE⟩ :: w.m.trace } m
  newPage : NewPage H cfg w₀.m parent w₀.pcb.pgtable i j q f w.m w'.m
  parent_slots : SameSlots H 4096 parent m.mem w'.m.mem
  trace : w'.m.trace = m.trace
  work : w' = { w with m := w'.m }.add_page_to_proc f

theorem duplicatePage_cases (hi : i < cfg.kernel) (hj : j < 256)
    (hsmall : IsTable H (l1 w₀.m.mem parent i)) (D : Copied H cfg w₀ parent (i * 256 + j) F w)
    (ht : IsTable H (l1 w.m.mem w₀.pcb.pgtable i)) :
    wp (duplicatePage H al cfg i (tableOf (l1 w₀.m.mem parent i))
        (tableOf (l1 w.m.mem w₀.pcb.pgtable i)) j w)
      (fun w' => (lookup H w₀.m.mem parent (i * 256 + j) = none ∧ w' = w) ∨
        ∃ q f m, PageCopied H al cfg w₀ parent i j w q f m w')
      (· = .noMemory) := by
  have hl1 := (D.pair.same i hi).1
  have hdiv : (i * 256 + j) / 256 < cfg.kernel := by omega
  have hlookup := lookup_table (hl1 ▸ hsmall) hj
  unfold duplicatePage
  have hload : w.m.mem.load (entry (tableOf (l1 w₀.m.mem parent i)) j) = l2 w.m.mem parent i j := by
    rw [l2, hl1]
  rw [hload]
  by_cases hz : l2 w.m.mem parent i j = 0
  · rw [if_neg (not_not.mpr hz), wp_pure]
    rw [if_pos hz] at hlookup
    exact .inl ⟨(D.pair.same.lookup_eq hdiv).trans hlookup, rfl⟩
  · rw [if_pos hz]
    rw [if_neg hz] at hlookup
    have hq := (D.pair.same.lookup_eq hdiv).trans hlookup
    obtain ⟨pool, r, hr, hpool, hsub⟩ := P.frames _ (by omega) _ hq
    unfold Machine.get_free_page
    cases hf : al.get_free_page w.m.trace with
    | none => exact wp_throw.mpr rfl
    | some f =>
      have Fr : Fresh (live w.m.trace) f PAGE_SIZE PAGE_SIZE := al.get_free_page_fresh hf
      have P1 := D.pair.alloc Fr
      obtain rfl : w.m.current_pgtable = parent := D.pair.current
      simp only [pure_bind, Work.add_page_to_proc, Memory.store_store_self,
        Memory.load_store_self]
      refine wp.bind
        ((create_mapping_page hfix.aligned P1.parent_tables P.ne_zero P1.window).and_ok wp.self) ?_
      rintro m2 ⟨M, hshown⟩
      obtain ⟨mem4, hcopy, -, N, hparent⟩ := newPage_of_window hfix hne D.pair Fr M hi hj ht hlookup
        (D.pair.live_sub hr) hpool hsub
      have hcur : m2.current_pgtable = w.m.current_pgtable := M.ext.current
      rw [← hcur] at hcopy
      rw [hcopy, wp_pure]
      exact .inr ⟨_, f, m2, hq, Fr, hshown, M, N, hparent, rfl, rfl⟩

theorem duplicatePage_spec (hi : i < cfg.kernel) (hj : j < 256)
    (hsmall : IsTable H (l1 w₀.m.mem parent i)) {t : Word}
    (I : InSlot H cfg w₀ parent i t j w) :
    wp (duplicatePage H al cfg i (tableOf (l1 w₀.m.mem parent i)) t j w)
      (InSlot H cfg w₀ parent i t (j + 1)) (· = .noMemory) := by
  obtain ⟨⟨F, D⟩, ht, rfl⟩ := I
  refine (duplicatePage_cases hfix hne P hi hj hsmall D ht).mono ?_
  rintro w' (⟨hnone, rfl⟩ | ⟨q, f, m2, N⟩)
  · refine ⟨⟨F, ?_⟩, ht, rfl⟩
    rw [← Nat.add_assoc]
    exact D.skip hnone
  · have D' := D.copy P rfl hi hj N.page N.fresh N.newPage
    have hl1 := N.newPage.l1_eq i hi
    rw [← N.work, Nat.add_assoc] at D'
    exact ⟨⟨_, D'⟩, hl1.symm ▸ ht, congrArg tableOf hl1⟩

omit hfix hne P in
/-- A slot in which the parent has nothing. -/
theorem Copied.skipSlot (D : Copied H cfg w₀ parent (i * 256) F w)
    (hz : l1 w₀.m.mem parent i = 0) : Copied H cfg w₀ parent ((i + 1) * 256) F w := by
  have h : ∀ j ≤ 256, Copied H cfg w₀ parent (i * 256 + j) F w := by
    intro j
    induction j with
    | zero =>
      intro _
      rw [Nat.add_zero]
      exact D
    | succ j ih =>
      intro hj
      rw [← Nat.add_assoc]
      apply (ih (by omega)).skip
      have hdiv : (i * 256 + j) / 256 = i := by omega
      rw [lookup, hdiv, if_pos hz]
  rw [Nat.succ_mul]
  exact h 256 le_rfl

omit P in
/-- The new table of slot `i`, before anything is mapped in it. -/
theorem Copied.withTable (D : Copied H cfg w₀ parent (i * 256) F w) (hi : i < cfg.kernel) {t : Word}
    (Fr : Fresh (live w.m.trace) t 1024 (2 ^ 10)) :
    Copied H cfg w₀ parent (i * 256) F
      { w with m := w.m.withTable H w₀.pcb.pgtable i t false } := by
  have hn := hfix.kernel_le
  have hi4 : i < 4096 := lt_of_lt_of_le hi hn
  have E := withTable_extends (H := H) (c := false) D.pair.child_tables Fr hi4
  have hlookup : ∀ p < cfg.kernel * 256, p / 256 ≠ i →
      lookup H (w.m.withTable H w₀.pcb.pgtable i t false).mem w₀.pcb.pgtable p =
        lookup H w.m.mem w₀.pcb.pgtable p :=
    fun p hp hpi => (E.touched.lookup_eq E.tables (by omega) hpi).symm
  have hbelow : ∀ p < i * 256, p < cfg.kernel * 256 ∧ p / 256 ≠ i := by
    intro p hp
    omega
  have htable : IsTable H
      (l1 (w.m.withTable H w₀.pcb.pgtable i t false).mem w₀.pcb.pgtable i) := by
    rw [withTable_l1 D.pair.child_tables Fr hi4 hi4, if_pos rfl]
    exact isTable_page Fr.aligned
  have hslot : ∀ j < 256,
      lookup H (w.m.withTable H w₀.pcb.pgtable i t false).mem w₀.pcb.pgtable (i * 256 + j) =
        none := by
    intro j hj
    rw [lookup_table htable hj, withTable_l2 D.pair.child_tables Fr hi4 hj, if_pos rfl]
  constructor
  case pair =>
    exact D.pair.childStep hne hn E
      (withTable_other D.pair.child_tables D.pair.parent_tables hne.symm Fr hi4) fun k hk => by
        rw [show k = i from hk]
        exact ⟨hi, htable⟩
  case pcb => exact D.pcb
  case refcount => exact D.refcount
  case history => exact (E.onPool_eq (by decide)).trans D.history
  case nodup => exact D.nodup
  case frames =>
    intro f hf
    obtain ⟨hal, hlive, hdisj⟩ := D.frames f hf
    exact ⟨hal, E.live_sub hlive, hdisj⟩
  case maps =>
    rw [← D.maps]
    refine List.map_congr_left fun p hp => ?_
    have h := hbelow p (mem_mappedBelow.mp hp).1
    exact hlookup p h.1 h.2
  case unmapped =>
    intro p hp h
    by_cases hpi : p / 256 = i
    · have hsplit : p = i * 256 + p % 256 := by omega
      rw [hsplit]
      exact hslot _ (Nat.mod_lt _ (by decide))
    · rw [hlookup p hp hpi]
      exact D.unmapped p hp h
  case window =>
    intro hF
    have hl1 := E.other_l1 D.pair.parent_tables hne.symm (l1pte_index_lt cfg.FIXMAP_MAPPING)
    exact hl1 ▸ D.window hF
  case contents =>
    intro p hp a b ha hb k hk
    have h := hbelow p hp
    have hb' : lookup H w.m.mem w₀.pcb.pgtable p = some b := (hlookup p h.1 h.2).symm.trans hb
    have hlive := (D.frames _ (D.frame hp ha hb')).2.1
    have hdata := Extends.eqOn_data E D.pair.child_tables.blocks D.pair.child_root hlive (by decide)
    rw [← D.contents p hp a b ha hb' k hk]
    exact (hdata _ (Region.mem_add hk (by decide))).symm

omit P in
theorem Copied.inSlot (D : Copied H cfg w₀ parent (i * 256) F w) (hi : i < cfg.kernel) {t : Word}
    (Fr : Fresh (live w.m.trace) t 1024 (2 ^ 10)) :
    InSlot H cfg w₀ parent i t 0 { w with m := w.m.withTable H w₀.pcb.pgtable i t false } := by
  have hi4 : i < 4096 := lt_of_lt_of_le hi hfix.kernel_le
  rw [InSlot, withTable_l1 D.pair.child_tables Fr hi4 hi4, if_pos rfl, Nat.add_zero]
  exact ⟨⟨F, D.withTable hfix hne hi Fr⟩, isTable_page Fr.aligned, tableOf_page Fr.aligned⟩

/-- A slot is skipped, or the child gets a table for it and the pages are copied. -/
theorem wp_duplicateSlot {Q : Work → Prop} {E : Fault → Prop} (hi : i < cfg.kernel)
    (D : Copied H cfg w₀ parent (i * 256) F w) (hskip : l1 w₀.m.mem parent i = 0 → Q w)
    (hnone : IsTable H (l1 w₀.m.mem parent i) →
      al.memalign w.m.trace (4 * TTB_L2_ENTRIES) SZ_1K = none → E .noMemory)
    (hpages : ∀ t, IsTable H (l1 w₀.m.mem parent i) →
      al.memalign w.m.trace (4 * TTB_L2_ENTRIES) SZ_1K = some t →
      wp (forLoop 256 (duplicatePage H al cfg i (tableOf (l1 w₀.m.mem parent i)) t)
        { w with m := w.m.withTable H w₀.pcb.pgtable i t false }) Q E) :
    wp (duplicateSlot H al cfg parent i w) Q E := by
  have hload : w.m.mem.load (entry parent i) = l1 w₀.m.mem parent i := (D.pair.same i hi).1.symm
  have hpcb : w.pcb.pgtable = w₀.pcb.pgtable := by rw [D.pcb]
  unfold duplicateSlot
  simp only [hload, hpcb]
  rcases P.small i hi with hz | hsmall
  · rw [if_neg (not_not.mpr hz), wp_pure]
    exact hskip hz
  · simp only [hsmall.2, hsmall.1, ne_eq, not_false_eq_true, if_true, Bool.false_eq_true, if_false]
    unfold Machine.memalign
    cases hmem : al.memalign w.m.trace (4 * TTB_L2_ENTRIES) SZ_1K with
    | none => exact wp_throw.mpr (hnone hsmall hmem)
    | some t =>
      have D1 := D.withTable hfix hne hi (al.memalign_fresh hmem)
      have htable : ((w.m.mem.fill t 0 (4 * TTB_L2_ENTRIES)).store (entry w₀.pcb.pgtable i)
          (H.set_l1_pte_page_dcache t false)).load (entry parent i) &&& TTB_L1_PAGE_ADDR_MASK =
          tableOf (l1 w₀.m.mem parent i) := congrArg tableOf (D1.pair.same i hi).1.symm
      simp only [pure_bind, Memory.load_store_self, Memory.store_store_self, htable]
      exact hpages t hsmall hmem

theorem duplicateSlot_spec (hi : i < cfg.kernel) (D : Copied H cfg w₀ parent (i * 256) F w) :
    wp (duplicateSlot H al cfg parent i w)
      (fun w' => ∃ F', Copied H cfg w₀ parent ((i + 1) * 256) F' w') (· = .noMemory) := by
  refine wp_duplicateSlot hfix hne P hi D (fun hz => ⟨F, D.skipSlot hz⟩) (fun _ _ => rfl)
    fun t hsmall hmem => ?_
  have Fr : Fresh (live w.m.trace) t 1024 (2 ^ 10) := al.memalign_fresh hmem
  refine wp.mono (wp_forLoop (InSlot H cfg w₀ parent i t)
    (fun j s hj I => duplicatePage_spec hfix hne P hi hj hsmall I)
    (D.inSlot hfix hne hi Fr)) fun w' I => ?_
  rw [Nat.succ_mul]
  exact I.1

omit hfix hne in
/-- The parent has a page, so a frame has been taken. -/
theorem Copied.ne_nil (D : Copied H cfg w₀ parent (cfg.kernel * 256) F w) : F ≠ [] := by
  rintro rfl
  obtain ⟨p, hp, hmapped⟩ := P.mapped
  have hmem := mem_mappedBelow.mpr ⟨hp, hmapped⟩
  rw [List.map_eq_nil_iff.mp D.maps] at hmem
  exact absurd hmem List.not_mem_nil

omit hfix hne in
/-- Before the first page. -/
theorem Copied.first (C : Child H cfg w₀.m parent w₀.pcb.pgtable) :
    Copied H cfg w₀ parent (0 * 256) [] w₀ := by
  refine ⟨Pair.first P C, by rw [List.append_nil], fun _ => rfl, rfl, List.nodup_nil, nofun, rfl,
    fun p hp _ => ?_, fun h => absurd rfl h, fun p hp => absurd hp (by omega)⟩
  rw [lookup, C.empty _ (by omega), if_pos rfl]

omit hne in
/-- All pages have been copied, and the window is released. -/
theorem wp_duplicate_user_space {E : Fault → Prop}
    (hloop : wp (forLoop cfg.kernel (duplicateSlot H al cfg parent) w₀)
      (fun w => ∃ F, Copied H cfg w₀ parent (cfg.kernel * 256) F w) E) :
    wp (duplicate_user_space H al cfg parent w₀)
      (fun w' => ∃ F w, Copied H cfg w₀ parent (cfg.kernel * 256) F w ∧ F ≠ [] ∧
        Released H parent (l1pte_index cfg.FIXMAP_MAPPING) (l2pte_index cfg.FIXMAP_MAPPING) 1
          w.m w'.m ∧ w' = { w with m := w'.m })
      E := by
  unfold duplicate_user_space
  refine wp.bind hloop ?_
  rintro w ⟨F, D⟩
  have hF := D.ne_nil P
  have hrelease := release_mapping_page (H := H) D.pair.parent_tables P.ne_zero hfix.aligned
    (D.window hF)
  rw [D.pair.current]
  refine wp.bind (hrelease.weaken fun _ => False.elim) ?_
  intro m' R
  exact wp_pure.mpr ⟨F, w, D, hF, R, rfl⟩

theorem duplicate_user_space_copied (C : Child H cfg w₀.m parent w₀.pcb.pgtable) :
    wp (duplicate_user_space H al cfg parent w₀)
      (fun w' => ∃ F w, Copied H cfg w₀ parent (cfg.kernel * 256) F w ∧ F ≠ [] ∧
        Released H parent (l1pte_index cfg.FIXMAP_MAPPING) (l2pte_index cfg.FIXMAP_MAPPING) 1
          w.m w'.m ∧ w' = { w with m := w'.m })
      (· = .noMemory) :=
  wp_duplicate_user_space hfix P <| wp_forLoop
    (fun i w => ∃ F, Copied H cfg w₀ parent (i * 256) F w)
    (fun _ _ hi D => duplicateSlot_spec hfix hne P hi D.choose_spec) ⟨[], .first P C⟩

end

section
variable (D : Copied H cfg w₀ parent (cfg.kernel * 256) F w)
include D

/-- A page of the child is a page of the parent, and its frame is one of `F`. -/
theorem Copied.of_child (hp : p < cfg.kernel * 256)
    (hq : lookup H w.m.mem w₀.pcb.pgtable p = some q) :
    (lookup H w₀.m.mem parent p).isSome ∧ frameAt q ∈ F := by
  cases ha : lookup H w₀.m.mem parent p with
  | none => exact absurd (hq.symm.trans (D.unmapped p hp (.inr ha))) nofun
  | some a => exact ⟨rfl, D.frame hp ha hq⟩

theorem Copied.of_parent (hp : (lookup H w₀.m.mem parent p).isSome) (hlt : p < cfg.kernel * 256) :
    ∃ f ∈ F, lookup H w.m.mem w₀.pcb.pgtable p = some (f.toNat / 4096) := by
  have hmem : lookup H w.m.mem w₀.pcb.pgtable p ∈ F.map fun f => some (f.toNat / 4096) := by
    rw [← D.maps]
    exact List.mem_map_of_mem (mem_mappedBelow.mpr ⟨hlt, hp⟩)
  obtain ⟨f, hf, heq⟩ := List.mem_map.mp hmem
  exact ⟨f, hf, heq.symm⟩

theorem Copied.injective {p' : Nat} (hp : p < cfg.kernel * 256) (hp' : p' < cfg.kernel * 256)
    (hq : lookup H w.m.mem w₀.pcb.pgtable p = some q)
    (hq' : lookup H w.m.mem w₀.pcb.pgtable p' = some q) : p = p' := by
  have hnodup : (F.map fun f => some (f.toNat / 4096)).Nodup := by
    refine D.nodup.map_on fun a ha b hb hab => ?_
    rw [← frameAt_div (D.frames a ha).1, ← frameAt_div (D.frames b hb).1, Option.some.inj hab]
  rw [← D.maps] at hnodup
  exact List.inj_on_of_nodup_map hnodup (mem_mappedBelow.mpr ⟨hp, (D.of_child hp hq).1⟩)
    (mem_mappedBelow.mpr ⟨hp', (D.of_child hp' hq').1⟩) (hq.trans hq'.symm)

end

end SyeLabs.Kernel
