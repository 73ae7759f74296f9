import Mathlib.Data.Nat.Count
import SyeLabs.Mmu.Requests
import SyeLabs.Kernel.Fork

/-!
# A copy for a child

`duplicate_user_space` makes a copy of the user space of the parent. It fails only if there is no
memory for the tables and the frames it needs: as many as the parent has, and a table for the
window.
-/

namespace SyeLabs.Kernel

open Mmu

variable {H : Header} {al : Allocators} {cfg : Config} {m : Machine} {parent : Word}
  {i j k n p q : Nat} {w w₀ : Work} {F : List Word}

/-! ## The requests of a call -/

/-- The requests made before slot `i` and page `n`, when the frames are those of `F`. -/
def requestsMade (H : Header) (mem : Memory) (parent : Word) (i n : Nat) (F : List Word) : Nat :=
  Nat.count (fun i => l1 mem parent i ≠ 0) i +
    Nat.count (fun p => (lookup H mem parent p).isSome) n + if F = [] then 0 else 1

/-- The requests of a call: a table for each slot in use, a frame for each page, and a table for
the window. -/
def forkRequests (H : Header) (cfg : Config) (mem : Memory) (parent : Word) : Nat :=
  Nat.count (fun i => l1 mem parent i ≠ 0) cfg.kernel +
    Nat.count (fun p => (lookup H mem parent p).isSome) (cfg.kernel * 256) + 1

/-- The requests that are left will be answered. -/
def Served (H : Header) (al : Allocators) (cfg : Config) (w₀ : Work) (parent : Word) (i n : Nat)
    (F : List Word) (w : Work) : Prop :=
  al.Serves (forkRequests H cfg w₀.m.mem parent - requestsMade H w₀.m.mem parent i n F) w.m.trace

/-- A slot is left behind. -/
theorem Served.slot (S : Served H al cfg w₀ parent i n F w) :
    Served H al cfg w₀ parent (i + 1) n F w := by
  have hle := Nat.count_monotone (fun i => l1 w₀.m.mem parent i ≠ 0) (Nat.le_add_right i 1)
  refine Allocators.Serves.mono ?_ S
  unfold requestsMade
  omega

theorem Served.page (S : Served H al cfg w₀ parent i n F w) (hle : n ≤ k) :
    Served H al cfg w₀ parent i k F w := by
  have hle := Nat.count_monotone (fun p => (lookup H w₀.m.mem parent p).isSome = true) hle
  refine Allocators.Serves.mono ?_ S
  unfold requestsMade
  omega

/-- A table for slot `i`. -/
theorem Served.table (S : Served H al cfg w₀ parent i n F w) (hi : i < cfg.kernel)
    (hn : n ≤ cfg.kernel * 256) (hused : l1 w₀.m.mem parent i ≠ 0) :
    al.Serves (forkRequests H cfg w₀.m.mem parent -
      requestsMade H w₀.m.mem parent (i + 1) n F + 1) w.m.trace := by
  have hslots := Nat.count_monotone (fun i => l1 w₀.m.mem parent i ≠ 0)
    (show i + 1 ≤ cfg.kernel from hi)
  have hpages := Nat.count_monotone (fun p => (lookup H w₀.m.mem parent p).isSome = true) hn
  have hone := Nat.count_succ (fun i => l1 w₀.m.mem parent i ≠ 0) i
  rw [if_pos hused] at hone
  have hwindow : (if F = [] then 0 else 1) ≤ 1 := by split <;> decide
  refine Allocators.Serves.mono ?_ S
  unfold forkRequests requestsMade
  omega

/-- A frame for page `n`, and a table for the window if it shows its first frame. -/
theorem Served.frame (S : Served H al cfg w₀ parent i n F w) (hi : i ≤ cfg.kernel)
    (hn : n < cfg.kernel * 256) :
    ∃ left, ((lookup H w₀.m.mem parent n).isSome →
        al.Serves (left + (if F = [] then 1 else 0) + 1) w.m.trace) ∧
      ∀ f w', al.Serves left w'.m.trace → Served H al cfg w₀ parent i (n + 1) (F ++ [f]) w' := by
  have hslots := Nat.count_monotone (fun i => l1 w₀.m.mem parent i ≠ 0) hi
  have hpages := Nat.count_monotone (fun p => (lookup H w₀.m.mem parent p).isSome = true)
    (show n + 1 ≤ cfg.kernel * 256 from hn)
  have hone := Nat.count_succ (fun p => (lookup H w₀.m.mem parent p).isSome = true) n
  refine ⟨forkRequests H cfg w₀.m.mem parent - (requestsMade H w₀.m.mem parent i (n + 1) [] + 1),
    fun hmapped => Allocators.Serves.mono ?_ S, fun f w' S' => Allocators.Serves.mono ?_ S'⟩
  · rw [if_pos hmapped] at hone
    unfold forkRequests requestsMade
    rw [if_pos rfl]
    by_cases hF : F = []
    · rw [if_pos hF, if_pos hF]
      omega
    · rw [if_neg hF, if_neg hF]
      omega
  · unfold requestsMade
    rw [if_pos rfl, if_neg (List.append_ne_nil_of_right_ne_nil F (List.cons_ne_nil f []))]

/-! ## The two loops -/

theorem duplicatePage_serves (l2pgtable l2pgtable_dst : Word) (hfix : cfg.FixmapOk)
    (hroot : w.m.current_pgtable ≠ 0)
    (S : w.m.mem.load (entry l2pgtable j) ≠ 0 → al.Serves (n +
      tableRequests w.m.mem (entry w.m.current_pgtable (l1pte_index cfg.FIXMAP_MAPPING)) + 1)
      w.m.trace) :
    wp (duplicatePage H al cfg i l2pgtable l2pgtable_dst j w)
      (fun w' => w.m.mem.load (entry l2pgtable j) ≠ 0 → al.Serves n w'.m.trace)
      (· ≠ .noMemory) := by
  unfold duplicatePage
  by_cases hz : w.m.mem.load (entry l2pgtable j) = 0
  · rw [if_neg (not_not.mpr hz), wp_pure]
    exact fun h => absurd hz h
  · obtain ⟨-, f, hf, Sf⟩ := S hz
    rw [if_pos hz, Machine.get_free_page, Option.mem_def.mp hf]
    simp only [pure_bind]
    refine wp.bind (create_mapping_page_serves hfix.aligned hroot Sf) fun m' S' => ?_
    split
    · exact wp_throw.mpr Fault.noConfusion
    · exact wp_pure.mpr fun _ => S'

section
variable (hfix : cfg.FixmapOk) (hne : parent ≠ w₀.pcb.pgtable) (P : Parent H cfg w₀.m parent)

/-- The entry that the inner loop looks at. -/
theorem Copied.mapped_iff (D : Copied H cfg w₀ parent n F w) (hi : i < cfg.kernel) (hj : j < 256)
    (hsmall : IsTable H (l1 w₀.m.mem parent i)) :
    w.m.mem.load (entry (tableOf (l1 w₀.m.mem parent i)) j) ≠ 0 ↔
      (lookup H w₀.m.mem parent (i * 256 + j)).isSome := by
  have hl1 := (D.pair.same i hi).1
  have hdiv : (i * 256 + j) / 256 < cfg.kernel := by omega
  have hload : w.m.mem.load (entry (tableOf (l1 w₀.m.mem parent i)) j) = l2 w.m.mem parent i j := by
    rw [l2, hl1]
  rw [hload, D.pair.same.lookup_eq hdiv, lookup_table (hl1 ▸ hsmall) hj]
  by_cases hz : l2 w.m.mem parent i j = 0
  · rw [if_pos hz]
    exact iff_of_false (not_not.mpr hz) Bool.false_ne_true
  · rw [if_neg hz]
    exact iff_of_true hz rfl

/-- The window needs a table for its first frame only. -/
theorem Copied.tableRequests_le (D : Copied H cfg w₀ parent n F w) :
    tableRequests w.m.mem (entry parent (l1pte_index cfg.FIXMAP_MAPPING)) ≤
      if F = [] then 1 else 0 := by
  unfold tableRequests
  by_cases hF : F = []
  · rw [if_pos hF]
    split <;> decide
  · have hload : ¬w.m.mem.load (entry parent (l1pte_index cfg.FIXMAP_MAPPING)) = 0 :=
      (D.window hF).1
    rw [if_neg hload]
    exact Nat.zero_le _

/-- Where the inner loop stands, with the requests that are left. -/
def ServedSlot (H : Header) (al : Allocators) (cfg : Config) (w₀ : Work) (parent : Word) (i : Nat)
    (t : Word) (j : Nat) (w : Work) : Prop :=
  ∃ F, Copied H cfg w₀ parent (i * 256 + j) F w ∧ IsTable H (l1 w.m.mem w₀.pcb.pgtable i) ∧
    tableOf (l1 w.m.mem w₀.pcb.pgtable i) = t ∧
    Served H al cfg w₀ parent (i + 1) (i * 256 + j) F w

include hfix hne P

theorem duplicatePage_served (hi : i < cfg.kernel) (hj : j < 256)
    (hsmall : IsTable H (l1 w₀.m.mem parent i)) {t : Word}
    (I : ServedSlot H al cfg w₀ parent i t j w) :
    wp (duplicatePage H al cfg i (tableOf (l1 w₀.m.mem parent i)) t j w)
      (ServedSlot H al cfg w₀ parent i t (j + 1)) (fun _ => False) := by
  obtain ⟨F, D, ht, rfl, S⟩ := I
  have hcur : w.m.current_pgtable = parent := D.pair.current
  have hmapped := D.mapped_iff hi hj hsmall
  obtain ⟨left, hleft, hserved⟩ := S.frame hi (by omega)
  have hserves := duplicatePage_serves (H := H) (i := i) (tableOf (l1 w₀.m.mem parent i))
    (tableOf (l1 w.m.mem w₀.pcb.pgtable i)) hfix (hcur ▸ P.ne_zero) fun hload =>
      (hleft (hmapped.mp hload)).mono
        (Nat.succ_le_succ (Nat.add_le_add_left (hcur ▸ D.tableRequests_le) _))
  refine ((duplicatePage_cases hfix hne P hi hj hsmall D ht).and_not hserves).mono ?_
  rintro w' ⟨⟨hnone, rfl⟩ | ⟨q, f, m2, N⟩, hS⟩
  · refine ⟨F, ?_, ht, rfl, S.page (by omega)⟩
    rw [← Nat.add_assoc]
    exact D.skip hnone
  · have D' := D.copy P rfl hi hj N.page N.fresh N.newPage
    have hl1 := N.newPage.l1_eq i hi
    have S' := hserved f w' (hS (hmapped.mpr (N.page ▸ rfl)))
    rw [← N.work, Nat.add_assoc] at D'
    rw [Nat.add_assoc] at S'
    exact ⟨_, D', hl1.symm ▸ ht, congrArg tableOf hl1, S'⟩

theorem duplicateSlot_served (hi : i < cfg.kernel) (D : Copied H cfg w₀ parent (i * 256) F w)
    (S : Served H al cfg w₀ parent i (i * 256) F w) :
    wp (duplicateSlot H al cfg parent i w)
      (fun w' => ∃ F', Copied H cfg w₀ parent ((i + 1) * 256) F' w' ∧
        Served H al cfg w₀ parent (i + 1) ((i + 1) * 256) F' w') (fun _ => False) := by
  refine wp_duplicateSlot hfix hne P hi D (fun hz => ?_) (fun hsmall hnone => ?_)
    fun t hsmall hmem => ?_
  · exact ⟨F, D.skipSlot hz, S.slot.page (by omega)⟩
  · obtain ⟨⟨t, ht, -⟩, -⟩ := S.table hi (by omega) hsmall.1
    rw [hnone] at ht
    exact absurd ht (Option.not_mem_none t)
  · obtain ⟨⟨t', ht, S'⟩, -⟩ := S.table hi (by omega) hsmall.1
    obtain rfl : t = t' := Option.some.inj (hmem.symm.trans ht)
    have Fr : Fresh (live w.m.trace) t 1024 (2 ^ 10) := al.memalign_fresh hmem
    have D' := D.withTable hfix hne hi Fr
    obtain ⟨-, hthere, htable⟩ := D.inSlot hfix hne hi Fr
    have hstart : ServedSlot H al cfg w₀ parent i t 0
        { w with m := w.m.withTable H w₀.pcb.pgtable i t false } := by
      rw [ServedSlot, Nat.add_zero]
      exact ⟨F, D', hthere, htable, S'⟩
    refine (wp_forLoop (ServedSlot H al cfg w₀ parent i t)
      (fun j s hj I => duplicatePage_served hfix hne P hi hj hsmall I) hstart).mono ?_
    rintro w' ⟨F', D', -, -, S'⟩
    rw [Nat.succ_mul]
    exact ⟨F', D', S'⟩

/-- With the memory it needs, a call succeeds. -/
theorem duplicate_user_space_served (C : Child H cfg w₀.m parent w₀.pcb.pgtable)
    (S : al.Serves (forkRequests H cfg w₀.m.mem parent) w₀.m.trace) :
    wp (duplicate_user_space H al cfg parent w₀)
      (fun w' => ∃ F w, Copied H cfg w₀ parent (cfg.kernel * 256) F w ∧ F ≠ [] ∧
        Released H parent (l1pte_index cfg.FIXMAP_MAPPING) (l2pte_index cfg.FIXMAP_MAPPING) 1
          w.m w'.m ∧ w' = { w with m := w'.m })
      (fun _ => False) := by
  have hstart : Served H al cfg w₀ parent 0 (0 * 256) [] w₀ := by
    rwa [Served, requestsMade, Nat.zero_mul, Nat.count_zero, Nat.count_zero, if_pos rfl]
  have hloop : wp (forLoop cfg.kernel (duplicateSlot H al cfg parent) w₀) _ _ :=
    wp_forLoop (fun i w => ∃ F, Copied H cfg w₀ parent (i * 256) F w ∧
        Served H al cfg w₀ parent i (i * 256) F w)
      (fun i w hi ⟨F, D, S⟩ => duplicateSlot_served hfix hne P hi D S) ⟨[], .first P C, hstart⟩
  exact wp_duplicate_user_space hfix P (hloop.mono fun w ⟨F, D, _⟩ => ⟨F, D⟩)

end

/-! ## The copy -/

/-- The child has the pages of the parent, each in a new frame of its own and with the contents of
the parent's page, and the frames are in its list; the parent has what it had. -/
structure Duplicated (H : Header) (cfg : Config) (parent : Word) (w w' : Work) : Prop where
  pages : ∀ p < cfg.kernel * 256, (lookup H w'.m.mem w.pcb.pgtable p).isSome =
    (lookup H w.m.mem parent p).isSome
  own : ∀ p < cfg.kernel * 256, ∀ p' < cfg.kernel * 256, ∀ q,
    lookup H w'.m.mem w.pcb.pgtable p = some q → lookup H w'.m.mem w.pcb.pgtable p' = some q →
      p = p'
  new : ∀ p < cfg.kernel * 256, ∀ p' < cfg.kernel * 256, ∀ q,
    lookup H w'.m.mem w.pcb.pgtable p = some q → lookup H w.m.mem parent p' ≠ some q
  page_list : ∃ F : List Word, w'.pcb = { w.pcb with page_list := w.pcb.page_list ++ F } ∧
    F.Nodup ∧ ∀ f, f ∈ F ↔ ∃ p < cfg.kernel * 256, ∃ q,
      lookup H w'.m.mem w.pcb.pgtable p = some q ∧ f = frameAt q
  contents : ∀ p < cfg.kernel * 256, ∀ q q', lookup H w.m.mem parent p = some q →
    lookup H w'.m.mem w.pcb.pgtable p = some q' →
    ∀ k < PAGE_SIZE, w'.m.mem (frameAt q' + BitVec.ofNat 32 k) =
      w.m.mem (frameAt q + BitVec.ofNat 32 k)
  parent_pages : ∀ p < cfg.kernel * 256, lookup H w'.m.mem parent p = lookup H w.m.mem parent p
  parent_contents : ∀ p < cfg.kernel * 256, ∀ q, lookup H w.m.mem parent p = some q →
    w.m.mem.EqOn w'.m.mem (frameRegion q)

/-- The release of the window leaves the copy alone. -/
theorem Copied.duplicated {w' : Work} (hfix : cfg.FixmapOk) (P : Parent H cfg w₀.m parent)
    (hne : parent ≠ w₀.pcb.pgtable) (D : Copied H cfg w₀ parent (cfg.kernel * 256) F w)
    (R : Released H parent (l1pte_index cfg.FIXMAP_MAPPING) (l2pte_index cfg.FIXMAP_MAPPING) 1
      w.m w'.m) (hw' : w' = { w with m := w'.m }) : Duplicated H cfg parent w₀ w' := by
  obtain ⟨R, -, -⟩ := R
  have hi := l1pte_index_lt cfg.FIXMAP_MAPPING
  have T := D.pair.parent_tables
  have hchild : ∀ p < cfg.kernel * 256,
      lookup H w.m.mem w₀.pcb.pgtable p = lookup H w'.m.mem w₀.pcb.pgtable p := fun p hp =>
    (R.other_sameSlots T hi D.pair.child_tables hne hfix.kernel_le
      D.pair.apart).lookup_eq (by omega)
  have hparent : ∀ p < cfg.kernel * 256,
      lookup H w'.m.mem parent p = lookup H w₀.m.mem parent p := by
    intro p hp
    have hp256 : p / 256 < cfg.kernel := by omega
    rw [← (R.sameSlots T hi hfix.above).lookup_eq hp256, D.pair.same.lookup_eq hp256]
  have hdata : ∀ pool r, (pool, r) ∈ live w.m.trace → pool ≠ .heap → w.m.mem.EqOn w'.m.mem r :=
    fun pool r hr hpool => R.eqOn_live T hi hr
      (ne_of_pool_ne T.blocks hr D.pair.parent_root hpool) fun _ h => hpool (congrArg Prod.fst h)
  constructor
  case pages =>
    intro p hp
    rw [← hchild p hp]
    by_cases hmapped : (lookup H w₀.m.mem parent p).isSome
    · obtain ⟨f, -, hf⟩ := D.of_parent hmapped hp
      rw [hf, hmapped, Option.isSome_some]
    · rw [D.unmapped p hp (.inr (Option.not_isSome_iff_eq_none.mp hmapped)), Option.isSome_none]
      exact (Bool.eq_false_of_not_eq_true hmapped).symm
  case own =>
    intro p hp p' hp' q hq hq'
    exact D.injective hp hp' ((hchild p hp).trans hq) ((hchild p' hp').trans hq')
  case new =>
    intro p hp p' hp' q hq hq'
    obtain ⟨pool, r, hr, -, hsub⟩ := P.frames p' hp' q hq'
    have hdisj := (D.frames _ (D.of_child hp ((hchild p hp).trans hq)).2).2.2 _ hr
    have hmem := Region.base_mem (r := frameRegion q) (show 0 < 4096 by decide)
    exact hdisj _ hmem (hsub _ hmem)
  case page_list =>
    refine ⟨F, by rw [hw']; exact D.pcb, D.nodup, fun f => ⟨fun hf => ?_, ?_⟩⟩
    · have hmem : some (f.toNat / 4096) ∈ F.map fun f => some (f.toNat / 4096) :=
        List.mem_map_of_mem hf
      rw [← D.maps] at hmem
      obtain ⟨p, hp, hq⟩ := List.mem_map.mp hmem
      have hlt := (mem_mappedBelow.mp hp).1
      exact ⟨p, hlt, _, (hchild p hlt).symm.trans hq, (frameAt_div (D.frames f hf).1).symm⟩
    · rintro ⟨p, hp, q, hq, rfl⟩
      exact (D.of_child hp ((hchild p hp).trans hq)).2
  case contents =>
    intro p hp q q' hq hq' k hk
    have hq1 := (hchild p hp).trans hq'
    rw [← D.contents p hp q q' hq hq1 k hk]
    have hlive := (D.frames _ (D.of_child hp hq1).2).2.1
    exact (hdata .frames _ hlive (by decide) _ (Region.mem_add hk (by decide))).symm
  case parent_pages => exact hparent
  case parent_contents =>
    intro p hp q hq
    obtain ⟨pool, r, hr, hpool, hsub⟩ := P.frames p hp q hq
    exact ((D.pair.data pool r hr hpool).trans
      (hdata pool r (D.pair.live_sub hr) hpool)).mono hsub

/-- `fork` copies the user space of the parent and shares nothing. It fails only if the allocators
do not answer the requests for the tables and the frames. -/
theorem duplicate_user_space_duplicated (hfix : cfg.FixmapOk) (P : Parent H cfg w₀.m parent)
    (C : Child H cfg w₀.m parent w₀.pcb.pgtable) :
    wp (duplicate_user_space H al cfg parent w₀) (Duplicated H cfg parent w₀) (fun e =>
      e = .noMemory ∧ ¬al.Serves (forkRequests H cfg w₀.m.mem parent) w₀.m.trace) := by
  have hne := C.ne_parent
  by_cases S : al.Serves (forkRequests H cfg w₀.m.mem parent) w₀.m.trace
  · refine ((duplicate_user_space_served hfix hne P C S).mono ?_).weaken fun _ => False.elim
    rintro w' ⟨F, w, D, -, R, hw'⟩
    exact D.duplicated hfix P hne R hw'
  · refine ((duplicate_user_space_copied hfix hne P C).mono ?_).weaken fun _ he => ⟨he, S⟩
    rintro w' ⟨F, w, D, -, R, hw'⟩
    exact D.duplicated hfix P hne R hw'

/-! ## Whole pages -/

section
variable (H : Header) (al : Allocators) (cfg : Config)

/-- `duplicatePage`, with the page copied at once. -/
def duplicatePageCopy (i : Nat) (l2pgtable l2pgtable_dst : Word) (j : Nat) (w : Work) :
    Except Fault Work :=
  if w.m.mem.load (entry l2pgtable j) ≠ 0 then do
    let (paddr, m) ← w.m.get_free_page al
    let w := { w with m }.add_page_to_proc paddr
    let m ← create_mapping H al w.m w.m.current_pgtable cfg.FIXMAP_MAPPING paddr
      (BitVec.ofNat 32 PAGE_SIZE) false
    let mem := m.mem.store (entry l2pgtable_dst j) (H.set_l2_pte_dcache paddr false)
    let tr := translate H m.current_pgtable
    match mem.copyAt tr tr cfg.FIXMAP_MAPPING (pte_index_to_vaddr i j) PAGE_SIZE with
    | none => throw .dataAbort
    | some mem => return { w with m := { m with mem } }
  else pure w

def duplicateSlotCopy (from_pgtable : Word) (i : Nat) (w : Work) : Except Fault Work :=
  let l1pte := w.m.mem.load (entry from_pgtable i)
  if l1pte ≠ 0 then do
    if H.l1pte_is_sect l1pte then throw .bug
    let (t, m) ← w.m.memalign al (4 * TTB_L2_ENTRIES) SZ_1K
    let mem := (m.mem.fill t 0 (4 * TTB_L2_ENTRIES)).store (entry w.pcb.pgtable i)
      (H.set_l1_pte_page_dcache t false)
    forLoop 256 (duplicatePageCopy H al cfg i (tableOf (mem.load (entry from_pgtable i))) t)
      { w with m := { m with mem } }
  else pure w

def duplicateCopy (from_pgtable : Word) (w : Work) : Except Fault Work := do
  let w ← forLoop cfg.kernel (duplicateSlotCopy H al cfg from_pgtable) w
  let m ← release_mapping H w.m w.m.current_pgtable cfg.FIXMAP_MAPPING (BitVec.ofNat 32 PAGE_SIZE)
  return { w with m }

end

section
variable (hfix : cfg.FixmapOk) (hne : parent ≠ w₀.pcb.pgtable) (P : Parent H cfg w₀.m parent)
include hfix hne P

theorem duplicatePage_eq (hi : i < cfg.kernel) (hj : j < 256)
    (hsmall : IsTable H (l1 w₀.m.mem parent i)) {t : Word} (I : InSlot H cfg w₀ parent i t j w) :
    duplicatePage H al cfg i (tableOf (l1 w₀.m.mem parent i)) t j w =
      duplicatePageCopy H al cfg i (tableOf (l1 w₀.m.mem parent i)) t j w := by
  obtain ⟨⟨F, D⟩, ht, rfl⟩ := I
  have hmapped := D.mapped_iff hi hj hsmall
  unfold duplicatePage duplicatePageCopy
  by_cases hz : w.m.mem.load (entry (tableOf (l1 w₀.m.mem parent i)) j) = 0
  · rw [if_neg (not_not.mpr hz), if_neg (not_not.mpr hz)]
  · rw [if_pos hz, if_pos hz]
    obtain ⟨q, hq⟩ := Option.isSome_iff_exists.mp (hmapped.mp hz)
    obtain ⟨pool, r, hr, hpool, hsub⟩ := P.frames _ (by omega) _ hq
    rw [D.pair.same.lookup_eq (by omega)] at hq
    refine bind_eq_bind fun x hx => ?_
    obtain ⟨f, hf, rfl⟩ := Machine.exists_of_get_free_page hx
    have Fr : Fresh (live w.m.trace) f PAGE_SIZE PAGE_SIZE := al.get_free_page_fresh hf
    have P1 := D.pair.alloc Fr
    obtain rfl : w.m.current_pgtable = parent := D.pair.current
    simp only [Work.add_page_to_proc, Memory.store_store_self, Memory.load_store_self]
    refine bind_eq_bind fun m2 hm2 => ?_
    have M := (create_mapping_page hfix.aligned P1.parent_tables P.ne_zero P1.window).of_ok hm2
    obtain ⟨mem4, hcopy, hat, -⟩ := newPage_of_window hfix hne D.pair Fr M hi hj ht hq
      (D.pair.live_sub hr) hpool hsub
    have hcur : m2.current_pgtable = w.m.current_pgtable := M.ext.current
    rw [← hcur] at hcopy hat
    rw [hcopy, hat]

theorem duplicateSlot_eq (hi : i < cfg.kernel) (D : Copied H cfg w₀ parent (i * 256) F w) :
    duplicateSlot H al cfg parent i w = duplicateSlotCopy H al cfg parent i w := by
  have hload : w.m.mem.load (entry parent i) = l1 w₀.m.mem parent i := (D.pair.same i hi).1.symm
  have hpcb : w.pcb.pgtable = w₀.pcb.pgtable := by rw [D.pcb]
  unfold duplicateSlot duplicateSlotCopy
  simp only [hload, hpcb]
  rcases P.small i hi with hz | hsmall
  · rw [if_neg (not_not.mpr hz), if_neg (not_not.mpr hz)]
  · simp only [hsmall.2, hsmall.1, ne_eq, not_false_eq_true, if_true, Bool.false_eq_true, if_false]
    refine bind_eq_bind fun x hx => ?_
    obtain ⟨t, hmem, rfl⟩ := Machine.exists_of_memalign hx
    have Fr : Fresh (live w.m.trace) t 1024 (2 ^ 10) := al.memalign_fresh hmem
    have D1 := D.withTable hfix hne hi Fr
    have htable : tableOf (((w.m.mem.fill t 0 (4 * TTB_L2_ENTRIES)).store (entry w₀.pcb.pgtable i)
        (H.set_l1_pte_page_dcache t false)).load (entry parent i)) =
        tableOf (l1 w₀.m.mem parent i) := congrArg tableOf (D1.pair.same i hi).1.symm
    simp only [Memory.load_store_self, Memory.store_store_self]
    change forLoop 256 (duplicatePage H al cfg i (tableOf _) t) _ = _
    rw [htable]
    exact forLoop_congr (InSlot H cfg w₀ parent i t)
      (fun j s hj I => duplicatePage_eq hfix hne P hi hj hsmall I)
      (fun j s hj I => duplicatePage_spec hfix hne P hi hj hsmall I) (D.inSlot hfix hne hi Fr)

/-- Byte by byte or page by page, the copy is the same. -/
theorem duplicate_user_space_eq (C : Child H cfg w₀.m parent w₀.pcb.pgtable) :
    duplicate_user_space H al cfg parent w₀ = duplicateCopy H al cfg parent w₀ := by
  unfold duplicate_user_space duplicateCopy
  rw [forLoop_congr (fun i w => ∃ F, Copied H cfg w₀ parent (i * 256) F w)
    (fun _ _ hi ⟨_, D⟩ => duplicateSlot_eq hfix hne P hi D)
    (fun _ _ hi ⟨_, D⟩ => duplicateSlot_spec hfix hne P hi D) ⟨[], .first P C⟩]

end

/-! ## One page -/

/-- A table at `0x104000` in slot 0 of the parent's table, with the frame `0x800000` as page 1. -/
def onePage : Memory :=
  (Memory.store (fun _ => 0) (entry 0x100000 0) 0x104001).store (entry 0x104000 1) 0x80003E

/-- The parent at `0x100000` and the child at `0x108000`. -/
def onePageWork : Work where
  pcb := { pid := 2, pgtable := 0x108000 }
  m := ⟨onePage, [.alloc .heap ⟨0x108000, 16384⟩, .alloc .frames ⟨0x800000, 4096⟩,
    .alloc .heap ⟨0x104000, 1024⟩, .alloc .heap ⟨0x100000, 16384⟩], 0, 0x100000⟩
  refcount := fun _ => 0

theorem onePage_blocks : BlocksOk (live onePageWork.m.trace) :=
  .of_apart (by decide) (by decide)

theorem onePage_l1 (hi : i < 4096) : l1 onePage 0x100000 i = if i = 0 then 0x104001 else 0 := by
  have hd : (⟨entry 0x100000 i, 4⟩ : Region).Disjoint ⟨entry 0x104000 1, 4⟩ :=
    (Region.disjoint_of_apart (r := ⟨0x100000, 16384⟩) (s := ⟨0x104000, 1024⟩) (by decide)).mono
      (entry_sub_root hi) (entry_sub_table (by decide))
  rw [l1, onePage, Memory.load_store_of_disjoint hd]
  split
  · next h => rw [h, Memory.load_store_self]
  · next h =>
    rw [Memory.load_store_of_disjoint (disjoint_entry (by omega) (by decide) h)]
    rfl

theorem onePage_l1_child (hi : i < 4096) : l1 onePage 0x108000 i = 0 := by
  have hd : (⟨entry 0x108000 i, 4⟩ : Region).Disjoint ⟨entry 0x104000 1, 4⟩ :=
    (Region.disjoint_of_apart (r := ⟨0x108000, 16384⟩) (s := ⟨0x104000, 1024⟩) (by decide)).mono
      (entry_sub_root hi) (entry_sub_table (by decide))
  have hd' : (⟨entry 0x108000 i, 4⟩ : Region).Disjoint ⟨entry 0x100000 0, 4⟩ :=
    (Region.disjoint_of_apart (r := ⟨0x108000, 16384⟩) (s := ⟨0x100000, 16384⟩) (by decide)).mono
      (entry_sub_root hi) (entry_sub_root (by decide))
  rw [l1, onePage, Memory.load_store_of_disjoint hd, Memory.load_store_of_disjoint hd']
  rfl

theorem onePage_isTable (hi : i < 4096) (ht : IsTable Arm.header (l1 onePage 0x100000 i)) :
    i = 0 := by
  rw [onePage_l1 hi] at ht
  by_contra h
  rw [if_neg h] at ht
  exact ht.1 rfl

theorem onePage_lookup (hp : p < 2 ^ 20) :
    lookup Arm.header onePage 0x100000 p = if p = 1 then some 0x800 else none := by
  by_cases hp256 : p / 256 = 0
  · have hl1 : l1 onePage 0x100000 0 = 0x104001 := onePage_l1 (by decide)
    have ht : IsTable Arm.header (l1 onePage 0x100000 0) := by
      rw [hl1]
      decide
    have hsplit : p = 0 * 256 + p := by omega
    have htable : tableOf 0x104001 = 0x104000 := by decide
    have hl2 : l2 onePage 0x100000 0 p = if p = 1 then 0x80003E else 0 := by
      rw [l2, hl1, htable, onePage]
      split
      · next h => rw [h, Memory.load_store_self]
      · next h =>
        have hd : (⟨entry 0x104000 p, 4⟩ : Region).Disjoint ⟨entry 0x100000 0, 4⟩ :=
          (Region.disjoint_of_apart (r := ⟨0x104000, 1024⟩) (s := ⟨0x100000, 16384⟩)
            (by decide)).mono (entry_sub_table (by omega)) (entry_sub_root (by decide))
        rw [Memory.load_store_of_disjoint (disjoint_entry (by omega) (by decide) h),
          Memory.load_store_of_disjoint hd]
        rfl
    rw [hsplit, lookup_table ht (by omega), hl2, ← hsplit]
    split <;> rfl
  · rw [lookup, onePage_l1 (by omega), if_neg hp256, if_pos rfl, if_neg]
    rintro rfl
    exact hp256 rfl

theorem onePage_parent : Parent Arm.header smallConfig onePageWork.m 0x100000 where
  current := rfl
  ne_zero := by decide
  tables := by
    refine ⟨onePage_blocks, ⟨.heap, by decide⟩, fun i hi ht => ?_, fun i hi k hk ht ht' _ => ?_⟩
    · obtain rfl := onePage_isTable hi ht
      rw [show onePageWork.m.mem = onePage from rfl, onePage_l1 hi, if_pos rfl]
      decide
    · rw [onePage_isTable hi ht, onePage_isTable hk ht']
  root := by decide
  small i hi := by
    have hi4 : i < 4096 := lt_trans hi (by decide)
    rw [show onePageWork.m.mem = onePage from rfl, onePage_l1 hi4]
    by_cases h : i = 0
    · rw [if_pos h]
      exact .inr (by decide)
    · exact .inl (if_neg h)
  mapped := ⟨1, by decide, by
    rw [show onePageWork.m.mem = onePage from rfl, onePage_lookup (by decide)]
    rfl⟩
  frames p hp q hq := by
    rw [show onePageWork.m.mem = onePage from rfl, onePage_lookup (lt_trans hp (by decide)),
      Option.ite_none_right_eq_some] at hq
    obtain ⟨-, hq⟩ := hq
    obtain rfl := Option.some.inj hq
    exact ⟨.frames, ⟨0x800000, 4096⟩, by decide, by decide, fun _ h => h⟩
  window := by
    right
    rw [show onePageWork.m.mem = onePage from rfl, onePage_l1 (l1pte_index_lt _)]
    decide

theorem onePage_child : Child Arm.header smallConfig onePageWork.m 0x100000 0x108000 where
  ne_parent := by decide
  tables := by
    have hz : ∀ i < 4096, ¬IsTable Arm.header (l1 onePage 0x108000 i) := by
      intro i hi ht
      rw [onePage_l1_child hi] at ht
      exact ht.1 rfl
    exact ⟨onePage_blocks, ⟨.heap, by decide⟩, fun i hi ht => absurd ht (hz i hi),
      fun i hi _ _ ht => absurd ht (hz i hi)⟩
  root := by decide
  empty i hi := onePage_l1_child (lt_trans hi (by decide))
  apart i hi k hk _ ht := by
    have hl1 : l1 onePageWork.m.mem 0x108000 k = 0 := onePage_l1_child hk
    rw [hl1] at ht
    exact absurd rfl ht.1

theorem count_eq_one {p : Nat → Prop} [DecidablePred p] {a : Nat} (ha : a < n)
    (h : ∀ k < n, p k ↔ k = a) : Nat.count p n = 1 := by
  have hfilter : (Finset.range n).filter p = {a} := by
    rw [Finset.filter_congr fun k hk => h k (Finset.mem_range.mp hk), Finset.filter_eq',
      if_pos (Finset.mem_range.mpr ha)]
  rw [Nat.count_eq_card_filter_range, hfilter, Finset.card_singleton]

theorem onePage_requests : forkRequests Arm.header smallConfig onePage 0x100000 = 3 := by
  have hslots : Nat.count (fun i => l1 onePage 0x100000 i ≠ 0) smallConfig.kernel = 1 := by
    refine count_eq_one (a := 0) (by decide) fun i hi => ?_
    rw [onePage_l1 (lt_trans hi (by decide))]
    by_cases h : i = 0
    · rw [if_pos h]
      exact iff_of_true (by decide) h
    · rw [if_neg h]
      exact iff_of_false (not_not.mpr rfl) h
  have hpages : Nat.count (fun p => (lookup Arm.header onePage 0x100000 p).isSome)
      (smallConfig.kernel * 256) = 1 := by
    refine count_eq_one (a := 1) (by decide) fun p hp => ?_
    rw [onePage_lookup (lt_trans hp (by decide))]
    by_cases h : p = 1
    · rw [if_pos h]
      exact iff_of_true rfl h
    · rw [if_neg h]
      exact iff_of_false Bool.false_ne_true h
  rw [forkRequests, hslots, hpages]

theorem onePage_serves : Arm.allocators.Serves 3 onePageWork.m.trace := by decide +kernel

theorem duplicate_user_space_duplicated_page :
    ∃ w', duplicate_user_space Arm.header Arm.allocators smallConfig 0x100000 onePageWork = .ok w' ∧
      Duplicated Arm.header smallConfig 0x100000 onePageWork w' := by
  refine (duplicate_user_space_duplicated ⟨by decide, by decide⟩ onePage_parent
    onePage_child).exists_ok ?_
  rintro e ⟨-, hn⟩
  have hreq : forkRequests Arm.header smallConfig onePageWork.m.mem 0x100000 = 3 := onePage_requests
  rw [hreq] at hn
  exact hn onePage_serves

end SyeLabs.Kernel
