import SyeLabs.Kernel.Frames

/-!
# What `allocate_page` maps

The loop calls `create_mapping` for one page at a time, and that rounds on its own: from an address
inside a page it maps two pages, to the frame it is given and to the one behind it. The next round
maps the second page again; but after the last round it stays mapped to a frame of nobody.
-/

namespace SyeLabs.Kernel

open Mmu

variable {H : Header} {al : Allocators} {cfg : Config} {m m' : Machine} {f v nr_pages : Word}
  {i k p q : Nat} {w w' : Work} {F : List Word} {old : Nat → Option Nat}

/-- A process before the call: its user area has small pages, in memory that is in use. -/
structure UserSpace (H : Header) (cfg : Config) (w : Work) : Prop where
  ne_zero : w.pcb.pgtable ≠ 0
  tables : TablesOk H w.m w.pcb.pgtable
  small : ∀ i < cfg.kernel, l1 w.m.mem w.pcb.pgtable i = 0 ∨ IsTable H (l1 w.m.mem w.pcb.pgtable i)
  backed : ∀ p < cfg.kernel * 256, ∀ q, lookup H w.m.mem w.pcb.pgtable p = some q →
    ∃ b ∈ live w.m.trace, frameRegion q ⊆ b.2

/-- The call has given the frames `F` to the process, and these to pages of its user area. -/
structure MapsGiven (H : Header) (cfg : Config) (w : Work) (F : List Word) (w' : Work) : Prop where
  changed : ∀ p < cfg.kernel * 256,
    lookup H w'.m.mem w.pcb.pgtable p ≠ lookup H w.m.mem w.pcb.pgtable p →
      ∃ f ∈ F, lookup H w'.m.mem w.pcb.pgtable p = some (f.toNat / 4096)
  backs : ∀ f ∈ F, ∃ p < cfg.kernel * 256,
    lookup H w'.m.mem w.pcb.pgtable p ≠ lookup H w.m.mem w.pcb.pgtable p ∧
      lookup H w'.m.mem w.pcb.pgtable p = some (f.toNat / 4096)
  left : ∀ p < cfg.kernel * 256, ∀ q, lookup H w'.m.mem w.pcb.pgtable p = some q →
    lookup H w.m.mem w.pcb.pgtable p = some q ∨ frameAt q ∈ F

/-- The physical page behind the last one. -/
def spill (F : List Word) : Option Nat := F.getLast?.map fun f => (f.toNat / 4096 + 1) % 2 ^ 20

/-- The page behind the range is mapped to that physical page already, or it is one of `F`. -/
def Absorbed (H : Header) (w : Work) (v : Word) (F : List Word) : Prop :=
  ∀ q, spill F = some q →
    lookup H w.m.mem w.pcb.pgtable (v.toNat / 4096 + F.length) = some q ∨ frameAt q ∈ F

/-! ## The loop -/

/-- The mapping when the frames `F` have been mapped from `v` on. -/
def filled (v : Word) (F : List Word) (old : Nat → Option Nat) (p : Nat) : Option Nat :=
  if v.toNat / 4096 ≤ p ∧ p < v.toNat / 4096 + F.length then
    F[p - v.toNat / 4096]?.map fun f => f.toNat / 4096
  else if ¬4096 ∣ v.toNat ∧ p = v.toNat / 4096 + F.length then (spill F).or (old p)
  else old p

theorem filled_nil : filled v [] old p = old p := by
  have hempty : ¬(v.toNat / 4096 ≤ p ∧ p < v.toNat / 4096 + ([] : List Word).length) := by
    simp
  rw [filled, if_neg hempty]
  split <;> rfl

theorem filled_append : filled v (F ++ [f]) old p =
    if p = v.toNat / 4096 + F.length then some (f.toNat / 4096)
    else if ¬4096 ∣ v.toNat ∧ p = v.toNat / 4096 + F.length + 1 then
      some ((f.toNat / 4096 + 1) % 2 ^ 20)
    else filled v F old p := by
  have hlen : (F ++ [f]).length = F.length + 1 := List.length_append
  have hspill : spill (F ++ [f]) = some ((f.toNat / 4096 + 1) % 2 ^ 20) := by
    rw [spill, List.getLast?_concat]
    rfl
  rw [filled, hlen, hspill, Option.some_or, filled]
  generalize v.toNat / 4096 = k
  rcases lt_trichotomy p (k + F.length) with h | rfl | h
  · have hlast : ¬p = k + F.length := by omega
    have hnext : ¬p = k + F.length + 1 := by omega
    have hnext' : ¬p = k + (F.length + 1) := by omega
    by_cases hlo : k ≤ p
    · rw [if_pos ⟨hlo, by omega⟩, if_neg hlast, if_neg (fun h => hnext h.2), if_pos ⟨hlo, h⟩,
        List.getElem?_append_left (by omega)]
    · rw [if_neg (fun h => hlo h.1), if_neg (fun h => hnext' h.2), if_neg hlast,
        if_neg (fun h => hnext h.2), if_neg (fun h => hlo h.1), if_neg (fun h => hlast h.2)]
  · rw [if_pos ⟨by omega, by omega⟩, if_pos rfl, Nat.add_sub_cancel_left,
      List.getElem?_concat_length]
    rfl
  · have hrange : ¬(k ≤ p ∧ p < k + (F.length + 1)) := by omega
    have hrange' : ¬(k ≤ p ∧ p < k + F.length) := by omega
    have hlast : ¬p = k + F.length := by omega
    have hspilled : ¬(¬4096 ∣ v.toNat ∧ p = k + F.length) := fun h => hlast h.2
    rw [if_neg hrange, if_neg hlast, if_neg hrange', if_neg hspilled, Nat.add_assoc]

/-- The frames `F` have been taken, and mapped from `v` on. -/
structure Filled (H : Header) (cfg : Config) (v : Word) (w : Work) (F : List Word) (w' : Work) :
    Prop where
  tables : TablesOk H w'.m w.pcb.pgtable
  small : ∀ i < cfg.kernel,
    l1 w'.m.mem w.pcb.pgtable i = 0 ∨ IsTable H (l1 w'.m.mem w.pcb.pgtable i)
  pcb : w'.pcb = { w.pcb with page_list := w.pcb.page_list ++ F }
  history : onPool .frames w'.m.trace =
    (F.map fun f => .alloc .frames ⟨f, PAGE_SIZE⟩).reverse ++ onPool .frames w.m.trace
  live_sub : live w.m.trace ⊆ live w'.m.trace
  fresh : ∀ f ∈ F, 4096 ∣ f.toNat ∧
    ∀ b ∈ live w.m.trace, (⟨f, PAGE_SIZE⟩ : Region).Disjoint b.2
  pages : ∀ p < 2 ^ 20, lookup H w'.m.mem w.pcb.pgtable p =
    filled v F (lookup H w.m.mem w.pcb.pgtable) p

theorem Filled.first (U : UserSpace H cfg w) : Filled H cfg v w [] w where
  tables := U.tables
  small := U.small
  pcb := by rw [List.append_nil]
  history := rfl
  live_sub := List.Subset.refl _
  fresh f hf := nomatch hf
  pages p _ := filled_nil.symm

/-- Page `i` of a range that does not wrap. -/
theorem pageAt_toNat (h : v.toNat + i * 4096 < 2 ^ 32) :
    (pageAt v i).toNat = v.toNat + i * 4096 := by
  rw [pageAt, BitVec.toNat_add, BitVec.toNat_ofNat, PAGE_SIZE]
  omega

theorem Filled.allocatePage (hn : cfg.kernel ≤ 4096)
    (hrange : v.toNat + (F.length + 1) * 4096 ≤ cfg.kernel * 2 ^ 20) (I : Filled H cfg v w F w')
    (hroot : w.pcb.pgtable ≠ 0) :
    wp (allocatePage H al v F.length w') (fun w'' => ∃ f, Filled H cfg v w (F ++ [f]) w'')
      (· = .noMemory) := by
  have hv : (pageAt v F.length).toNat = v.toNat + F.length * 4096 := pageAt_toNat (by omega)
  unfold Kernel.allocatePage Machine.get_free_page
  cases hf : al.get_free_page w'.m.trace with
  | none => exact wp_throw.mpr rfl
  | some f =>
    have Fr : Fresh (live w'.m.trace) f PAGE_SIZE PAGE_SIZE := al.get_free_page_fresh hf
    have Q := Quiet.alloc I.tables.blocks Fr .frames
    have htable : w'.pcb.pgtable = w.pcb.pgtable := by rw [I.pcb]
    have hlt : (pageAt v F.length).toNat + 4096 ≤ 2 ^ 32 := by omega
    have R : (Request.page (pageAt v F.length) f).Range := ⟨show 1 ≤ 4096 by decide, hlt⟩
    have hslot : ∀ k, (Request.page (pageAt v F.length) f).slot k → k < cfg.kernel := by
      intro k hk
      have hmul := (Request.slot_mul hk).2
      have hlt := R.lo_lt_hi
      rw [Request.hi_page, hv] at hmul hlt
      omega
    simp only [pure_bind]
    rw [htable]
    refine wp.bind (create_mapping_spec (r := Request.page (pageAt v F.length) f)
      (Q.tables I.tables) hroot R fun k hk _ => (I.small k (hslot k hk)).symm.imp_left And.right) ?_
    intro m1 M
    refine wp_pure.mpr ⟨f, ?_⟩
    have hhistory : onPool .frames m1.trace =
        .alloc .frames ⟨f, PAGE_SIZE⟩ :: onPool .frames w'.m.trace :=
      (M.ext.onPool_eq (by decide)).trans ((onPool_cons _ _ _).trans (if_pos rfl))
    constructor
    case tables => exact M.ext.tables
    case small =>
      intro k hk
      by_cases hs : (Request.page (pageAt v F.length) f).slot k
      · exact .inr (M.isTable R hs (Request.page_not_sect R hs))
      · change l1 m1.mem w.pcb.pgtable k = 0 ∨ IsTable H (l1 m1.mem w.pcb.pgtable k)
        rw [← M.ext.touched.l1_eq M.ext.tables (lt_of_lt_of_le hk hn) hs]
        exact I.small k hk
    case pcb =>
      change { w'.pcb with page_list := w'.pcb.page_list ++ [f] } = _
      rw [I.pcb, List.append_assoc]
    case history =>
      change onPool .frames m1.trace = _
      rw [hhistory, I.history, List.map_append, List.reverse_append]
      rfl
    case live_sub =>
      exact fun b hb => M.ext.live_sub (List.mem_cons_of_mem _ (I.live_sub hb))
    case fresh =>
      intro g hg
      rcases List.mem_append.mp hg with hg | hg
      · exact I.fresh g hg
      · cases List.mem_singleton.mp hg
        exact ⟨Fr.aligned, fun b hb => Fr.apart b (I.live_sub hb)⟩
    case pages =>
      intro p hp
      have hpage : (v.toNat + F.length * 4096) / 4096 = v.toNat / 4096 + F.length := by omega
      have hdvd : 4096 ∣ v.toNat + F.length * 4096 ↔ 4096 ∣ v.toNat := by omega
      change lookup H m1.mem w.pcb.pgtable p = _
      rw [M.lookup_from hp, filled_append, hv, hpage, ← I.pages p hp]
      simp only [hdvd]

theorem allocate_page_filled (hn : cfg.kernel ≤ 4096) (U : UserSpace H cfg w)
    (hrange : v.toNat + nr_pages.toInt.toNat * 4096 ≤ cfg.kernel * 2 ^ 20) :
    wp (allocate_page H al w v nr_pages)
      (fun w' => ∃ F, F.length = nr_pages.toInt.toNat ∧ Filled H cfg v w F w') (· = .noMemory) := by
  refine wp_forLoop (fun i w' => ∃ F, F.length = i ∧ Filled H cfg v w F w') ?_
    ⟨[], rfl, Filled.first U⟩
  rintro i w1 hi ⟨F, rfl, I⟩
  have hnext := (Nat.add_le_add_left (Nat.mul_le_mul_right 4096 hi) v.toNat).trans hrange
  refine (I.allocatePage hn hnext U.ne_zero).mono ?_
  rintro w2 ⟨f, I'⟩
  exact ⟨F ++ [f], by rw [List.length_append]; rfl, I'⟩

/-! ## Which frames the pages have -/

/-- The pages of the range have been given new frames. -/
theorem Filled.page_changed (U : UserSpace H cfg w) (I : Filled H cfg v w F w')
    (hn : cfg.kernel ≤ 4096) (hi : i < F.length)
    (hp : v.toNat / 4096 + i < cfg.kernel * 256) :
    lookup H w'.m.mem w.pcb.pgtable (v.toNat / 4096 + i) = some (F[i].toNat / 4096) ∧
      lookup H w.m.mem w.pcb.pgtable (v.toNat / 4096 + i) ≠ some (F[i].toNat / 4096) := by
  constructor
  · rw [I.pages _ (by omega), filled, if_pos ⟨by omega, by omega⟩, Nat.add_sub_cancel_left,
      List.getElem?_eq_getElem hi]
    rfl
  · intro hold
    obtain ⟨haligned, hfresh⟩ := I.fresh F[i] (List.getElem_mem hi)
    obtain ⟨b, hb, hsub⟩ := U.backed _ hp _ hold
    have hmem : F[i] ∈ (⟨F[i], PAGE_SIZE⟩ : Region) :=
      Region.base_mem (r := ⟨F[i], PAGE_SIZE⟩) (show 0 < 4096 by decide)
    refine hfresh b hb _ hmem (hsub _ ?_)
    rw [frameRegion, frameAt_div haligned]
    exact hmem

/-- A page is mapped as before, or to one of the frames. -/
theorem Filled.given (I : Filled H cfg v w F w') (hp : p < 2 ^ 20)
    (h : 4096 ∣ v.toNat ∨ Absorbed H w v F) :
    lookup H w'.m.mem w.pcb.pgtable p = lookup H w.m.mem w.pcb.pgtable p ∨
      ∃ f ∈ F, lookup H w'.m.mem w.pcb.pgtable p = some (f.toNat / 4096) := by
  rw [I.pages p hp, filled]
  split
  · next hin =>
    have hlt : p - v.toNat / 4096 < F.length := by omega
    rw [List.getElem?_eq_getElem hlt]
    exact .inr ⟨_, List.getElem_mem hlt, rfl⟩
  · split
    · next hbehind =>
      obtain ⟨hv, rfl⟩ := hbehind
      cases hq : spill F with
      | none => exact .inl rfl
      | some q =>
        rw [Option.some_or]
        rcases h.resolve_left hv q hq with hsame | hmem
        · exact .inl hsame.symm
        · have hlt : q < 2 ^ 20 := by
            obtain ⟨f, -, rfl⟩ := Option.map_eq_some_iff.mp hq
            exact Nat.mod_lt _ (by decide)
          have hdiv : (frameAt q).toNat / 4096 = q := by
            rw [frameAt, BitVec.toNat_ofNat]
            omega
          exact .inr ⟨frameAt q, hmem, by rw [hdiv]⟩
    · exact .inl rfl

theorem Filled.mapsGiven_iff (U : UserSpace H cfg w) (I : Filled H cfg v w F w')
    (hn : cfg.kernel ≤ 4096) (hrange : v.toNat + F.length * 4096 ≤ cfg.kernel * 2 ^ 20) :
    MapsGiven H cfg w F w' ↔ 4096 ∣ v.toNat ∨ Absorbed H w v F := by
  constructor
  · intro M
    refine or_iff_not_imp_left.mpr fun hv q hq => ?_
    have hp : v.toNat / 4096 + F.length < cfg.kernel * 256 := by omega
    have hrange : ¬(v.toNat / 4096 ≤ v.toNat / 4096 + F.length ∧
      v.toNat / 4096 + F.length < v.toNat / 4096 + F.length) := by omega
    refine M.left _ hp q ?_
    rw [I.pages _ (by omega), filled, if_neg hrange, if_pos ⟨hv, rfl⟩, hq]
    rfl
  · intro h
    constructor
    case changed =>
      exact fun p hp hne => (I.given (by omega) h).resolve_left hne
    case backs =>
      intro f hf
      obtain ⟨i, hi, rfl⟩ := List.getElem_of_mem hf
      have hp : v.toNat / 4096 + i < cfg.kernel * 256 := by omega
      obtain ⟨hnew, hold⟩ := I.page_changed U hn hi hp
      exact ⟨_, hp, fun heq => hold (heq.symm.trans hnew), hnew⟩
    case left =>
      intro p hp q hq
      rcases I.given (p := p) (by omega) h with hsame | ⟨f, hf, hpage⟩
      · exact .inl (hsame.symm.trans hq)
      · obtain rfl := Option.some.inj (hpage.symm.trans hq)
        rw [frameAt_div (I.fresh f hf).1]
        exact .inr hf

/-- `allocate_page` gives as many frames to the process as it is asked for. They back the pages
that it maps, and all of these, exactly if the address is the start of a page, or the page behind
the range happens to be mapped to a frame of the process anyway. -/
theorem allocate_page_mapsGiven_iff (hn : cfg.kernel ≤ 4096) (U : UserSpace H cfg w)
    (hrange : v.toNat + nr_pages.toInt.toNat * 4096 ≤ cfg.kernel * 2 ^ 20) :
    wp (allocate_page H al w v nr_pages)
      (fun w' => ∃ F, F.length = nr_pages.toInt.toNat ∧
        w'.pcb = { w.pcb with page_list := w.pcb.page_list ++ F } ∧
        onPool .frames w'.m.trace =
          (F.map fun f => .alloc .frames ⟨f, PAGE_SIZE⟩).reverse ++ onPool .frames w.m.trace ∧
        (MapsGiven H cfg w F w' ↔ 4096 ∣ v.toNat ∨ Absorbed H w v F))
      (· = .noMemory) := by
  refine (allocate_page_filled hn U hrange).mono ?_
  rintro w' ⟨F, hlen, I⟩
  exact ⟨F, hlen, I.pcb, I.history, I.mapsGiven_iff U hn (hlen ▸ hrange)⟩

/-- A process with nothing mapped. -/
def emptyUser : Work where
  pcb := { pid := 1, pgtable := 0x100000 }
  m := Arm.rooted
  refcount := fun _ => 0

theorem emptyUser_lookup (hp : p < 2 ^ 20) :
    lookup Arm.header emptyUser.m.mem emptyUser.pcb.pgtable p = none := by
  have hzero : l1 emptyUser.m.mem emptyUser.pcb.pgtable (p / 256) = 0 :=
    Arm.rooted_empty _ (by omega)
  rw [lookup, hzero, if_pos rfl]

theorem emptyUser_userSpace : UserSpace Arm.header smallConfig emptyUser where
  ne_zero := by decide
  tables := Arm.rooted_reached.tables.1
  small i hi := .inl (Arm.rooted_empty i (lt_trans hi (by decide)))
  backed p hp q hq := by
    rw [emptyUser_lookup (lt_of_lt_of_le hp (by decide))] at hq
    exact nomatch hq

theorem allocate_page_mapsGiven_iff_empty : ∃ w',
    allocate_page Arm.header Arm.allocators emptyUser 0x1000 2 = .ok w' ∧
    ∃ F, F.length = (2 : Word).toInt.toNat ∧
      w'.pcb = { emptyUser.pcb with page_list := emptyUser.pcb.page_list ++ F } ∧
      onPool .frames w'.m.trace =
        (F.map fun f => .alloc .frames ⟨f, PAGE_SIZE⟩).reverse ++
          onPool .frames emptyUser.m.trace ∧
      (MapsGiven Arm.header smallConfig emptyUser F w' ↔
        4096 ∣ (0x1000 : Word).toNat ∨ Absorbed Arm.header emptyUser 0x1000 F) := by
  have hrun : (allocate_page Arm.header Arm.allocators emptyUser 0x1000 2).isOk = true := by
    decide +kernel
  obtain ⟨w', hw⟩ := exists_of_isOk hrun
  have h : wp (allocate_page Arm.header Arm.allocators emptyUser 0x1000 2) _ _ :=
    allocate_page_mapsGiven_iff (by decide) emptyUser_userSpace (by decide)
  exact ⟨w', hw, h.of_ok hw⟩

/-- One page from the middle of a page: the page behind it is mapped to a frame of nobody. -/
theorem not_mapsGiven_unaligned : ∃ w', ¬4096 ∣ (0x1800 : Word).toNat ∧
    allocate_page Arm.header Arm.allocators emptyUser 0x1800 1 = .ok w' ∧
    ¬MapsGiven Arm.header smallConfig emptyUser w'.pcb.page_list w' := by
  have hrun : (allocate_page Arm.header Arm.allocators emptyUser 0x1800 1).isOk = true := by
    decide +kernel
  obtain ⟨w', hw'⟩ := exists_of_isOk hrun
  have hspec : wp (allocate_page Arm.header Arm.allocators emptyUser 0x1800 1) _ _ :=
    allocate_page_filled (by decide) emptyUser_userSpace (by decide)
  obtain ⟨F, hlen, I⟩ := hspec.of_ok hw'
  obtain ⟨f, rfl⟩ := List.length_eq_one_iff.mp hlen
  have hlist : w'.pcb.page_list = [f] := by rw [I.pcb]; rfl
  refine ⟨w', by decide, hw', fun M => ?_⟩
  have hrange : (0x1800 : Word).toNat + [f].length * 4096 ≤ smallConfig.kernel * 2 ^ 20 :=
    show 0x1800 + 1 * 4096 ≤ 0xC00 * 2 ^ 20 by decide
  rw [hlist, I.mapsGiven_iff emptyUser_userSpace (by decide) hrange] at M
  have habsorbed : Absorbed Arm.header emptyUser 0x1800 [f] := M.resolve_left (by decide)
  rcases habsorbed ((f.toNat / 4096 + 1) % 2 ^ 20) rfl with hmapped | hmem
  · have hbehind : (0x1800 : Word).toNat / 4096 + [f].length = 2 := by simp
    rw [hbehind, emptyUser_lookup (by decide)] at hmapped
    exact nomatch hmapped
  · have heq := congrArg BitVec.toNat (List.mem_singleton.mp hmem)
    have hlt := f.isLt
    rw [frameAt, BitVec.toNat_ofNat] at heq
    omega

end SyeLabs.Kernel
