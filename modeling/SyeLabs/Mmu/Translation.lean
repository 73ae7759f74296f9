import SyeLabs.Mmu.CreateMapping
import SyeLabs.Mmu.Arm

/-!
# Reading a mapping back

`virt_to_phys_pt` takes 12 bits of offset for every entry. It agrees with the hardware on the
pages of second-level tables; in a section it forgets which of the 256 pages is meant.
-/

namespace SyeLabs.Mmu

variable {H : Header} {al : Allocators} {m m' : Machine} {root v : Word} {r : Request} {q : Nat}

theorem not_pageMask : ~~~PAGE_MASK = Word.lowMask 12 := by decide

theorem offset_toNat (e : Word) {k : Nat} (hk : 12 ≤ k) (hk' : k ≤ 32) :
    ((e &&& Word.highMask k) ||| (v &&& Word.lowMask 12)).toNat =
      e.toNat / 2 ^ k * 2 ^ k + v.toNat % 4096 := by
  have hlow : (v &&& Word.lowMask 12).toNat = v.toNat % 4096 :=
    Word.and_lowMask_toNat _ (by decide)
  have hlt : v.toNat % 4096 < 2 ^ k :=
    lt_of_lt_of_le (Nat.mod_lt _ (by decide)) (Nat.pow_le_pow_right (n := 2) (by decide) hk)
  rw [BitVec.toNat_or, hlow, Word.and_highMask_toNat e hk', Nat.mul_comm,
    ← Nat.two_pow_add_eq_or_of_lt hlt]

theorem lookup_page (mem : Memory) : lookup H mem root (v.toNat / 4096) =
    if l1 mem root (l1pte_index v) = 0 then none
    else if H.l1pte_is_sect (l1 mem root (l1pte_index v)) then
      some ((l1 mem root (l1pte_index v)).toNat / 2 ^ 20 * 256 + l2pte_index v)
    else if l2 mem root (l1pte_index v) (l2pte_index v) = 0 then none
    else some ((l2 mem root (l1pte_index v) (l2pte_index v)).toNat / 2 ^ 12) := by
  rw [lookup, page_l1, page_l2]

theorem lookup_lt {mem : Memory} {p : Nat} (h : lookup H mem root p = some q) : q < 2 ^ 20 := by
  have h1 := (l1 mem root (p / 256)).isLt
  have h2 := (l2 mem root (p / 256) (p % 256)).isLt
  rw [lookup, Option.ite_none_left_eq_some] at h
  obtain ⟨-, h⟩ := h
  split at h
  · cases h
    omega
  · rw [Option.ite_none_left_eq_some] at h
    obtain ⟨-, h⟩ := h
    cases h
    omega

theorem eq_ofNat {w : Word} {n : Nat} (h : w.toNat = n) : w = BitVec.ofNat 32 n := by
  rw [← h, BitVec.ofNat_toNat, BitVec.setWidth_eq]

/-- The hardware goes by the page, in a section as well as in a table. -/
theorem translate_eq (mem : Memory) : translate H root mem v =
    (lookup H mem root (v.toNat / 4096)).map fun q =>
      BitVec.ofNat 32 (q * 4096 + v.toNat % 4096) := by
  have hwalk : translate H root mem v =
      if l1 mem root (l1pte_index v) = 0 then none
      else if H.l1pte_is_sect (l1 mem root (l1pte_index v)) then
        some ((l1 mem root (l1pte_index v) &&& Word.highMask 20) ||| (v &&& Word.lowMask 20))
      else if l2 mem root (l1pte_index v) (l2pte_index v) = 0 then none
      else some ((l2 mem root (l1pte_index v) (l2pte_index v) &&& Word.highMask 12) |||
        (v &&& Word.lowMask 12)) := rfl
  rw [hwalk, lookup_page]
  split
  · rfl
  · split
    · have hj := page_l2 v
      refine congrArg some (eq_ofNat ?_)
      rw [Word.or_toNat _ _ (by decide)]
      omega
    · split
      · rfl
      · refine congrArg some (eq_ofNat ?_)
        rw [Word.or_toNat _ _ (by decide), show 2 ^ 12 = 4096 from rfl]

theorem virt_to_phys_pt_eq : virt_to_phys_pt H m v =
    if l1 m.mem m.current_pgtable (l1pte_index v) = 0 then .error .bug
    else if H.l1pte_is_sect (l1 m.mem m.current_pgtable (l1pte_index v)) then
      .ok ((l1 m.mem m.current_pgtable (l1pte_index v) &&& Word.highMask 20) |||
        (v &&& Word.lowMask 12))
    else
      .ok ((l2 m.mem m.current_pgtable (l1pte_index v) (l2pte_index v) &&& Word.highMask 12) |||
        (v &&& Word.lowMask 12)) := by
  rw [← not_pageMask]
  rfl

/-- A page of a second-level table. -/
theorem virt_to_phys_pt_page
    (hs : H.l1pte_is_sect (l1 m.mem m.current_pgtable (l1pte_index v)) = false)
    (h : lookup H m.mem m.current_pgtable (v.toNat / 4096) = some q) :
    virt_to_phys_pt H m v = .ok (BitVec.ofNat 32 (q * 4096 + v.toNat % 4096)) := by
  rw [lookup_page, hs, if_neg Bool.false_ne_true, Option.ite_none_left_eq_some,
    Option.ite_none_left_eq_some] at h
  obtain ⟨h1, -, h2⟩ := h
  rw [virt_to_phys_pt_eq, if_neg h1, hs, if_neg Bool.false_ne_true]
  refine congrArg _ (eq_ofNat ?_)
  rw [offset_toNat _ (by decide) (by decide), Option.some.inj h2, show 2 ^ 12 = 4096 from rfl]

/-- A page of a section: all pages are taken for the first one. -/
theorem virt_to_phys_pt_sect
    (hs : H.l1pte_is_sect (l1 m.mem m.current_pgtable (l1pte_index v)) = true)
    (h : lookup H m.mem m.current_pgtable (v.toNat / 4096) = some q) :
    virt_to_phys_pt H m v = .ok (BitVec.ofNat 32 (q / 256 * 2 ^ 20 + v.toNat % 4096)) := by
  rw [lookup_page, hs, if_pos rfl, Option.ite_none_left_eq_some] at h
  obtain ⟨h1, h2⟩ := h
  have hj := l2pte_index_lt v
  have hq : q / 256 = (l1 m.mem m.current_pgtable (l1pte_index v)).toNat / 2 ^ 20 := by
    have := Option.some.inj h2
    omega
  rw [virt_to_phys_pt_eq, if_neg h1, hs, if_pos rfl]
  refine congrArg _ (eq_ofNat ?_)
  rw [offset_toNat _ (by decide) (by decide), hq]

/-! ## After `create_mapping` -/

namespace Request
variable (r)

/-- The address `v` lies in the range asked for. -/
def Contains (v : Word) : Prop :=
  r.virt_base.toNat ≤ v.toNat ∧ v.toNat < r.virt_base.toNat + r.size.toNat

/-- The walk gives, all over the range, the address that was asked for. -/
def Agrees (H : Header) (m : Machine) : Prop :=
  ∀ v, r.Contains v → virt_to_phys_pt H m v = .ok (r.phys_base + (v - r.virt_base)) ∧
    do_translate H m v = .ok (r.phys_base + (v - r.virt_base))

variable {r}

theorem Contains.page (h : r.Contains v) :
    r.lo / 4096 ≤ v.toNat / 4096 ∧ v.toNat / 4096 < r.hi / 4096 := by
  obtain ⟨h1, h2⟩ := h
  unfold lo hi
  omega

theorem Contains.slot (h : r.Contains v) : r.slot (l1pte_index v) := by
  obtain ⟨h1, h2⟩ := h
  rw [l1pte_index_eq]
  unfold Request.slot lo hi
  constructor
  · exact Nat.div_le_div_right (by omega)
  · exact Nat.div_le_div_right (by omega)

/-- What was asked for `v`, by pages. -/
theorem Contains.expected (R : r.Ok) (h : r.Contains v) :
    (r.phys_base.toNat / 4096 + (v.toNat / 4096 - r.lo / 4096)) * 4096 + v.toNat % 4096 =
      (r.phys_base + (v - r.virt_base)).toNat := by
  obtain ⟨h1, h2⟩ := h
  have hphys := R.phys
  have hoff := R.offset
  have hsum : (r.phys_base + (v - r.virt_base)).toNat =
      r.phys_base.toNat + (v.toNat - r.virt_base.toNat) := by
    have := v.isLt
    bv_omega
  rw [hsum, lo]
  omega

theorem sect_mul {k : Nat} (hk : r.slot k) (hs : r.sect k) : r.chunkLo k = k * 2 ^ 20 := by
  have hdiv := chunkLo_div hk
  have hdvd := hs.1
  omega

/-- A section keeps the index of a page. -/
theorem Contains.sect_page (h : r.Contains v) (hs : r.sect (l1pte_index v)) :
    (r.phys_base.toNat / 4096 + (v.toNat / 4096 - r.lo / 4096)) % 256 = l2pte_index v := by
  have hlo := sect_mul h.slot hs
  have hle := r.lo_le_chunkLo (l1pte_index v)
  have hphys := hs.2.2
  have hpage := r.phys_page (l1pte_index v)
  have hlo4 := r.lo_dvd
  have hv := h.page.1
  rw [hlo, l1pte_index_eq] at hle hphys hpage
  rw [← page_l2]
  omega

/-- A section of the range has a second page. -/
theorem exists_page_of_sect (R : r.Ok) {k : Nat} (hk : r.slot k) (hs : r.sect k) :
    ∃ v, r.Contains v ∧ l1pte_index v = k ∧ 0 < l2pte_index v := by
  have hlo := sect_mul hk hs
  have hlt := R.chunkLo_lt hk
  have hle := r.lo_le_chunkLo k
  have hhi := r.chunkHi_le_hi k
  have hend := hs.2.1
  have hmax := R.hi_le
  have hv : (BitVec.ofNat 32 (k * 2 ^ 20 + 4096)).toNat = k * 2 ^ 20 + 4096 := by
    rw [BitVec.toNat_ofNat]
    omega
  refine ⟨BitVec.ofNat 32 (k * 2 ^ 20 + 4096), ⟨?_, ?_⟩, ?_, ?_⟩
  · rw [hv]
    unfold lo at hle
    omega
  · rw [hv]
    unfold hi at hhi
    omega
  · rw [l1pte_index_eq, hv]
    omega
  · rw [← page_l2, hv]
    omega

end Request

theorem Mapped.lookup_eq (M : Mapped H root r m m') (R : r.Ok) (hv : r.Contains v) :
    lookup H m'.mem root (v.toNat / 4096) =
      some (r.phys_base.toNat / 4096 + (v.toNat / 4096 - r.lo / 4096)) := by
  rw [M.pages_ok R _ (page_lt v), if_pos hv.page]

theorem Mapped.walk_of_not_sect (M : Mapped H root r m m') (hcur : m'.current_pgtable = root)
    (R : r.Ok) (hv : r.Contains v) (hs : ¬r.sect (l1pte_index v)) :
    virt_to_phys_pt H m' v = .ok (r.phys_base + (v - r.virt_base)) := by
  have hpage : H.l1pte_is_sect (l1 m'.mem m'.current_pgtable (l1pte_index v)) = false := by
    rw [hcur, ← Bool.not_eq_true, M.sect _ hv.slot]
    exact hs
  rw [virt_to_phys_pt_page hpage (hcur ▸ M.lookup_eq R hv), hv.expected R, BitVec.ofNat_toNat,
    BitVec.setWidth_eq]

/-- In a section, the walk is wrong from the second page on. -/
theorem Mapped.walk_of_sect (M : Mapped H root r m m') (hcur : m'.current_pgtable = root)
    (R : r.Ok) (hv : r.Contains v) (hs : r.sect (l1pte_index v)) (hpage : 0 < l2pte_index v) :
    virt_to_phys_pt H m' v ≠ .ok (r.phys_base + (v - r.virt_base)) := by
  have hsect : H.l1pte_is_sect (l1 m'.mem m'.current_pgtable (l1pte_index v)) = true := by
    rw [hcur, M.sect _ hv.slot]
    exact hs
  rw [virt_to_phys_pt_sect hsect (hcur ▸ M.lookup_eq R hv)]
  intro heq
  have hnat := congrArg BitVec.toNat (Except.ok.inj heq)
  have hexp := hv.expected R
  have hmod := hv.sect_page hs
  have hlt := (r.phys_base + (v - r.virt_base)).isLt
  rw [← hexp] at hnat hlt
  generalize r.phys_base.toNat / 4096 + (v.toNat / 4096 - r.lo / 4096) = q at hnat hmod hlt
  rw [BitVec.toNat_ofNat] at hnat
  omega

theorem Mapped.agrees_iff (M : Mapped H root r m m') (hcur : m'.current_pgtable = root)
    (R : r.Ok) : r.Agrees H m' ↔ ∀ k, r.slot k → ¬r.sect k := by
  constructor
  · intro h k hk hs
    obtain ⟨v, hv, rfl, hpage⟩ := Request.exists_page_of_sect R hk hs
    exact M.walk_of_sect hcur R hv hs hpage (h v hv).1
  · intro h v hv
    have hwalk := M.walk_of_not_sect hcur R hv (h _ hv.slot)
    exact ⟨hwalk, hwalk⟩

/-! ## From an empty table -/

/-- A new root table: a block of the heap with empty entries. -/
structure IsNew (m : Machine) (root : Word) (m' : Machine) : Prop where
  ne_zero : root ≠ 0
  trace : m'.trace = .alloc .heap (rootRegion root) :: m.trace
  blocks : BlocksOk (live m'.trace)
  empty : ∀ i < 4096, l1 m'.mem root i = 0
  frame : m.mem.EqOff m'.mem (rootRegion root)
  sys_root : m'.sys_root_pgtable = m.sys_root_pgtable
  current : m'.current_pgtable = m.current_pgtable

theorem new_root_pgtable_spec (B : BlocksOk (live m.trace)) :
    wp (new_root_pgtable al m) (fun x => IsNew m x.1 x.2) (· = .noMemory) := by
  unfold new_root_pgtable Machine.memalign
  cases ht : al.memalign m.trace (4 * TTB_L1_ENTRIES) SZ_16K with
  | none => exact wp_throw.mpr rfl
  | some p =>
    have F : Fresh (live m.trace) p 16384 (2 ^ 14) := al.memalign_fresh ht
    simp only [pure_bind, wp_pure]
    exact ⟨F.ne_zero, rfl, B.cons F (by decide) _,
      fun i hi => Memory.load_fill_zero (entry_sub_root hi), Memory.eqOff_fill _ _ _ _, rfl, rfl⟩

theorem IsNew.tables (N : IsNew m root m') : TablesOk H m' root where
  blocks := N.blocks
  root_live := ⟨.heap, by rw [N.trace]; exact List.mem_cons_self⟩
  table_live i hi ht := absurd (N.empty i hi ▸ ht) not_isTable_zero
  inj i hi _ _ ht := absurd (N.empty i hi ▸ ht) not_isTable_zero

theorem TablesOk.setCurrent (T : TablesOk H m root) (p : Word) :
    TablesOk H { m with current_pgtable := p } root := ⟨T.blocks, T.root_live, T.table_live, T.inj⟩

/-- The tables that calls of `create_mapping` build from an empty one, which is the current one.
No call takes a section entry for a second-level table. -/
inductive Reached (H : Header) (al : Allocators) : Word → Machine → Prop where
  | new {m m' : Machine} {root : Word} (hm : BlocksOk (live m.trace))
    (hnew : new_root_pgtable al m = .ok (root, m')) :
    Reached H al root { m' with current_pgtable := root }
  | map {m m' : Machine} {root : Word} {r : Request} (h : Reached H al root m) (hr : r.Range)
    (hclear : r.Clear H m.mem root)
    (hmap : create_mapping H al m root r.virt_base r.phys_base r.size r.nocache = .ok m') :
    Reached H al root m'

theorem Reached.tables (h : Reached H al root m) :
    TablesOk H m root ∧ root ≠ 0 ∧ m.current_pgtable = root := by
  induction h with
  | new hm hnew =>
    have N := (new_root_pgtable_spec hm).of_ok hnew
    exact ⟨N.tables.setCurrent _, N.ne_zero, rfl⟩
  | map h hr hclear hmap ih =>
    obtain ⟨T, hroot, hcur⟩ := ih
    have M := (create_mapping_spec T hroot hr hclear).of_ok hmap
    exact ⟨M.ext.tables, hroot, M.ext.current.trans hcur⟩

/-- After a call, the walk agrees with the mapping asked for if and only if no part of the range
is mapped by a section. -/
theorem agrees_iff_not_sect (h : Reached H al root m) (R : r.Ok) (hclear : r.Clear H m.mem root) :
    wp (create_mapping H al m root r.virt_base r.phys_base r.size r.nocache)
      (fun m' => r.Agrees H m' ↔ ∀ k, r.slot k → ¬r.sect k) (· = .noMemory) := by
  obtain ⟨T, hroot, hcur⟩ := h.tables
  refine (create_mapping_spec T hroot R.toRange hclear).mono fun m' M => ?_
  exact M.agrees_iff (M.ext.current.trans hcur) R

theorem Arm.new_rooted : new_root_pgtable Arm.allocators Arm.start =
    .ok (0x100000, { Arm.rooted with current_pgtable := 0 }) := rfl

theorem Arm.rooted_reached : Reached Arm.header Arm.allocators 0x100000 Arm.rooted :=
  .new Arm.start_blocks Arm.new_rooted

theorem Arm.rooted_empty : ∀ i < 4096, l1 Arm.rooted.mem 0x100000 i = 0 :=
  ((new_root_pgtable_spec Arm.start_blocks).of_ok Arm.new_rooted).empty

/-- One page, in an empty table. -/
theorem agrees_iff_not_sect_page :
    (⟨0x7abc, 0x805abc, 0x100, false⟩ : Request).Ok ∧ ∃ m',
      create_mapping Arm.header Arm.allocators Arm.rooted 0x100000 0x7abc 0x805abc 0x100 false =
        .ok m' ∧
      ((⟨0x7abc, 0x805abc, 0x100, false⟩ : Request).Agrees Arm.header m' ↔
        ∀ k, (⟨0x7abc, 0x805abc, 0x100, false⟩ : Request).slot k →
          ¬(⟨0x7abc, 0x805abc, 0x100, false⟩ : Request).sect k) := by
  have R : (⟨0x7abc, 0x805abc, 0x100, false⟩ : Request).Ok :=
    ⟨⟨by decide, by decide⟩, by decide, by decide⟩
  have hclear : Request.Clear ⟨0x7abc, 0x805abc, 0x100, false⟩ Arm.header Arm.rooted.mem 0x100000 :=
    fun k hk _ => .inr (Arm.rooted_empty k (lt_of_le_of_lt hk.2 (by decide)))
  have hrun : (create_mapping Arm.header Arm.allocators Arm.rooted 0x100000 0x7abc 0x805abc 0x100
      false).isOk = true := by decide +kernel
  obtain ⟨m', hm⟩ := exists_of_isOk hrun
  exact ⟨R, m', hm, (agrees_iff_not_sect Arm.rooted_reached R hclear).of_ok hm⟩

/-- A range of one section, and its second page. -/
theorem not_agrees_section : ∃ m', (⟨0x300000, 0x500000, 0x100000, false⟩ : Request).Ok ∧
    Reached Arm.header Arm.allocators 0x100000 Arm.rooted ∧
    create_mapping Arm.header Arm.allocators Arm.rooted 0x100000 0x300000 0x500000 0x100000 false =
      .ok m' ∧
    m'.current_pgtable = 0x100000 ∧ virt_to_phys_pt Arm.header m' 0x301000 = .ok 0x500000 ∧
    ¬(⟨0x300000, 0x500000, 0x100000, false⟩ : Request).Agrees Arm.header m' := by
  have hrun : ((create_mapping Arm.header Arm.allocators Arm.rooted 0x100000 0x300000 0x500000
      0x100000 false).bind fun m => (virt_to_phys_pt Arm.header m 0x301000).map
        fun w => (m.current_pgtable, w)).toOption = some (0x100000, 0x500000) := by decide +kernel
  obtain ⟨m', w, hmap, hwalk, hsame⟩ := exists_of_bind_eq hrun
  obtain ⟨hcur, rfl⟩ := Prod.mk.inj hsame
  have R : (⟨0x300000, 0x500000, 0x100000, false⟩ : Request).Ok :=
    ⟨⟨by decide, by decide⟩, by decide, by decide⟩
  refine ⟨m', R, Arm.rooted_reached, hmap, hcur, hwalk, fun h => ?_⟩
  have hagree := (h 0x301000 ⟨by decide, by decide⟩).1
  rw [hwalk] at hagree
  exact absurd (Except.ok.inj hagree) (by decide)

end SyeLabs.Mmu
