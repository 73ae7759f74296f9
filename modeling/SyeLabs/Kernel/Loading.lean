import SyeLabs.Kernel.Allocation
import SyeLabs.Mmu.Footprint

/-!
# The sections that `load_process` loads

The sections that are stored in the file are copied to the pages of the new image. The others are
skipped, so what they hold is what their frames held before.
-/

namespace SyeLabs.Kernel

open Mmu

variable {H : Header} {elf_img_info : ElfImage} {segment : ElfSegment} {sec : ElfSection}
  {tr : Memory → Word → Option Word} {m m' : Memory} {S : ElfSection → Prop} {x y : Word}

namespace ElfSection
variable (sec : ElfSection)

def Supported : Prop := sec.name ∈ supported_section_names

/-- Supported, with contents in the file. -/
def Stored : Prop := sec.Supported ∧ sec.sh_type ≠ SHT_NOBITS

/-- Byte `k` of the section in the image, and in the buffer with the file. -/
def addr (k : Nat) : Word := sec.sh_addr + BitVec.ofNat 32 k

def fileByte (file_buffer : Word) (k : Nat) : Word :=
  file_buffer + sec.sh_offset + BitVec.ofNat 32 k

end ElfSection

/-- The segment is loaded, and the section is part of it by file offset. -/
structure ElfSegment.Holds (segment : ElfSegment) (sec : ElfSection) : Prop where
  load : segment.p_type = PT_LOAD
  start : segment.p_offset.toNat ≤ sec.sh_offset.toNat
  stop : sec.sh_offset.toNat + sec.sh_size.toNat ≤
    segment.p_offset.toNat + segment.p_memsz.toNat

/-- An address of a supported section. -/
def ElfImage.Addr (elf_img_info : ElfImage) (x : Word) : Prop :=
  ∃ sec ∈ elf_img_info.sections, sec.Supported ∧ ∃ k < sec.sh_size.toNat, x = sec.addr k

/-- Each supported section is part of a segment that is loaded, and no two of them overlap. -/
structure ElfImage.WellFormed (elf_img_info : ElfImage) : Prop where
  segment : ∀ sec ∈ elf_img_info.sections, sec.Supported →
    ∃ segment ∈ elf_img_info.segments, segment.Holds sec
  disjoint : elf_img_info.sections.Pairwise fun a b => a.Supported → b.Supported →
    ∀ j < a.sh_size.toNat, ∀ k < b.sh_size.toNat, a.addr j ≠ b.addr k

/-- The addresses of the supported sections have places of their own in memory, as long as nothing
else is written; and the file is somewhere else. -/
structure Placed (tr : Memory → Word → Option Word) (m : Memory) (elf_img_info : ElfImage)
    (place : Word → Word) : Prop where
  tr_eq : ∀ m', (∀ y, (∀ x, elf_img_info.Addr x → y ≠ place x) → m y = m' y) →
    ∀ x, elf_img_info.Addr x → tr m' x = some (place x)
  inj : ∀ x y, elf_img_info.Addr x → elf_img_info.Addr y → place x = place y → x = y
  file : ∀ sec ∈ elf_img_info.sections, sec.Stored → ∀ k < sec.sh_size.toNat,
    ∀ x, elf_img_info.Addr x → sec.fileByte elf_img_info.file_buffer k ≠ place x

/-- The sections of `S` have been loaded, and nothing else has been written. -/
structure Loading (m : Memory) (elf_img_info : ElfImage) (place : Word → Word)
    (S : ElfSection → Prop) (m' : Memory) : Prop where
  stored : ∀ sec, S sec → sec ∈ elf_img_info.sections ∧ sec.Stored
  loaded : ∀ sec, S sec → ∀ k < sec.sh_size.toNat,
    m' (place (sec.addr k)) = m (sec.fileByte elf_img_info.file_buffer k)
  rest : ∀ y, (∀ sec, S sec → ∀ k < sec.sh_size.toNat, y ≠ place (sec.addr k)) → m y = m' y

/-- The code takes the section for a part of the segment, and copies it. -/
def Takes (segment : ElfSegment) (sec : ElfSection) : Prop :=
  ¬(sec.sh_offset < segment.p_offset ∨
    segment.p_offset + segment.p_memsz < sec.sh_offset + sec.sh_size) ∧ sec.Stored

/-- Some segment that is loaded takes the section. -/
def ElfImage.Taken (elf_img_info : ElfImage) (sec : ElfSection) : Prop :=
  sec ∈ elf_img_info.sections ∧
    ∃ segment ∈ elf_img_info.segments, segment.p_type = PT_LOAD ∧ Takes segment sec

theorem ElfImage.Taken.stored (h : elf_img_info.Taken sec) : sec.Stored := by
  obtain ⟨-, segment, -, -, -, hst⟩ := h
  exact hst

theorem loadSection_of_takes {file_buffer : Word} (h : Takes segment sec) :
    loadSection tr file_buffer segment m sec =
      m.memcpy tr (fun _ => some) sec.sh_addr (file_buffer + sec.sh_offset) sec.sh_size.toNat := by
  obtain ⟨hrange, hsup, htype⟩ := h
  have hname : sec.name ∈ supported_section_names := hsup
  unfold loadSection
  rw [if_neg hrange, if_neg (not_not.mpr hname), if_neg htype]

theorem loadSection_of_not_takes {file_buffer : Word} (h : ¬Takes segment sec) :
    loadSection tr file_buffer segment m sec = some m := by
  unfold loadSection
  by_cases hrange : sec.sh_offset < segment.p_offset ∨
      segment.p_offset + segment.p_memsz < sec.sh_offset + sec.sh_size
  · rw [if_pos hrange]
  by_cases hname : sec.name ∈ supported_section_names
  · by_cases htype : sec.sh_type = SHT_NOBITS
    · rw [if_neg hrange, if_neg (not_not.mpr hname), if_pos htype]
    · exact absurd ⟨hrange, hname, htype⟩ h
  · rw [if_neg hrange, if_pos hname]

section
variable {place : Word → Word} (P : Placed tr m elf_img_info place)

theorem ElfImage.addr_of_mem (hsec : sec ∈ elf_img_info.sections) (h : sec.Supported) {k : Nat}
    (hk : k < sec.sh_size.toNat) : elf_img_info.Addr (sec.addr k) := ⟨sec, hsec, h, k, hk, rfl⟩

theorem ElfImage.WellFormed.eq_or_ne (W : elf_img_info.WellFormed) {a b : ElfSection}
    (ha : a ∈ elf_img_info.sections) (hb : b ∈ elf_img_info.sections) (hsa : a.Supported)
    (hsb : b.Supported) : a = b ∨
      ∀ j < a.sh_size.toNat, ∀ k < b.sh_size.toNat, a.addr j ≠ b.addr k := by
  let R : ElfSection → ElfSection → Prop := fun a b => a.Supported → b.Supported →
    a = b ∨ ∀ j < a.sh_size.toNat, ∀ k < b.sh_size.toNat, a.addr j ≠ b.addr k
  have hsymm : Std.Symm R := by
    refine ⟨fun a b h hb ha => ?_⟩
    rcases h ha hb with rfl | hne
    · exact .inl rfl
    · exact .inr fun j hj k hk heq => hne k hk j hj heq.symm
  have hpair : elf_img_info.sections.Pairwise R :=
    W.disjoint.imp fun h ha hb => .inr (h ha hb)
  have hrefl : ∀ a ∈ elf_img_info.sections, R a a := fun _ _ _ _ => .inl rfl
  exact hpair.forall_of_forall hrefl ha hb hsa hsb

theorem ElfSection.addr_inj {j k : Nat} (hj : j < sec.sh_size.toNat) (hk : k < sec.sh_size.toNat)
    (h : sec.addr j = sec.addr k) : j = k := by
  have hlt := sec.sh_size.isLt
  unfold ElfSection.addr at h
  bv_omega

theorem Loading.congr {S' : ElfSection → Prop} (L : Loading m elf_img_info place S m')
    (h : ∀ sec, S sec ↔ S' sec) : Loading m elf_img_info place S' m' := by
  have heq : S = S' := funext fun sec => propext (h sec)
  exact heq ▸ L

theorem Loading.first : Loading m elf_img_info place (fun _ => False) m where
  stored _ h := h.elim
  loaded _ h := h.elim
  rest _ _ := rfl

include P

/-- One more section. -/
theorem Loading.copy (W : elf_img_info.WellFormed) (L : Loading m elf_img_info place S m')
    (hsec : sec ∈ elf_img_info.sections) (hst : sec.Stored) :
    ∃ m'', m'.memcpy tr (fun _ => some) sec.sh_addr (elf_img_info.file_buffer + sec.sh_offset)
        sec.sh_size.toNat = some m'' ∧
      Loading m elf_img_info place (fun s => S s ∨ s = sec) m'' := by
  have haddr : ∀ k < sec.sh_size.toNat, elf_img_info.Addr (sec.addr k) :=
    fun k hk => ElfImage.addr_of_mem hsec hst.1 hk
  have hplaces : ∀ s, S s → ∀ k < s.sh_size.toNat, elf_img_info.Addr (s.addr k) :=
    fun s hs k hk => ElfImage.addr_of_mem (L.stored s hs).1 (L.stored s hs).2.1 hk
  have hkept : ∀ m'' : Memory,
      (∀ y, (∀ k < sec.sh_size.toNat, y ≠ place (sec.addr k)) → m' y = m'' y) →
      ∀ y, (∀ x, elf_img_info.Addr x → y ≠ place x) → m y = m'' y := by
    intro m'' h y hy
    rw [L.rest y fun s hs k hk => hy _ (hplaces s hs k hk)]
    exact h y fun k hk => hy _ (haddr k hk)
  obtain ⟨m'', hrun, hcopied, hrest⟩ : ∃ m'', m'.memcpy tr (fun _ => some) sec.sh_addr
      (elf_img_info.file_buffer + sec.sh_offset) sec.sh_size.toNat = some m'' ∧
      (∀ k < sec.sh_size.toNat,
        m'' (place (sec.addr k)) = m' (sec.fileByte elf_img_info.file_buffer k)) ∧
      ∀ y, (∀ k < sec.sh_size.toNat, y ≠ place (sec.addr k)) → m' y = m'' y := by
    apply Memory.memcpy_eq_some
    · exact fun m'' h k hk => P.tr_eq m'' (hkept m'' h) _ (haddr k hk)
    · exact fun _ _ _ _ => rfl
    · intro j hj k hk h
      exact ElfSection.addr_inj hj hk (P.inj _ _ (haddr j hj) (haddr k hk) h)
    · exact fun j hj k hk => P.file sec hsec hst j hj _ (haddr k hk)
  refine ⟨m'', hrun, ?_, ?_, ?_⟩
  · rintro s (hs | rfl)
    · exact L.stored s hs
    · exact ⟨hsec, hst⟩
  · have hnew : ∀ k < sec.sh_size.toNat, m'' (place (sec.addr k)) =
        m (sec.fileByte elf_img_info.file_buffer k) := by
      intro k hk
      rw [hcopied k hk]
      exact (L.rest _ fun s hs j hj =>
        P.file sec hsec hst k hk _ (hplaces s hs j hj)).symm
    rintro s (hs | rfl) k hk
    · rcases W.eq_or_ne (L.stored s hs).1 hsec (L.stored s hs).2.1 hst.1 with rfl | hne
      · exact hnew k hk
      · rw [← L.loaded s hs k hk]
        refine (hrest _ fun j hj h => hne k hk j hj ?_).symm
        exact P.inj _ _ (hplaces s hs k hk) (haddr j hj) h
    · exact hnew k hk
  · intro y hy
    rw [L.rest y fun s hs => hy s (.inl hs)]
    exact hrest y (hy sec (.inr rfl))

theorem Loading.section (W : elf_img_info.WellFormed) (L : Loading m elf_img_info place S m')
    (hsec : sec ∈ elf_img_info.sections) :
    ∃ m'', loadSection tr elf_img_info.file_buffer segment m' sec = some m'' ∧
      Loading m elf_img_info place (fun s => S s ∨ s = sec ∧ Takes segment s) m'' := by
  by_cases htakes : Takes segment sec
  · obtain ⟨m'', hrun, L'⟩ := L.copy P W hsec htakes.2
    refine ⟨m'', by rw [loadSection_of_takes htakes, hrun], L'.congr fun s => ?_⟩
    constructor
    · rintro (hs | rfl)
      · exact .inl hs
      · exact .inr ⟨rfl, htakes⟩
    · rintro (hs | ⟨rfl, -⟩)
      · exact .inl hs
      · exact .inr rfl
  · refine ⟨m', loadSection_of_not_takes htakes, L.congr fun s => ?_⟩
    constructor
    · exact .inl
    · rintro (hs | ⟨rfl, hs⟩)
      · exact hs
      · exact absurd hs htakes

/-- The loop over the sections. -/
theorem Loading.sections (W : elf_img_info.WellFormed) (secs : List ElfSection)
    (hsub : secs ⊆ elf_img_info.sections) (L : Loading m elf_img_info place S m') :
    ∃ m'', secs.foldlM (loadSection tr elf_img_info.file_buffer segment) m' = some m'' ∧
      Loading m elf_img_info place (fun s => S s ∨ s ∈ secs ∧ Takes segment s) m'' := by
  induction secs generalizing S m' with
  | nil => exact ⟨m', rfl, L.congr fun s => by simp⟩
  | cons sec secs ih =>
    obtain ⟨hsec, hsub⟩ := List.cons_subset.mp hsub
    obtain ⟨m1, hrun, L1⟩ := L.section P W hsec
    obtain ⟨m2, hrun', L2⟩ := ih hsub L1
    refine ⟨m2, ?_, L2.congr fun s => ?_⟩
    · rw [List.foldlM_cons, hrun]
      exact hrun'
    · rw [List.mem_cons]
      tauto

/-- The loop over the segments. -/
theorem Loading.segments (W : elf_img_info.WellFormed) (segments : List ElfSegment)
    (L : Loading m elf_img_info place S m') :
    ∃ m'', segments.foldlM (fun m segment =>
        if segment.p_type ≠ PT_LOAD then some m
        else elf_img_info.sections.foldlM (loadSection tr elf_img_info.file_buffer segment) m) m' =
        some m'' ∧
      Loading m elf_img_info place (fun s => S s ∨ s ∈ elf_img_info.sections ∧
        ∃ segment ∈ segments, segment.p_type = PT_LOAD ∧ Takes segment s) m'' := by
  induction segments generalizing S m' with
  | nil => exact ⟨m', rfl, L.congr fun s => by simp⟩
  | cons segment segments ih =>
    by_cases hload : segment.p_type = PT_LOAD
    · obtain ⟨m1, hrun, L1⟩ : ∃ m1, elf_img_info.sections.foldlM
          (loadSection tr elf_img_info.file_buffer segment) m' = some m1 ∧ _ :=
        L.sections P W _ (List.Subset.refl _)
      obtain ⟨m2, hrun', L2⟩ := ih L1
      refine ⟨m2, ?_, L2.congr fun s => ?_⟩
      · rw [List.foldlM_cons, if_neg (not_not.mpr hload), hrun]
        exact hrun'
      · simp only [List.mem_cons, exists_eq_or_imp, hload, true_and]
        tauto
    · obtain ⟨m2, hrun', L2⟩ := ih L
      refine ⟨m2, ?_, L2.congr fun s => ?_⟩
      · rw [List.foldlM_cons, if_pos hload]
        exact hrun'
      · simp only [List.mem_cons, exists_eq_or_imp, hload, false_and, false_or]

/-- What is taken is loaded. -/
theorem load_process_loading (W : elf_img_info.WellFormed) :
    ∃ m', load_process tr m elf_img_info = some m' ∧
      Loading m elf_img_info place elf_img_info.Taken m' := by
  obtain ⟨m', hrun, L⟩ := Loading.first.segments P W elf_img_info.segments
  exact ⟨m', hrun, L.congr fun s => by rw [false_or]; exact Iff.rfl⟩

omit P in
/-- The check of the code does not go wrong on a segment that does not go around. -/
theorem ElfSegment.Holds.takes (h : segment.Holds sec)
    (hfits : segment.p_offset.toNat + segment.p_memsz.toNat < 2 ^ 32) (hst : sec.Stored) :
    Takes segment sec := by
  obtain ⟨-, hstart, hstop⟩ := h
  refine ⟨?_, hst⟩
  rw [BitVec.lt_def, BitVec.lt_def, BitVec.toNat_add, BitVec.toNat_add]
  omega

omit P in
theorem ElfImage.WellFormed.taken (W : elf_img_info.WellFormed)
    (hfits : ∀ segment ∈ elf_img_info.segments,
      segment.p_offset.toNat + segment.p_memsz.toNat < 2 ^ 32)
    (hsec : sec ∈ elf_img_info.sections) (hst : sec.Stored) : elf_img_info.Taken sec := by
  obtain ⟨segment, hsegment, h⟩ := W.segment sec hsec hst.1
  exact ⟨hsec, segment, hsegment, h.load, h.takes (hfits segment hsegment) hst⟩

end

/-! ## In the user area -/

/-- The byte at `x` as a process with this page table reads it. -/
def userByte (H : Header) (root : Word) (mem : Memory) (x : Word) : Option Byte :=
  (translate H root mem x).map mem

/-- The supported sections lie in pages that are mapped to frames of their own, none of which holds
a part of the file. -/
structure MappedImage (H : Header) (M : Machine) (elf_img_info : ElfImage) : Prop where
  tables : TablesOk H M M.current_pgtable
  mapped : ∀ x, elf_img_info.Addr x → ∃ q,
    lookup H M.mem M.current_pgtable (x.toNat / 4096) = some q ∧
      (.frames, frameRegion q) ∈ live M.trace
  own : ∀ x y, elf_img_info.Addr x → elf_img_info.Addr y →
    lookup H M.mem M.current_pgtable (x.toNat / 4096) =
      lookup H M.mem M.current_pgtable (y.toNat / 4096) → x.toNat / 4096 = y.toNat / 4096
  file : ∀ sec ∈ elf_img_info.sections, sec.Stored → ∀ k < sec.sh_size.toNat,
    ∀ x q, elf_img_info.Addr x → lookup H M.mem M.current_pgtable (x.toNat / 4096) = some q →
      sec.fileByte elf_img_info.file_buffer k ∉ frameRegion q

/-- The sections have been loaded: the process reads what the file has, and zeros in the sections
that are not in the file; and no other byte of memory has changed. -/
structure Loaded (H : Header) (M : Machine) (elf_img_info : ElfImage) (m' : Memory) : Prop where
  stored : ∀ sec ∈ elf_img_info.sections, sec.Stored → ∀ k < sec.sh_size.toNat,
    userByte H M.current_pgtable m' (sec.addr k) =
      some (M.mem (sec.fileByte elf_img_info.file_buffer k))
  nobits : ∀ sec ∈ elf_img_info.sections, sec.Supported → sec.sh_type = SHT_NOBITS →
    ∀ k < sec.sh_size.toNat, userByte H M.current_pgtable m' (sec.addr k) = some 0
  written : ∀ y, M.mem y ≠ m' y → ∃ x, elf_img_info.Addr x ∧
    translate H M.current_pgtable M.mem x = some y

/-- What is not copied is in the frames already: zeros in the sections that are not in the file,
and the contents of a section that the check of the code finds in no segment, since the end of the
segment goes around. -/
structure Ready (H : Header) (M : Machine) (elf_img_info : ElfImage) : Prop where
  nobits : ∀ sec ∈ elf_img_info.sections, sec.Supported → sec.sh_type = SHT_NOBITS →
    ∀ k < sec.sh_size.toNat, userByte H M.current_pgtable M.mem (sec.addr k) = some 0
  missed : ∀ sec ∈ elf_img_info.sections, sec.Stored → ¬elf_img_info.Taken sec →
    ∀ k < sec.sh_size.toNat, userByte H M.current_pgtable M.mem (sec.addr k) =
      some (M.mem (sec.fileByte elf_img_info.file_buffer k))

/-- Where the byte at `x` lies. -/
def placeOf (H : Header) (M : Machine) (x : Word) : Word :=
  (translate H M.current_pgtable M.mem x).getD 0

variable {M : Machine}

theorem placeOf_eq {q : Nat}
    (h : lookup H M.mem M.current_pgtable (x.toNat / 4096) = some q) :
    translate H M.current_pgtable M.mem x = some (placeOf H M x) ∧
      (placeOf H M x).toNat = q * 4096 + x.toNat % 4096 := by
  have hq := lookup_lt h
  have htr : translate H M.current_pgtable M.mem x = _ := translate_eq M.mem
  rw [h, Option.map_some] at htr
  rw [placeOf, htr]
  refine ⟨rfl, ?_⟩
  rw [Option.getD_some, BitVec.toNat_ofNat]
  omega

theorem placeOf_mem {q : Nat} (h : lookup H M.mem M.current_pgtable (x.toNat / 4096) = some q) :
    placeOf H M x ∈ frameRegion q := by
  have hplace := (placeOf_eq h).2
  have hq := lookup_lt h
  have hbase : (frameAt q).toNat = q * 4096 := by
    rw [frameAt, BitVec.toNat_ofNat]
    omega
  rw [frameRegion, Region.mem_def, PAGE_SIZE]
  bv_omega

theorem MappedImage.placed (I : MappedImage H M elf_img_info) :
    Placed (translate H M.current_pgtable) M.mem elf_img_info (placeOf H M) where
  tr_eq m' h x hx := by
    obtain ⟨q, hq, -⟩ := I.mapped x hx
    have hsame : SameSlots H 4096 M.current_pgtable M.mem m' := by
      have hout : ∀ r : Region, (∀ q, (.frames, frameRegion q) ∈ live M.trace →
          r.Disjoint (frameRegion q)) → M.mem.EqOn m' r := by
        intro r hr y hy
        refine h y fun x hx heq => ?_
        obtain ⟨q, hq, hlive⟩ := I.mapped x hx
        exact hr q hlive y hy (heq ▸ placeOf_mem hq)
      refine SameSlots.of_eqOn le_rfl (hout _ fun q hq => ?_) fun i hi ht => hout _ fun q hq => ?_
      · exact (I.tables.page_disjoint hq rfl).1
      · exact (I.tables.page_disjoint hq rfl).2 i hi ht
    have hlt := x.isLt
    rw [translate_eq, ← hsame.lookup_eq (by omega), ← translate_eq]
    exact (placeOf_eq hq).1
  inj x y hx hy heq := by
    obtain ⟨q, hq, -⟩ := I.mapped x hx
    obtain ⟨q', hq', -⟩ := I.mapped y hy
    have h := (placeOf_eq hq).2
    have h' := (placeOf_eq hq').2
    rw [heq, h'] at h
    have hpage : q = q' := by omega
    have hsame := I.own x y hx hy (by rw [hq, hq', hpage])
    apply BitVec.eq_of_toNat_eq
    omega
  file sec hsec hst k hk x hx heq := by
    obtain ⟨q, hq, -⟩ := I.mapped x hx
    exact I.file sec hsec hst k hk x q hx hq (heq ▸ placeOf_mem hq)

section
variable (W : elf_img_info.WellFormed) (I : MappedImage H M elf_img_info)
  (L : Loading M.mem elf_img_info (placeOf H M) elf_img_info.Taken m')
include I L

/-- The page table is as before. -/
theorem Loading.userByte_eq (hx : elf_img_info.Addr x) :
    userByte H M.current_pgtable m' x = some (m' (placeOf H M x)) := by
  have htr := I.placed.tr_eq m' (fun y hy => L.rest y fun s hs k hk =>
    hy _ (ElfImage.addr_of_mem hs.1 hs.stored.1 hk)) x hx
  rw [userByte, htr]
  rfl

omit L in
theorem MappedImage.userByte_eq (hx : elf_img_info.Addr x) :
    userByte H M.current_pgtable M.mem x = some (M.mem (placeOf H M x)) := by
  obtain ⟨q, hq, -⟩ := I.mapped x hx
  rw [userByte, (placeOf_eq hq).1]
  rfl

include W in
/-- What is not taken reads as before. -/
theorem Loading.userByte_same (hsec : sec ∈ elf_img_info.sections) (hsup : sec.Supported)
    (h : ¬elf_img_info.Taken sec) {k : Nat} (hk : k < sec.sh_size.toNat) :
    userByte H M.current_pgtable m' (sec.addr k) =
      userByte H M.current_pgtable M.mem (sec.addr k) := by
  have haddr := ElfImage.addr_of_mem hsec hsup hk
  rw [L.userByte_eq I haddr, I.userByte_eq haddr]
  refine congrArg some (L.rest _ fun s hs j hj heq => ?_).symm
  have hsame := I.placed.inj _ _ haddr (ElfImage.addr_of_mem hs.1 hs.stored.1 hj) heq
  rcases W.eq_or_ne hsec hs.1 hsup hs.stored.1 with rfl | hne
  · exact h hs
  · exact hne k hk j hj hsame

include W in
theorem Loading.userByte_nobits (hsec : sec ∈ elf_img_info.sections) (hsup : sec.Supported)
    (htype : sec.sh_type = SHT_NOBITS) {k : Nat} (hk : k < sec.sh_size.toNat) :
    userByte H M.current_pgtable m' (sec.addr k) =
      userByte H M.current_pgtable M.mem (sec.addr k) :=
  L.userByte_same W I hsec hsup (fun h => h.stored.2 htype) hk

end

/-- `load_process` loads the sections exactly if the frames held the right bytes where it copies
nothing. -/
theorem load_process_loaded_iff (W : elf_img_info.WellFormed) (I : MappedImage H M elf_img_info) :
    ∃ m', load_process (translate H M.current_pgtable) M.mem elf_img_info = some m' ∧
      (Loaded H M elf_img_info m' ↔ Ready H M elf_img_info) := by
  obtain ⟨m', hrun, L⟩ := load_process_loading I.placed W
  refine ⟨m', hrun, fun h => ⟨?_, ?_⟩, fun h => ⟨?_, ?_, ?_⟩⟩
  · intro sec hsec hsup htype k hk
    rw [← L.userByte_nobits W I hsec hsup htype hk]
    exact h.nobits sec hsec hsup htype k hk
  · intro sec hsec hst hmissed k hk
    rw [← L.userByte_same W I hsec hst.1 hmissed hk]
    exact h.stored sec hsec hst k hk
  · intro sec hsec hst k hk
    by_cases htaken : elf_img_info.Taken sec
    · rw [L.userByte_eq I (ElfImage.addr_of_mem hsec hst.1 hk), L.loaded sec htaken k hk]
    · rw [L.userByte_same W I hsec hst.1 htaken hk]
      exact h.missed sec hsec hst htaken k hk
  · intro sec hsec hsup htype k hk
    rw [L.userByte_nobits W I hsec hsup htype hk]
    exact h.nobits sec hsec hsup htype k hk
  · intro y hy
    by_contra hno
    refine hy (L.rest y fun s hs k hk heq => hno ?_)
    have haddr := ElfImage.addr_of_mem hs.1 hs.stored.1 hk
    obtain ⟨q, hq, -⟩ := I.mapped _ haddr
    exact ⟨_, haddr, heq ▸ (placeOf_eq hq).1⟩

/-! ## A program of one page -/

/-- A process with nothing mapped, in memory that has been used before. -/
def dirtyUser : Work where
  pcb := { pid := 1, pgtable := 0x100000 }
  m := { Arm.reused with current_pgtable := 0x100000 }
  refcount := fun _ => 0

theorem dirtyUser_userSpace : UserSpace Arm.header smallConfig dirtyUser where
  ne_zero := by decide
  tables := Arm.reused_edited.tables.1.setCurrent _
  small i hi := .inl (Arm.reused_empty i (lt_trans hi (by decide)))
  backed p hp q hq := by
    have hlt : p / 256 < 4096 := by
      change p < 0xC00 * 256 at hp
      omega
    have hzero : l1 dirtyUser.m.mem dirtyUser.pcb.pgtable (p / 256) = 0 :=
      Arm.reused_empty _ hlt
    rw [lookup, hzero, if_pos rfl] at hq
    exact absurd hq.symm (Option.some_ne_none q)

/-- Four bytes of code, and four of data that are not in the file. -/
def smallElf : ElfImage where
  e_entry := 0x1000
  segment_page_count := 1
  segments := [⟨PT_LOAD, 0, 0x1000⟩]
  sections := [⟨bytes ".text", 1, 0x1000, 0, 4⟩, ⟨bytes ".bss", SHT_NOBITS, 0x1800, 0x10, 4⟩]
  file_buffer := 0x400000

theorem smallElf_wellFormed : smallElf.WellFormed where
  segment sec hsec _ := by
    refine ⟨_, List.mem_singleton_self _, rfl, Nat.zero_le _, ?_⟩
    rcases List.mem_pair.mp hsec with rfl | rfl <;> decide
  disjoint := by
    refine List.pairwise_pair.mpr fun _ _ j hj k hk h => ?_
    change j < 4 at hj
    change k < 4 at hk
    change (0x1000 : Word) + BitVec.ofNat 32 j = 0x1800 + BitVec.ofNat 32 k at h
    bv_omega

theorem smallElf_addr (h : smallElf.Addr x) : x.toNat / 4096 = 1 := by
  obtain ⟨sec, hsec, -, k, hk, rfl⟩ := h
  rcases List.mem_pair.mp hsec with rfl | rfl
  · change k < 4 at hk
    change ((0x1000 : Word) + BitVec.ofNat 32 k).toNat / 4096 = 1
    bv_omega
  · change k < 4 at hk
    change ((0x1800 : Word) + BitVec.ofNat 32 k).toNat / 4096 = 1
    bv_omega

theorem smallElf_fileByte (hsec : sec ∈ smallElf.sections) {k : Nat}
    (hk : k < sec.sh_size.toNat) :
    sec.fileByte smallElf.file_buffer k ∉ frameRegion 0x800 := by
  rw [frameRegion, Region.mem_def]
  change ¬(sec.fileByte smallElf.file_buffer k - 0x800000).toNat < 4096
  rcases List.mem_pair.mp hsec with rfl | rfl
  · change k < 4 at hk
    change ¬((0x400000 : Word) + 0 + BitVec.ofNat 32 k - 0x800000).toNat < 4096
    bv_omega
  · change k < 4 at hk
    change ¬((0x400000 : Word) + 0x10 + BitVec.ofNat 32 k - 0x800000).toNat < 4096
    bv_omega

theorem smallElf_mapped : ∃ w,
    allocate_page Arm.header Arm.allocators dirtyUser 0x1000 1 = .ok w ∧
      MappedImage Arm.header w.m smallElf ∧
      userByte Arm.header w.m.current_pgtable w.m.mem 0x1800 = some 1 := by
  have hrun : ((allocate_page Arm.header Arm.allocators dirtyUser 0x1000 1).map fun w =>
      (w.m.current_pgtable, lookup Arm.header w.m.mem 0x100000 1,
        decide ((Pool.frames, frameRegion 0x800) ∈ live w.m.trace),
        userByte Arm.header 0x100000 w.m.mem 0x1800)).toOption =
      some (0x100000, some 0x800, true, some 1) := by
    decide +kernel
  obtain ⟨w, hw, heq⟩ := exists_of_map_eq hrun
  obtain ⟨hcurrent, hpage, hlive, hbyte⟩ := by simpa only [Prod.mk.injEq] using heq
  have hspec : wp (allocate_page Arm.header Arm.allocators dirtyUser 0x1000 1) _ _ :=
    allocate_page_filled (by decide) dirtyUser_userSpace (by decide)
  obtain ⟨F, -, I⟩ := hspec.of_ok hw
  refine ⟨w, hw, ⟨?_, ?_, ?_, ?_⟩, ?_⟩
  · rw [hcurrent]
    exact I.tables
  · intro x hx
    rw [smallElf_addr hx, hcurrent]
    exact ⟨0x800, hpage, of_decide_eq_true hlive⟩
  · intro x y hx hy _
    rw [smallElf_addr hx, smallElf_addr hy]
  · intro sec hsec _ k hk x q hx hq
    rw [smallElf_addr hx, hcurrent, hpage] at hq
    exact Option.some.inj hq ▸ smallElf_fileByte hsec hk
  · rw [hcurrent]
    exact hbyte

theorem load_process_loaded_iff_small : ∃ (w : Work) (m' : Memory),
    allocate_page Arm.header Arm.allocators dirtyUser 0x1000 1 = .ok w ∧
    load_process (translate Arm.header w.m.current_pgtable) w.m.mem smallElf = some m' ∧
      (Loaded Arm.header w.m smallElf m' ↔ Ready Arm.header w.m smallElf) := by
  obtain ⟨w, hw, I, -⟩ := smallElf_mapped
  obtain ⟨m', hrun, hiff⟩ := load_process_loaded_iff smallElf_wellFormed I
  exact ⟨w, m', hw, hrun, hiff⟩

/-- The frame of the program has been used before: its `.bss` starts with what was in it. -/
theorem not_loaded_reused : ∃ (w : Work) (m' : Memory),
    allocate_page Arm.header Arm.allocators dirtyUser 0x1000 1 = .ok w ∧
      MappedImage Arm.header w.m smallElf ∧
      load_process (translate Arm.header w.m.current_pgtable) w.m.mem smallElf = some m' ∧
      ¬Loaded Arm.header w.m smallElf m' := by
  obtain ⟨w, hw, I, hbyte⟩ := smallElf_mapped
  obtain ⟨m', hrun, L⟩ := load_process_loading I.placed smallElf_wellFormed
  refine ⟨w, m', hw, I, hrun, fun h => ?_⟩
  have hbss : ⟨bytes ".bss", SHT_NOBITS, 0x1800, 0x10, 4⟩ ∈ smallElf.sections :=
    List.mem_pair.mpr (.inr rfl)
  have hsup : ElfSection.Supported ⟨bytes ".bss", SHT_NOBITS, 0x1800, 0x10, 4⟩ := by
    unfold ElfSection.Supported
    decide
  have hzero := h.nobits _ hbss hsup rfl 0 (by decide)
  rw [L.userByte_nobits smallElf_wellFormed I hbss hsup rfl (by decide)] at hzero
  have haddr : ElfSection.addr ⟨bytes ".bss", SHT_NOBITS, 0x1800, 0x10, 4⟩ 0 = 0x1800 := rfl
  rw [haddr, hbyte] at hzero
  exact absurd hzero (by decide)

end SyeLabs.Kernel
