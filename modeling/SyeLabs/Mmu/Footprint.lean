import SyeLabs.Mmu.Release
import SyeLabs.Mmu.Translation

/-!
# What a call leaves alone

A call of `create_mapping` or `release_mapping` keeps to the pages of its range, in the mapping and
in memory, as long as it finds in each slot what it takes for granted: no section where small pages
are mapped, and a table where small pages are released. Neither function looks at the kind of the
entry.
-/

namespace SyeLabs.Mmu

variable {H : Header} {al : Allocators} {m m' m'' : Machine} {root : Word} {r : Request}
  {i j k p a e : Nat} {c : Bool}

namespace Request
variable (r)

/-- The pages of the range, as many as its size takes. -/
def Covers (p : Nat) : Prop :=
  r.virt_base.toNat / 4096 ≤ p ∧ p < r.virt_base.toNat / 4096 + (r.size.toNat + 4095) / 4096

/-- Every slot that the range meets in part has a second-level table. -/
def Held (H : Header) (mem : Memory) (root : Word) : Prop :=
  ∀ k, r.slot k → ¬r.whole k → IsTable H (l1 mem root k)

variable {r}

theorem covers_iff (hv : 4096 ∣ r.virt_base.toNat) :
    r.Covers p ↔ r.lo / 4096 ≤ p ∧ p < r.hi / 4096 := by
  unfold Covers lo hi
  omega

theorem slot_lt (R : r.Range) (hk : r.slot k) : k < 4096 := by
  have hle := R.hi_le
  have hlt := R.lo_lt_hi
  have hmul := (slot_mul hk).2
  omega

/-- A slot that the range meets has a page of it. -/
theorem Range.exists_page (R : r.Range) (hk : r.slot k) :
    r.lo / 4096 ≤ r.chunkLo k / 4096 ∧ r.chunkLo k / 4096 < r.hi / 4096 ∧
      r.chunkLo k / 4096 / 256 = k := by
  have hlt := R.chunkLo_lt hk
  have hlo := r.lo_le_chunkLo k
  have hhi := r.chunkHi_le_hi k
  have hlo4 := r.chunkLo_dvd k
  have hhi4 := r.chunkHi_dvd k
  exact ⟨by omega, by omega, page_div le_rfl (by omega)⟩

end Request

/-- The tables that calls build from an empty one. Each of the calls finds what it takes for
granted. -/
inductive Edited (H : Header) (al : Allocators) (root : Word) : Machine → Prop where
  | new {m m' : Machine} (hm : BlocksOk (live m.trace))
    (hnew : new_root_pgtable al m = .ok (root, m')) : Edited H al root m'
  | create {m m' : Machine} {r : Request} (h : Edited H al root m) (hr : r.Range)
    (hclear : r.Clear H m.mem root)
    (hmap : create_mapping H al m root r.virt_base r.phys_base r.size r.nocache = .ok m') :
    Edited H al root m'
  | release {m m' : Machine} {r : Request} (h : Edited H al root m) (hr : r.Range)
    (hheld : r.Held H m.mem root)
    (hrelease : release_mapping H m root r.virt_base r.size = .ok m') : Edited H al root m'

/-! ## Entries of a table -/

theorem exists_entry_of_mem {t x : Word} (hx : x ∈ tableRegion t) :
    ∃ j < 256, x ∈ (⟨entry t j, 4⟩ : Region) := by
  obtain ⟨n, hn, rfl⟩ := Region.exists_add_of_mem hx
  refine ⟨n / 4, by omega, ?_⟩
  rw [Region.mem_def, entry]
  bv_omega

/-- The tables that stay have their entries outside of `[a, e)` as before. -/
def KeepsEntries (H : Header) (root : Word) (a e : Nat) (mem mem' : Memory) : Prop :=
  ∀ i < 4096, IsTable H (l1 mem root i) → IsTable H (l1 mem' root i) →
    l1 mem' root i = l1 mem root i ∧
      ∀ j < 256, ¬(a ≤ i * 256 + j ∧ i * 256 + j < e) → l2 mem' root i j = l2 mem root i j

theorem KeepsEntries.refl (mem : Memory) : KeepsEntries H root a e mem mem :=
  fun _ _ _ _ => ⟨rfl, fun _ _ _ => rfl⟩

/-- A step that touches slot `k` only keeps the tables of the others. -/
theorem KeepsEntries.of_slot (E : Extends H root (· = k) m m')
    (hk : IsTable H (l1 m.mem root k) → IsTable H (l1 m'.mem root k) →
      l1 m'.mem root k = l1 m.mem root k ∧
        ∀ j < 256, ¬(a ≤ k * 256 + j ∧ k * 256 + j < e) → l2 m'.mem root k j = l2 m.mem root k j) :
    KeepsEntries H root a e m.mem m'.mem := by
  intro i hi ht ht'
  rcases eq_or_ne i k with rfl | hne
  · exact hk ht ht'
  · exact ⟨(E.touched.l1_eq E.tables hi hne).symm,
      fun j hj _ => (E.touched.l2_eq E.tables hi hne ht' hj).symm⟩

/-- Two steps, the second of which touches slot `k` only, and the first all but that. -/
theorem KeepsEntries.trans {b : Nat} (h : KeepsEntries H root a b m.mem m'.mem)
    (h' : KeepsEntries H root b e m'.mem m''.mem) (E : Extends H root (· = k) m' m'')
    (hk : l1 m.mem root k = l1 m'.mem root k) (hab : a ≤ b) (hbe : b ≤ e) :
    KeepsEntries H root a e m.mem m''.mem := by
  intro i hi ht ht'
  have hmid : IsTable H (l1 m'.mem root i) := by
    rcases eq_or_ne i k with rfl | hne
    · rwa [← hk]
    · rwa [E.touched.l1_eq E.tables hi hne]
  obtain ⟨h1, h2⟩ := h i hi ht hmid
  obtain ⟨h1', h2'⟩ := h' i hi hmid ht'
  refine ⟨h1'.trans h1, fun j hj hout => ?_⟩
  rw [h2' j hj (by omega), h2 j hj (by omega)]

theorem alloc_init_section_keeps {phys : Word} (T : TablesOk H m root) (ha : a < 2 ^ 32)
    (hlt : a < e) (he : e ≤ (a / 2 ^ 20 + 1) * 2 ^ 20) (ha4 : 4096 ∣ a) (he4 : 4096 ∣ e)
    (hs : SectChunk a e phys.toNat ∨
      H.l1pte_is_sect (l1 m.mem root (a / 2 ^ 20)) = false ∨ l1 m.mem root (a / 2 ^ 20) = 0) :
    wp (alloc_init_section H al m (entry root (a / 2 ^ 20)) (BitVec.ofNat 32 a)
        (BitVec.ofNat 32 e) phys c)
      (fun m' => Extends H root (· = a / 2 ^ 20) m m' ∧
        KeepsEntries H root (a / 4096) (e / 4096) m.mem m'.mem) (· = .noMemory) := by
  have hi : a / 2 ^ 20 < 4096 := by omega
  by_cases hsect : SectChunk a e phys.toNat
  · have hw := not_isTable_sect (H.sect_is_sect phys c hsect.2.2)
    obtain ⟨E, hl1⟩ := Extends.of_entry T hi hw
    rw [alloc_init_section_sect hlt he hsect, wp_ok]
    refine ⟨E, KeepsEntries.of_slot E fun _ ht => ?_⟩
    exact absurd (hl1 ▸ ht) hw
  · obtain ⟨n, hn, heq⟩ := alloc_init_section_small H al m root (a / 2 ^ 20) c hlt ha4 he4 hsect
    rw [heq]
    refine (alloc_init_pte_spec T hi (hs.resolve_left hsect) ha (by omega)).mono ?_
    rintro m' ⟨E, -, hgrown, hl2⟩
    refine ⟨E, KeepsEntries.of_slot E fun ht _ => ?_⟩
    rcases hgrown with ⟨-, -, hl1⟩ | ⟨-, hzero⟩
    · refine ⟨hl1, fun j hj hout => ?_⟩
      rw [hl2 j hj, if_neg (by omega), if_neg ht.1]
    · exact absurd (hzero ▸ ht) not_isTable_zero

theorem create_mapping_keeps (T : TablesOk H m root) (hroot : root ≠ 0) (R : r.Range)
    (hclear : r.Clear H m.mem root) :
    wp (create_mapping H al m root r.virt_base r.phys_base r.size r.nocache)
      (fun m' => Mapped H root r m m' ∧
        KeepsEntries H root (r.lo / 4096) (r.hi / 4096) m.mem m'.mem) (· = .noMemory) := by
  let P : Nat → Machine → Prop := fun k m' => MapInv H m root r k m' ∧
    KeepsEntries H root (r.lo / 4096) (r.bound k / 4096) m.mem m'.mem
  have hfirst : P (r.lo / 2 ^ 20) m := ⟨MapInv.first T, KeepsEntries.refl _⟩
  refine (create_mapping_slots R hroot P ?_ hfirst).mono ?_
  · rintro k m1 hk ⟨I, hkeeps⟩
    have hk4 := Request.slot_lt R hk
    have hlt := R.chunkLo_lt hk
    have hhi := r.chunkHi_le_hi k
    have hle := R.hi_le
    have hdiv := Request.chunkLo_div hk
    have hbefore : l1 m.mem root k = l1 m1.mem root k :=
      I.ext.touched.l1_eq I.ext.tables hk4 fun h => lt_irrefl k h.2
    have hend : r.chunkHi k ≤ (r.chunkLo k / 2 ^ 20 + 1) * 2 ^ 20 := hdiv.symm ▸ r.chunkHi_le k
    have hs : SectChunk (r.chunkLo k) (r.chunkHi k)
          (BitVec.ofNat 32 (r.phys_base.toNat + (r.chunkLo k - r.lo))).toNat ∨
        H.l1pte_is_sect (l1 m1.mem root (r.chunkLo k / 2 ^ 20)) = false ∨
        l1 m1.mem root (r.chunkLo k / 2 ^ 20) = 0 := by
      rw [hdiv, Request.sect_iff, ← hbefore]
      exact or_iff_not_imp_left.mpr (hclear k hk)
    have hspec : wp (alloc_init_section H al m1 (entry root (r.chunkLo k / 2 ^ 20)) _ _ _
        r.nocache) _ _ :=
      alloc_init_section_keeps I.ext.tables (by omega) hlt hend (r.chunkLo_dvd k)
        (r.chunkHi_dvd k) hs
    rw [hdiv] at hspec
    refine ((I.step R hclear hk).and hspec).mono ?_
    rintro m2 ⟨I', E, hkeeps'⟩
    rw [R.bound_eq_chunkLo hk] at hkeeps
    refine ⟨I', ?_⟩
    rw [R.bound_succ hk]
    have hlo := r.lo_le_chunkLo k
    exact hkeeps.trans hkeeps' E hbefore (by omega) (by omega)
  · rintro m' ⟨I, hkeeps⟩
    rw [R.bound_last] at hkeeps
    exact ⟨I.last R, hkeeps⟩

/-! ## Releasing a range -/

/-- The part of the range in slot `k` has been released. -/
structure Cut (H : Header) (root : Word) (r : Request) (k : Nat) (m m' : Machine) : Prop where
  tables : TablesOk H m' root
  touched : ∀ x, m.mem x ≠ m'.mem x → x ∈ (⟨entry root k, 4⟩ : Region) ∨
    (IsTable H (l1 m.mem root k) ∧ x ∈ tableRegion (tableOf (l1 m.mem root k)))
  l1_eq : ∀ i < 4096, i ≠ k → l1 m.mem root i = l1 m'.mem root i
  pages : ∀ p < 2 ^ 20, lookup H m'.mem root p =
    if r.chunkLo k / 4096 ≤ p ∧ p < r.chunkHi k / 4096 then none else lookup H m.mem root p
  sys_root : m'.sys_root_pgtable = m.sys_root_pgtable

theorem lookup_of_zero {mem : Memory} (h : l1 mem root (p / 256) = 0) :
    lookup H mem root p = none := by
  rw [lookup, h, if_pos rfl]

/-- The entry of a slot is cleared, whatever it is. -/
theorem Cut.of_whole (T : TablesOk H m root) (hk : k < 4096) (hslot : r.slot k) (R : r.Range)
    (hwhole : r.whole k) : Cut H root r k m { m with mem := m.mem.store (entry root k) 0 } := by
  obtain ⟨E, hzero⟩ := Extends.of_entry T hk (not_isTable_zero (H := H))
  have hlt := R.chunkLo_lt hslot
  have hle := r.chunkHi_le k
  have hdiv := Request.chunkLo_div hslot
  obtain ⟨hlo, hhi⟩ := hwhole
  constructor
  case tables => exact E.tables
  case touched =>
    intro x hx
    exact .inl (not_not.mp fun hno => hx (Memory.eqOff_store _ _ _ x hno))
  case l1_eq => exact fun i hi hne => E.touched.l1_eq E.tables hi hne
  case pages =>
    intro p hp
    by_cases hpk : p / 256 = k
    · rw [if_pos (by omega)]
      apply lookup_of_zero
      rw [hpk]
      exact hzero
    · rw [if_neg (by omega)]
      exact (E.touched.lookup_eq E.tables hp hpk).symm
  case sys_root => rfl

/-- The pages of a second-level table after a part of it has been released. -/
theorem Released.lookup_eq {n : Nat} (S : Released H root k (a / 4096 % 256) (n + 1) m m')
    (ht : IsTable H (l1 m.mem root k)) (hk : a / 4096 / 256 = k) (hp : p / 256 = k) :
    lookup H m'.mem root p =
      if a / 4096 ≤ p ∧ p < a / 4096 + (n + 1) then none else lookup H m.mem root p := by
  have hmod : p % 256 < 256 := Nat.mod_lt _ (by decide)
  have hsplit : p = k * 256 + p % 256 := by omega
  have hiff : (a / 4096 % 256 ≤ p % 256 ∧ p % 256 < a / 4096 % 256 + (n + 1)) ↔
      (a / 4096 ≤ p ∧ p < a / 4096 + (n + 1)) := by omega
  have hbefore := lookup_table ht hmod
  rw [← hsplit] at hbefore
  by_cases hkept : IsTable H (l1 m'.mem root k)
  · have hafter := lookup_table hkept hmod
    rw [← hsplit, (S.kept hkept).1 _ hmod] at hafter
    simp only [hiff] at hafter
    rw [hafter, hbefore]
    split
    · rfl
    · rfl
  · have hout := S.gone hkept (p % 256) hmod
    rw [hiff] at hout
    have hzero : l1 m'.mem root k = 0 := by
      rcases S.fate with ⟨-, hsame | ⟨hno, -⟩⟩ | ⟨-, hzero, -⟩
      · exact absurd (hsame ▸ ht) hkept
      · exact absurd ht hno
      · exact hzero
    rw [lookup_of_zero (hp ▸ hzero)]
    split
    · rfl
    · next hno => rw [hbefore, if_pos (hout hno)]

theorem Cut.of_released {n : Nat} (T : TablesOk H m root) (hk : k < 4096)
    (ht : IsTable H (l1 m.mem root k)) (hslot : r.slot k)
    (hn : r.chunkHi k = r.chunkLo k + 4096 * (n + 1))
    (S : Released H root k (r.chunkLo k / 4096 % 256) (n + 1) m m') : Cut H root r k m m' := by
  have hle := r.chunkHi_le k
  have hdiv := Request.chunkLo_div hslot
  constructor
  case tables => exact S.toShrinks.tables T hk
  case touched => exact S.touched
  case l1_eq => exact fun i hi hne => S.toShrinks.l1_eq T hk hi hne
  case pages =>
    intro p hp
    by_cases hpk : p / 256 = k
    · rw [S.lookup_eq ht (by omega) hpk, hn]
      have hlast : (r.chunkLo k + 4096 * (n + 1)) / 4096 = r.chunkLo k / 4096 + (n + 1) := by omega
      rw [hlast]
    · have hp4 : p / 256 < 4096 := by omega
      have hl1 := S.toShrinks.l1_eq T hk hp4 hpk
      rw [if_neg (by omega)]
      refine (lookup_congr hl1 fun htp => ?_).symm
      exact S.toShrinks.l2_eq T hk hp4 hpk (hl1 ▸ htp) (Nat.mod_lt _ (by decide))
  case sys_root => exact S.toShrinks.sys_root

theorem free_l1_mapping_cut (T : TablesOk H m root) (R : r.Range) (hslot : r.slot k)
    (hheld : ¬r.whole k → IsTable H (l1 m.mem root k)) :
    wp (free_l1_mapping m (entry root k) (BitVec.ofNat 32 (r.chunkLo k))
      (BitVec.ofNat 32 (r.chunkHi k))) (Cut H root r k m) (fun _ => False) := by
  have hk := Request.slot_lt R hslot
  have hlt := R.chunkLo_lt hslot
  have hdiv := Request.chunkLo_div hslot
  have hend : r.chunkHi k ≤ (r.chunkLo k / 2 ^ 20 + 1) * 2 ^ 20 := hdiv.symm ▸ r.chunkHi_le k
  by_cases hwhole : r.whole k
  · rw [free_l1_mapping_whole hlt hend hwhole, wp_ok]
    exact Cut.of_whole T hk hslot R hwhole
  · obtain ⟨n, hn⟩ : ∃ n, r.chunkHi k = r.chunkLo k + 4096 * (n + 1) := by
      have hlo4 := r.chunkLo_dvd k
      have hhi4 := r.chunkHi_dvd k
      exact ⟨(r.chunkHi k - r.chunkLo k) / 4096 - 1, by omega⟩
    have hmax := R.hi_le
    have hle := r.chunkHi_le_hi k
    have ht := hheld hwhole
    rw [free_l1_mapping_part hwhole, hn]
    refine (free_l2_mapping_spec T (by omega) ht hk (by omega)).mono fun m' S => ?_
    exact Cut.of_released T hk ht hslot hn S

/-- The loop before slot `k`. -/
structure ReleaseInv (H : Header) (root : Word) (r : Request) (m : Machine) (k : Nat)
    (m' : Machine) : Prop where
  tables : TablesOk H m' root
  ahead : ∀ i < 4096, k ≤ i → l1 m.mem root i = l1 m'.mem root i
  touched : ∀ x, m.mem x ≠ m'.mem x → ∃ i, r.slot i ∧ (x ∈ (⟨entry root i, 4⟩ : Region) ∨
    (IsTable H (l1 m.mem root i) ∧ x ∈ tableRegion (tableOf (l1 m.mem root i))))
  pages : ∀ p < 2 ^ 20, lookup H m'.mem root p =
    if r.lo / 4096 ≤ p ∧ p < r.bound k / 4096 then none else lookup H m.mem root p
  sys_root : m'.sys_root_pgtable = m.sys_root_pgtable

theorem ReleaseInv.first (T : TablesOk H m root) : ReleaseInv H root r m (r.lo / 2 ^ 20) m where
  tables := T
  ahead _ _ _ := rfl
  touched x hx := absurd rfl hx
  pages p _ := by
    rw [r.bound_first, if_neg (by omega)]
  sys_root := rfl

theorem ReleaseInv.step (R : r.Range) (hk : r.slot k) (I : ReleaseInv H root r m k m')
    (C : Cut H root r k m' m'') : ReleaseInv H root r m (k + 1) m'' where
  tables := C.tables
  ahead i hi hki := (I.ahead i hi (by omega)).trans (C.l1_eq i hi (by omega))
  touched x hx := by
    by_cases hx' : m.mem x = m'.mem x
    · have hslot := C.touched x (hx' ▸ hx)
      rw [← I.ahead k (Request.slot_lt R hk) le_rfl] at hslot
      exact ⟨k, hk, hslot⟩
    · exact I.touched x hx'
  pages p hp := by
    have hlo : r.lo / 4096 ≤ r.chunkLo k / 4096 := Nat.div_le_div_right (r.lo_le_chunkLo k)
    have hlt : r.chunkLo k / 4096 ≤ r.chunkHi k / 4096 :=
      Nat.div_le_div_right (le_of_lt (R.chunkLo_lt hk))
    have hbefore := I.pages p hp
    rw [R.bound_eq_chunkLo hk] at hbefore
    rw [C.pages p hp, hbefore, R.bound_succ hk]
    by_cases hin : r.chunkLo k / 4096 ≤ p ∧ p < r.chunkHi k / 4096
    · rw [if_pos hin, if_pos (by omega)]
    · have hiff : (r.lo / 4096 ≤ p ∧ p < r.chunkHi k / 4096) ↔
          (r.lo / 4096 ≤ p ∧ p < r.chunkLo k / 4096) := by omega
      rw [if_neg hin]
      simp only [hiff]
  sys_root := C.sys_root.trans I.sys_root

/-- The entries of the slots that the range does not meet stay. -/
theorem ReleaseInv.l1_eq (T : TablesOk H m root) (R : r.Range) (I : ReleaseInv H root r m k m')
    (hi : i < 4096) (hout : ¬r.slot i) : l1 m.mem root i = l1 m'.mem root i := by
  refine l1_congr fun x hx => ?_
  by_contra hne
  obtain ⟨j, hj, hx'⟩ := I.touched x hne
  have hj4 := Request.slot_lt R hj
  rcases hx' with hentry | ⟨ht, htable⟩
  · have hij : i ≠ j := fun h => hout (h ▸ hj)
    exact disjoint_entry (by omega) (by omega) hij x hx hentry
  · exact T.root_disjoint hj4 ht x (entry_sub_root hi x hx) htable

theorem release_mapping_inv (T : TablesOk H m root) (hroot : root ≠ 0) (R : r.Range)
    (hheld : r.Held H m.mem root) :
    wp (release_mapping H m root r.virt_base r.size)
      (ReleaseInv H root r m ((r.hi - 1) / 2 ^ 20 + 1)) (fun _ => False) := by
  refine release_mapping_slots R hroot (ReleaseInv H root r m) ?_ (ReleaseInv.first T)
  intro k m' hk I
  refine (free_l1_mapping_cut I.tables R hk fun hpart => ?_).mono fun m'' C => I.step R hk C
  rw [← I.ahead k (Request.slot_lt R hk) le_rfl]
  exact hheld k hk hpart

theorem Edited.tables (h : Edited H al root m) : TablesOk H m root ∧ root ≠ 0 := by
  induction h with
  | new hm hnew =>
    have N := (new_root_pgtable_spec hm).of_ok hnew
    exact ⟨N.tables, N.ne_zero⟩
  | create h hr hclear hmap ih =>
    obtain ⟨T, hroot⟩ := ih
    exact ⟨((create_mapping_spec T hroot hr hclear).of_ok hmap).ext.tables, hroot⟩
  | release h hr hheld hrelease ih =>
    obtain ⟨T, hroot⟩ := ih
    exact ⟨((release_mapping_inv T hroot hr hheld).of_ok hrelease).tables, hroot⟩

/-! ## `create_mapping` -/

/-- The entry refers to a table that was not there in `m`. -/
def NewTable (H : Header) (m : Machine) (w : Word) : Prop :=
  IsTable H w ∧ (.heap, tableRegion (tableOf w)) ∉ live m.trace

/-- The call has mapped the pages of its range, and only those. Memory has changed in the entries
for these pages only, in the root table and in tables that it refers to: tables it had, or new ones,
which have been cleared. -/
structure OnlyRange (H : Header) (root : Word) (r : Request) (m m' : Machine) : Prop where
  mapped : ∀ p, r.Covers p → lookup H m'.mem root p =
    some ((r.phys_base.toNat / 4096 + (p - r.virt_base.toNat / 4096)) % 2 ^ 20)
  outside : ∀ p < 2 ^ 20, ¬r.Covers p → lookup H m'.mem root p = lookup H m.mem root p
  tables : ∀ k < 4096, IsTable H (l1 m'.mem root k) →
    l1 m'.mem root k = l1 m.mem root k ∨ NewTable H m (l1 m'.mem root k)
  written : ∀ x, m.mem x ≠ m'.mem x → ∃ p, r.Covers p ∧
    (x ∈ (⟨entry root (p / 256), 4⟩ : Region) ∨
      IsTable H (l1 m'.mem root (p / 256)) ∧
        x ∈ (⟨entry (tableOf (l1 m'.mem root (p / 256))) (p % 256), 4⟩ : Region) ∨
      NewTable H m (l1 m'.mem root (p / 256)) ∧
        x ∈ tableRegion (tableOf (l1 m'.mem root (p / 256))))

theorem eqOn_of_load_eq {mem mem' : Memory} {b : Word} (h : mem.load b = mem'.load b) :
    mem.EqOn mem' ⟨b, 4⟩ := by
  intro x hx
  obtain ⟨k, hk, rfl⟩ := Region.exists_add_of_mem hx
  rw [← Memory.byte_load mem b hk, h, Memory.byte_load mem' b hk]

theorem KeepsEntries.table (h : KeepsEntries H root a e m.mem m'.mem)
    (E : Extends H root r.slot m m') (hk : k < 4096) (ht : IsTable H (l1 m'.mem root k)) :
    l1 m'.mem root k = l1 m.mem root k ∨ NewTable H m (l1 m'.mem root k) := by
  rcases E.own k hk ht with ⟨ht', -⟩ | hnew
  · exact .inl (h k hk ht' ht).1
  · exact .inr ⟨ht, hnew⟩

/-- A byte of a table that stays has changed in the entry of a page in `[a, e)`. -/
theorem KeepsEntries.mem_entry {x : Word} (h : KeepsEntries H root a e m.mem m'.mem)
    (hk : k < 4096) (ht : IsTable H (l1 m'.mem root k))
    (hsame : l1 m'.mem root k = l1 m.mem root k) (hx : m.mem x ≠ m'.mem x)
    (hmem : x ∈ tableRegion (tableOf (l1 m'.mem root k))) :
    ∃ j < 256, a ≤ k * 256 + j ∧ k * 256 + j < e ∧
      x ∈ (⟨entry (tableOf (l1 m'.mem root k)) j, 4⟩ : Region) := by
  obtain ⟨j, hj, hxj⟩ := exists_entry_of_mem hmem
  have hin : a ≤ k * 256 + j ∧ k * 256 + j < e := by
    by_contra hout
    have heq := (h k hk (hsame ▸ ht) ht).2 j hj hout
    rw [l2, l2, ← hsame] at heq
    exact hx (eqOn_of_load_eq heq.symm x hxj)
  exact ⟨j, hj, hin.1, hin.2, hxj⟩

theorem Mapped.onlyRange (M : Mapped H root r m m') (R : r.Range)
    (hv : 4096 ∣ r.virt_base.toNat)
    (hkeeps : KeepsEntries H root (r.lo / 4096) (r.hi / 4096) m.mem m'.mem) :
    OnlyRange H root r m m' where
  mapped p hp := by
    have hin := (Request.covers_iff hv).mp hp
    have hlo : r.lo / 4096 = r.virt_base.toNat / 4096 := by
      unfold Request.lo
      omega
    have hle := R.hi_le
    rw [M.pages p (by omega), if_pos hin, hlo]
  outside p hp hout := by
    rw [M.pages p hp, if_neg (mt (Request.covers_iff hv).mpr hout)]
  tables k hk ht := hkeeps.table M.ext hk ht
  written x hx := by
    obtain ⟨k, hk, hslot, hx'⟩ := M.ext.touched x hx
    obtain ⟨hlo, hhi, hpage⟩ := R.exists_page hslot
    have hcovers : r.Covers (r.chunkLo k / 4096) := (Request.covers_iff hv).mpr ⟨hlo, hhi⟩
    rcases hx' with hentry | ⟨ht, htable⟩
    · refine ⟨_, hcovers, .inl ?_⟩
      rwa [hpage]
    rcases hkeeps.table M.ext hk ht with hsame | hnew
    · obtain ⟨j, hj, hlo', hhi', hxj⟩ := hkeeps.mem_entry hk ht hsame hx htable
      have hdiv : (k * 256 + j) / 256 = k := by omega
      have hmod : (k * 256 + j) % 256 = j := by omega
      refine ⟨k * 256 + j, (Request.covers_iff hv).mpr ⟨hlo', hhi'⟩, .inr (.inl ?_)⟩
      rw [hdiv, hmod]
      exact ⟨ht, hxj⟩
    · refine ⟨_, hcovers, .inr (.inr ?_)⟩
      rw [hpage]
      exact ⟨hnew, htable⟩

/-- A call on a table that calls have built from an empty one keeps to its range if the range is not
empty and no section lies where it maps small pages. -/
theorem create_mapping_onlyRange (h : Edited H al root m) (hv : 4096 ∣ r.virt_base.toNat)
    (hwrap : r.virt_base.toNat + r.size.toNat ≤ 2 ^ 32) (hpos : 1 ≤ r.size.toNat)
    (hclear : r.Clear H m.mem root) :
    wp (create_mapping H al m root r.virt_base r.phys_base r.size r.nocache)
      (OnlyRange H root r m) (· = .noMemory) := by
  obtain ⟨T, hroot⟩ := h.tables
  have R : r.Range := ⟨hpos, hwrap⟩
  exact (create_mapping_keeps T hroot R hclear).mono fun m' ⟨M, hkeeps⟩ => M.onlyRange R hv hkeeps

/-- Memory that has been used before, of which nothing is allocated. -/
def Arm.used : Machine := { Arm.start with mem := fun _ => 1 }

/-- With a new root table. -/
def Arm.reused : Machine :=
  { mem := Arm.used.mem.fill 0x100000 0 16384, trace := [.alloc .heap ⟨0x100000, 16384⟩] }

theorem Arm.reused_new : new_root_pgtable Arm.allocators Arm.used = .ok (0x100000, Arm.reused) :=
  rfl

theorem Arm.reused_edited : Edited Arm.header Arm.allocators 0x100000 Arm.reused :=
  .new (m := Arm.used) Arm.start_blocks Arm.reused_new

theorem Arm.reused_empty : ∀ i < 4096, l1 Arm.reused.mem 0x100000 i = 0 :=
  ((new_root_pgtable_spec (m := Arm.used) Arm.start_blocks).of_ok Arm.reused_new).empty

theorem Arm.reused_clear (R : r.Range) : r.Clear Arm.header Arm.reused.mem 0x100000 :=
  fun k hk _ => .inr (Arm.reused_empty k (Request.slot_lt R hk))

/-- One page and a byte, in an empty table. -/
theorem create_mapping_onlyRange_pages : ∃ m',
    create_mapping Arm.header Arm.allocators Arm.reused 0x100000 0x3ff000 0x805000 0x1001 false =
      .ok m' ∧
    OnlyRange Arm.header 0x100000 ⟨0x3ff000, 0x805000, 0x1001, false⟩ Arm.reused m' := by
  have hrun : (create_mapping Arm.header Arm.allocators Arm.reused 0x100000 0x3ff000 0x805000 0x1001
      false).isOk = true := by decide +kernel
  obtain ⟨m', hm⟩ := exists_of_isOk hrun
  have h := create_mapping_onlyRange (r := ⟨0x3ff000, 0x805000, 0x1001, false⟩) Arm.reused_edited
    (by decide) (by decide) (by decide) (Arm.reused_clear ⟨by decide, by decide⟩)
  exact ⟨m', hm, h.of_ok hm⟩

/-! ### An empty range -/

/-- The loop of `alloc_init_section` on an empty range goes all the way round. -/
theorem setSect_all {mem : Memory} {addr phys : Word} (hi : i < 4096) :
    wp (doWhile Fault.endless (setSect H c) (fun s => s.addr ≠ addr) (2 ^ 12)
        ⟨mem, entry root i, addr, phys⟩)
      (fun s => ∀ d < 4096, s.mem.load (entry root (i + d)) =
        H.set_l1_pte_sect_dcache (phys + BitVec.ofNat 32 (d * 2 ^ 20)) c) (fun _ => False) := by
  -- `n` rounds are left
  let I : Nat → SectLoop → Prop := fun n s => ∃ d, d + n = 4096 ∧ s.l1pte = entry root (i + d) ∧
    s.addr = addr + BitVec.ofNat 32 (d * 2 ^ 20) ∧ s.phys = phys + BitVec.ofNat 32 (d * 2 ^ 20) ∧
    ∀ k < d, s.mem.load (entry root (i + k)) =
      H.set_l1_pte_sect_dcache (phys + BitVec.ofNat 32 (k * 2 ^ 20)) c
  have hstart : I (4095 + 1) ⟨mem, entry root i, addr, phys⟩ :=
    ⟨0, rfl, rfl, (BitVec.add_zero _).symm, (BitVec.add_zero _).symm,
      fun k hk => absurd hk (Nat.not_lt_zero k)⟩
  refine (wp_doWhile I ?_ (by decide) hstart).mono ?_
  · rintro n s ⟨d, hd, hl1pte, haddr, hphys, hload⟩
    rw [setSect_eq, wp_ok]
    have hnext : ∀ w : Word, w + BitVec.ofNat 32 (d * 2 ^ 20) + TTB_SECT_SIZE =
        w + BitVec.ofNat 32 ((d + 1) * 2 ^ 20) := by
      intro w
      unfold TTB_SECT_SIZE
      bv_omega
    refine ⟨?_, d + 1, by omega, ?_, ?_, ?_, ?_⟩
    · rw [decide_eq_decide, haddr, hnext]
      bv_omega
    · rw [hl1pte, entry_succ, Nat.add_assoc]
    · rw [haddr, hnext]
    · rw [hphys, hnext]
    · intro k hk
      rcases Nat.lt_succ_iff_lt_or_eq.mp hk with hlt | rfl
      · rw [hl1pte, Memory.load_store_of_disjoint
          (disjoint_entry (by omega) (by omega) (by omega)), hload k hlt]
      · rw [hl1pte, hphys, Memory.load_store_self]
  · rintro s ⟨d, hd, -, -, -, hload⟩ k hk
    exact hload k (by omega)

theorem l1sect_addr_end_self {v : Word} (H : Header) (hv : 2 ^ 20 ∣ v.toNat) (hpos : v ≠ 0) :
    H.l1sect_addr_end v v = v := by
  have hnext : (v + TTB_SECT_SIZE) &&& TTB_SECT_MASK = v + TTB_SECT_SIZE := by
    apply BitVec.eq_of_toNat_eq
    have hsize : TTB_SECT_SIZE.toNat = 2 ^ 20 := rfl
    rw [TTB_SECT_MASK, Word.and_highMask_toNat _ (by decide), BitVec.toNat_add, hsize]
    omega
  rw [H.l1sect_addr_end_eq, hnext, if_neg]
  unfold TTB_SECT_SIZE
  bv_omega

/-- An empty range from a section boundary on: sections are written from its slot on to the end of
the root table, and behind it. -/
theorem create_mapping_empty {v phys : Word} (hroot : root ≠ 0) (hv : 2 ^ 20 ∣ v.toNat)
    (hpos : v ≠ 0) (hphys : 2 ^ 20 ∣ phys.toNat) :
    wp (create_mapping H al m root v phys 0 c)
      (fun m' => ∀ d < 4096, m'.mem.load (entry root (l1pte_index v + d)) =
        H.set_l1_pte_sect_dcache (phys + BitVec.ofNat 32 (d * 2 ^ 20)) c) (fun _ => False) := by
  let r : Request := ⟨v, phys, 0, c⟩
  have hlo : BitVec.ofNat 32 r.lo = v := by
    rw [← r.addr_eq]
    apply BitVec.eq_of_toNat_eq
    change (v &&& PAGE_MASK).toNat = v.toNat
    rw [PAGE_MASK, Word.and_highMask_toNat _ (by decide)]
    omega
  have hhi : r.hi = r.lo := by
    change (v.toNat + 0 + 4095) / 4096 * 4096 = v.toNat / 4096 * 4096
    omega
  have hend : v + ALIGN_UP (0 + (v &&& ~~~PAGE_MASK)) = v := by
    have h := r.end_eq
    rwa [hhi, hlo] at h
  let Q : Machine → Prop := fun m' => ∀ d < 4096, m'.mem.load (entry root (l1pte_index v + d)) =
    H.set_l1_pte_sect_dcache (phys + BitVec.ofNat 32 (d * 2 ^ 20)) c
  let start : MapLoop := ⟨m, entry root (l1pte_index v), v, phys⟩
  let I : Nat → MapLoop → Prop := fun n s => n = 1 ∧ s = start ∨ n = 0 ∧ Q s.m
  have hstart : I (0 + 1) start := .inl ⟨rfl, rfl⟩
  have haddr : v &&& PAGE_MASK = v := r.addr_eq.trans hlo
  unfold create_mapping
  simp only [if_neg hroot, haddr, hend]
  refine wp.bind (wp_doWhile I ?_ (by decide) hstart) ?_
  · rintro n s (⟨hn, rfl⟩ | ⟨hn, -⟩)
    · have hsect : (v ||| v ||| phys) &&& ~~~TTB_SECT_MASK = 0 := by
        have h : (BitVec.ofNat 32 v.toNat ||| BitVec.ofNat 32 v.toNat ||| phys) &&&
            ~~~TTB_SECT_MASK = 0 ↔ _ := aligned_iff
        rw [BitVec.ofNat_toNat, BitVec.setWidth_eq] at h
        exact h.mpr ⟨hv, hv, hphys⟩
      have hzero : n = 0 := by omega
      unfold mapChunk
      simp only [start, l1sect_addr_end_self H hv hpos]
      rw [alloc_init_section, if_pos hsect]
      refine wp.bind (wp.bind (setSect_all (l1pte_index_lt v)) fun s hs =>
        wp_pure.mpr (show Q { m with mem := s.mem } from hs)) ?_
      refine fun m' hm' => wp_pure.mpr ⟨?_, .inr ⟨hzero, hm'⟩⟩
      simp [hzero]
    · exact absurd hn (Nat.succ_ne_zero n)
  · rintro s (⟨hn, -⟩ | ⟨-, hs⟩)
    · exact absurd hn (by decide)
    · exact wp_pure.mpr hs

/-- One megabyte mapped by a section. -/
def Arm.sectionMap : Request := ⟨0x300000, 0x500000, 0x100000, false⟩

theorem Arm.sectionMap_slot (hk : Arm.sectionMap.slot k) : k = 3 := by
  have hlo : Arm.sectionMap.lo / 2 ^ 20 = 3 := by decide
  have hhi : (Arm.sectionMap.hi - 1) / 2 ^ 20 = 3 := by decide
  have h1 := hk.1
  have h2 := hk.2
  omega

theorem Arm.sectionMap_sect (hk : Arm.sectionMap.slot k) : Arm.sectionMap.sect k := by
  rw [Arm.sectionMap_slot hk]
  unfold Request.sect
  decide

theorem Arm.sectionMap_edited (h : create_mapping Arm.header Arm.allocators Arm.reused 0x100000
    0x300000 0x500000 0x100000 false = .ok m) : Edited Arm.header Arm.allocators 0x100000 m :=
  .create (r := Arm.sectionMap) Arm.reused_edited ⟨by decide, by decide⟩
    (fun _ hk hno => absurd (Arm.sectionMap_sect hk) hno) h

/-- One page in a slot with a section, of which the physical memory is written to; and no page at
all, for which the word behind the root table is. -/
theorem not_onlyRange :
    (∃ m m', Edited Arm.header Arm.allocators 0x100000 m ∧
      create_mapping Arm.header Arm.allocators m 0x100000 0x300000 0x600000 0x1000 false =
        .ok m' ∧
      m.mem 0x500C00 ≠ m'.mem 0x500C00 ∧
      ¬OnlyRange Arm.header 0x100000 ⟨0x300000, 0x600000, 0x1000, false⟩ m m') ∧
    wp (create_mapping Arm.header Arm.allocators Arm.reused 0x100000 0x300000 0x500000 0 false)
      (fun m' => m'.mem.load 0x104000 ≠ Arm.reused.mem.load 0x104000 ∧
        ¬OnlyRange Arm.header 0x100000 ⟨0x300000, 0x500000, 0, false⟩ Arm.reused m')
      (fun _ => False) := by
  constructor
  · have hrun : ((create_mapping Arm.header Arm.allocators Arm.reused 0x100000 0x300000 0x500000
        0x100000 false).bind fun m =>
      (create_mapping Arm.header Arm.allocators m 0x100000 0x300000 0x600000 0x1000 false).map
        fun m' => (m.mem 0x500C00, m'.mem 0x500C00,
          lookup Arm.header m'.mem 0x100000 0x300)).toOption = some (1, 0x3E, some 0x500) := by
      decide +kernel
    obtain ⟨m, m', hm, hmap, hsame⟩ := exists_of_bind_eq hrun
    obtain ⟨hold, hrest⟩ := Prod.mk.inj hsame
    obtain ⟨hnew, hpage⟩ := Prod.mk.inj hrest
    refine ⟨m, m', Arm.sectionMap_edited hm, hmap, ?_, fun O => ?_⟩
    · rw [hold, hnew]
      decide
    · have hmapped := O.mapped 0x300 ⟨by decide, by decide⟩
      rw [hpage] at hmapped
      exact absurd hmapped (by decide)
  · have hspec : wp (create_mapping Arm.header Arm.allocators Arm.reused 0x100000 0x300000
        0x500000 0 false) _ _ :=
      create_mapping_empty (by decide) (by decide) (by decide) (by decide)
    refine hspec.mono fun m' hload => ⟨?_, fun O => ?_⟩
    · have hbehind := hload 4093 (by decide)
      change m'.mem.load 0x104000 = _ at hbehind
      rw [hbehind]
      decide
    · have hslot : l1 m'.mem 0x100000 (0x300 / 256) = 0x500C0E := hload 0 (by decide)
      have hmapped : lookup Arm.header m'.mem 0x100000 0x300 = some 0x500 := by
        rw [lookup, hslot, if_neg (by decide), if_pos (by decide)]
        rfl
      have hbefore : lookup Arm.header Arm.reused.mem 0x100000 0x300 = none :=
        lookup_of_zero (Arm.reused_empty 3 (by decide))
      have hpage := O.outside 0x300 (by decide) fun h => absurd h.2 (by decide)
      rw [hmapped, hbefore] at hpage
      exact absurd hpage (by decide)

/-! ## `release_mapping` -/

/-- The call has unmapped the pages of its range, and only those. Memory has changed in the entries
of the root table for these pages and in the second-level tables that they referred to. -/
structure Undone (H : Header) (root : Word) (r : Request) (m m' : Machine) : Prop where
  unmapped : ∀ p, r.Covers p → lookup H m'.mem root p = none
  outside : ∀ p < 2 ^ 20, ¬r.Covers p → lookup H m'.mem root p = lookup H m.mem root p
  written : ∀ x, m.mem x ≠ m'.mem x → ∃ p, r.Covers p ∧
    (x ∈ (⟨entry root (p / 256), 4⟩ : Region) ∨
      IsTable H (l1 m.mem root (p / 256)) ∧
        x ∈ tableRegion (tableOf (l1 m.mem root (p / 256))))

/-- A call on a table that calls have built from an empty one undoes its range if each slot that the
range meets in part has a second-level table. -/
theorem release_mapping_undone (h : Edited H al root m) (hv : 4096 ∣ r.virt_base.toNat)
    (hwrap : r.virt_base.toNat + r.size.toNat ≤ 2 ^ 32) (hpos : 1 ≤ r.size.toNat)
    (hheld : r.Held H m.mem root) :
    wp (release_mapping H m root r.virt_base r.size) (Undone H root r m) (fun _ => False) := by
  obtain ⟨T, hroot⟩ := h.tables
  have R : r.Range := ⟨hpos, hwrap⟩
  have hmax := R.hi_le
  refine (release_mapping_inv T hroot R hheld).mono fun m' I => ?_
  obtain ⟨-, -, htouched, hpages, -⟩ := I
  rw [R.bound_last] at hpages
  constructor
  case unmapped =>
    intro p hp
    have hin := (Request.covers_iff hv).mp hp
    rw [hpages p (by omega), if_pos hin]
  case outside =>
    intro p hp hout
    rw [hpages p hp, if_neg (mt (Request.covers_iff hv).mpr hout)]
  case written =>
    intro x hx
    obtain ⟨k, hk, hx'⟩ := htouched x hx
    obtain ⟨hlo, hhi, hpage⟩ := R.exists_page hk
    refine ⟨_, (Request.covers_iff hv).mpr ⟨hlo, hhi⟩, ?_⟩
    rwa [hpage]

/-- A section that is released as a whole. -/
theorem release_mapping_undone_section : ∃ m,
    Edited Arm.header Arm.allocators 0x100000 m ∧ l1 m.mem 0x100000 3 ≠ 0 ∧
    wp (release_mapping Arm.header m 0x100000 0x300000 0x100000)
      (Undone Arm.header 0x100000 Arm.sectionMap m) (fun _ => False) := by
  have hrun : ((create_mapping Arm.header Arm.allocators Arm.reused 0x100000 0x300000 0x500000
      0x100000 false).map fun m => l1 m.mem 0x100000 3).toOption = some 0x500C0E := by
    decide +kernel
  obtain ⟨m, hm, hentry⟩ := exists_of_map_eq hrun
  have h := Arm.sectionMap_edited hm
  refine ⟨m, h, by rw [hentry]; decide, ?_⟩
  refine release_mapping_undone (r := Arm.sectionMap) h (by decide) (by decide) (by decide)
    fun k hk hpart => absurd ?_ hpart
  rw [Arm.sectionMap_slot hk]
  exact ⟨by decide, by decide⟩

/-- Part of a section that is released: its page stays mapped, and a word of its physical memory is
cleared. A page that is not mapped: the word is one of the first page of memory. -/
theorem not_undone :
    (∃ m m', Edited Arm.header Arm.allocators 0x100000 m ∧
      release_mapping Arm.header m 0x100000 0x300000 0x1000 = .ok m' ∧
      m.mem 0x500C00 ≠ m'.mem 0x500C00 ∧
      ¬Undone Arm.header 0x100000 ⟨0x300000, 0, 0x1000, false⟩ m m') ∧
    ∃ m', release_mapping Arm.header Arm.reused 0x100000 0x301000 0x1000 = .ok m' ∧
      ¬Undone Arm.header 0x100000 ⟨0x301000, 0, 0x1000, false⟩ Arm.reused m' := by
  constructor
  · have hrun : ((create_mapping Arm.header Arm.allocators Arm.reused 0x100000 0x300000 0x500000
        0x100000 false).bind fun m => (release_mapping Arm.header m 0x100000 0x300000 0x1000).map
          fun m' => (m.mem 0x500C00, m'.mem 0x500C00,
            lookup Arm.header m'.mem 0x100000 0x300)).toOption = some (1, 0, some 0x500) := by
      decide +kernel
    obtain ⟨m, m', hm, hrelease, hsame⟩ := exists_of_bind_eq hrun
    obtain ⟨hold, hrest⟩ := Prod.mk.inj hsame
    obtain ⟨hnew, hpage⟩ := Prod.mk.inj hrest
    refine ⟨m, m', Arm.sectionMap_edited hm, hrelease, ?_, fun O => ?_⟩
    · rw [hold, hnew]
      decide
    · have hunmapped := O.unmapped 0x300 ⟨by decide, by decide⟩
      rw [hpage] at hunmapped
      exact absurd hunmapped (by decide)
  · have hrun : ((release_mapping Arm.header Arm.reused 0x100000 0x301000 0x1000).map
        fun m' => m'.mem 4).toOption = some 0 := by decide +kernel
    obtain ⟨m', hrelease, hzero⟩ := exists_of_map_eq hrun
    refine ⟨m', hrelease, fun O => ?_⟩
    obtain ⟨p, hp, hentry | ⟨ht, -⟩⟩ := O.written 4 (by rw [hzero]; decide)
    · have hpage : p = 0x301 := by
        have h1 := hp.1
        have h2 := hp.2
        change 0x301000 / 4096 ≤ p at h1
        change p < 0x301000 / 4096 + (0x1000 + 4095) / 4096 at h2
        omega
      rw [hpage] at hentry
      exact absurd hentry (by decide)
    · have hlt : p / 256 < 4096 := by
        have h2 := hp.2
        change p < 0x301000 / 4096 + (0x1000 + 4095) / 4096 at h2
        omega
      exact not_isTable_zero (Arm.reused_empty _ hlt ▸ ht)

end SyeLabs.Mmu
