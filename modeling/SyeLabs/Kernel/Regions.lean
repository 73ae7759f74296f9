import SyeLabs.Theory.Arcs
import SyeLabs.Kernel.Exchange
import SyeLabs.Kernel.ArgsPage

/-!
# The ranges of a new image

`setup_proc_image_replace` maps four ranges: stack, image, heap and arguments. Where the heap starts
depends on how many pages stack and image have, not on where they are, and the image is where the
file wants it.
-/

namespace SyeLabs.Kernel

open Mmu

variable {H : Header} {al : Allocators} {cfg : Config} {w w' : Work} {v n : Word}
  {a b : Word × Word} {p : Nat} {elf_img_info : ElfImage} {argc : Nat}
  {argv envp : Option (List ArgString)}

/-- The pages in which a range lies: where it starts, and how many pages it has, as an `int`. -/
def pagesOf (range : Word × Word) : Set Nat :=
  {p | ∃ k < range.2.toInt.toNat * PAGE_SIZE,
    p = (range.1 + BitVec.ofNat 32 k).toNat / PAGE_SIZE}

/-- The ranges of stack, image, heap and arguments, in the order in which they are mapped. -/
def Pcb.ranges (cfg : Config) (elf_img_info : ElfImage) (pcb : Pcb) : List (Word × Word) :=
  [(pcb.stack_top - pageCount cfg.PROC_STACK_SIZE * BitVec.ofNat 32 PAGE_SIZE,
      pageCount cfg.PROC_STACK_SIZE),
    (pcb.bin_image_entry, elf_img_info.segment_page_count),
    (pcb.heap_base, pageCount cfg.HEAP_SIZE),
    (cfg.args_base, 1)]

/-- No page lies in two of the ranges. -/
def DisjointRanges (ranges : List (Word × Word)) : Prop :=
  ranges.Pairwise fun a b => Disjoint (pagesOf a) (pagesOf b)

/-- The number of pages in which a range lies: one more than it has if it does not start with a
page. -/
def pageSpan (v n : Word) : Nat :=
  if n.toInt.toNat = 0 then 0 else n.toInt.toNat + if 4096 ∣ v.toNat then 0 else 1

/-- Of two ranges of pages, with `m` pages from `a` on and `n` pages from `b` on, each ends before
the other one starts, going round the address space. -/
def Far (a m b n : Int) : Prop :=
  m ≤ 0 ∨ n ≤ 0 ∨ m ≤ (b - a) % 2 ^ 20 ∧ n ≤ (a - b) % 2 ^ 20

/-- The image is far from the heap, and both are far from the stack with the page above it. -/
structure Separate (cfg : Config) (e_entry segment_page_count : Word) : Prop where
  image_heap : Far (e_entry.toNat / 4096 : Nat) (pageSpan e_entry segment_page_count)
    ((pageCount cfg.PROC_STACK_SIZE).toNat + segment_page_count.toNat + 1 : Nat)
    (pageCount cfg.HEAP_SIZE).toNat
  image_stack : Far (e_entry.toNat / 4096 : Nat) (pageSpan e_entry segment_page_count)
    ((cfg.args_base.toNat / 4096 : Nat) - (pageCount cfg.PROC_STACK_SIZE).toNat)
    ((pageCount cfg.PROC_STACK_SIZE).toNat + 1)
  heap_stack : Far ((pageCount cfg.PROC_STACK_SIZE).toNat + segment_page_count.toNat + 1 : Nat)
    (pageCount cfg.HEAP_SIZE).toNat
    ((cfg.args_base.toNat / 4096 : Nat) - (pageCount cfg.PROC_STACK_SIZE).toNat)
    ((pageCount cfg.PROC_STACK_SIZE).toNat + 1)

/-! ## Pages and arcs -/

theorem mem_pagesOf : p ∈ pagesOf (v, n) ↔
    p < 2 ^ 20 ∧ (p : Int) ∈ arc (2 ^ 20) (v.toNat / 4096 : Nat) (pageSpan v n) := by
  have hv := v.isLt
  rw [mem_arc]
  generalize hlen : n.toInt.toNat = len
  change (∃ k < n.toInt.toNat * 4096, p = (v + BitVec.ofNat 32 k).toNat / 4096) ↔ _
  rw [pageSpan, hlen]
  constructor
  · rintro ⟨k, hk, rfl⟩
    rw [BitVec.toNat_add, BitVec.toNat_ofNat, Nat.add_mod_mod]
    split
    · omega
    · split <;> omega
  · rintro ⟨hp, harc⟩
    -- how far page `p` is from the first page
    obtain ⟨d, hd⟩ : ∃ d : Nat, ((p : Int) - (v.toNat / 4096 : Nat)) % 2 ^ 20 = d :=
      ⟨_, (Int.toNat_of_nonneg (Int.emod_nonneg _ (by decide))).symm⟩
    rw [hd] at harc
    refine ⟨d * 4096 - v.toNat % 4096, ?_, ?_⟩
    · split at harc
      · omega
      · split at harc <;> omega
    · rw [BitVec.toNat_add, BitVec.toNat_ofNat, Nat.add_mod_mod]
      omega

/-- The arc of a range. -/
def arcOf (range : Word × Word) : Set Int :=
  arc (2 ^ 20) (range.1.toNat / 4096 : Nat) (pageSpan range.1 range.2)

theorem disjoint_pagesOf : Disjoint (pagesOf a) (pagesOf b) ↔ Disjoint (arcOf a) (arcOf b) := by
  rw [Set.disjoint_left, Set.disjoint_left]
  constructor
  · intro h p ha hb
    have hN : (0 : Int) < 2 ^ 20 := by decide
    -- the page of the address space
    obtain ⟨q, hq⟩ : ∃ q : Nat, p % 2 ^ 20 = q :=
      ⟨_, (Int.toNat_of_nonneg (Int.emod_nonneg _ (by decide))).symm⟩
    have hlt := Int.emod_lt_of_pos p hN
    have hsame : ∀ c : Int, ((q : Int) - c) % 2 ^ 20 = (p - c) % 2 ^ 20 := fun c => by
      rw [← hq, Int.emod_sub_emod]
    refine h (a := q) (mem_pagesOf.mpr ⟨by omega, ?_⟩) (mem_pagesOf.mpr ⟨by omega, ?_⟩)
    · rw [mem_arc, hsame]
      exact ha
    · rw [mem_arc, hsame]
      exact hb
  · intro h p ha hb
    exact h (mem_pagesOf.mp ha).2 (mem_pagesOf.mp hb).2

theorem pageCount_lt (size : Word) : (pageCount size).toNat < 2 ^ 20 := by
  have hlt := (ALIGN_UP size).isLt
  rw [pageCount, BitVec.toNat_ushiftRight, Nat.shiftRight_eq_div_pow, PAGE_SHIFT]
  omega

theorem pageCount_toInt (size : Word) :
    (pageCount size).toInt.toNat = (pageCount size).toNat := by
  have hlt := pageCount_lt size
  rw [BitVec.toInt_eq_toNat_cond, if_pos (by omega)]
  rfl

/-- A range that starts with a page. -/
theorem arcOf_aligned (hv : 4096 ∣ v.toNat) :
    arcOf (v, n) = arc (2 ^ 20) (v.toNat / 4096 : Nat) n.toInt.toNat := by
  rw [arcOf, pageSpan, if_pos hv]
  split
  · next hzero => rw [hzero]
  · rfl

theorem arc_congr {c d e : Int} (h : c % 2 ^ 20 = d % 2 ^ 20) :
    arc (2 ^ 20) c e = arc (2 ^ 20) d e := by
  ext p
  rw [mem_arc, mem_arc, Int.sub_emod, h, ← Int.sub_emod]

/-- The stack, and the page above it. -/
theorem arcOf_stack (hargs : 4096 ∣ cfg.args_base.toNat) :
    arcOf (cfg.args_base - pageCount cfg.PROC_STACK_SIZE * BitVec.ofNat 32 PAGE_SIZE,
        pageCount cfg.PROC_STACK_SIZE) =
      arc (2 ^ 20) ((cfg.args_base.toNat / 4096 : Nat) - (pageCount cfg.PROC_STACK_SIZE).toNat)
        (pageCount cfg.PROC_STACK_SIZE).toNat := by
  have hlt := pageCount_lt cfg.PROC_STACK_SIZE
  have hbase := cfg.args_base.isLt
  have hstart : (cfg.args_base - pageCount cfg.PROC_STACK_SIZE * BitVec.ofNat 32 PAGE_SIZE).toNat =
      (cfg.args_base.toNat + 2 ^ 32 - (pageCount cfg.PROC_STACK_SIZE).toNat * 4096) % 2 ^ 32 := by
    rw [BitVec.toNat_sub, BitVec.toNat_mul, BitVec.toNat_ofNat, PAGE_SIZE]
    omega
  rw [arcOf_aligned (by rw [hstart]; omega), pageCount_toInt, hstart]
  apply arc_congr
  omega

theorem arcOf_args (hargs : 4096 ∣ cfg.args_base.toNat) : arcOf (cfg.args_base, 1) =
    arc (2 ^ 20) (((cfg.args_base.toNat / 4096 : Nat) - (pageCount cfg.PROC_STACK_SIZE).toNat) +
      (pageCount cfg.PROC_STACK_SIZE).toNat) 1 := by
  rw [arcOf_aligned hargs, Int.sub_add_cancel]
  rfl

theorem heapBase_toNat (cfg : Config) (n : Word) : (heapBase cfg n).toNat =
    ((pageCount cfg.PROC_STACK_SIZE).toNat + n.toNat + 1) % 2 ^ 20 * 4096 := by
  have hone : (1 : Word).toNat = 1 := rfl
  rw [heapBase, BitVec.toNat_mul, BitVec.toNat_add, BitVec.toNat_add, hone, BitVec.toNat_ofNat,
    PAGE_SIZE]
  omega

theorem arcOf_heap (cfg : Config) (n : Word) : arcOf (heapBase cfg n, pageCount cfg.HEAP_SIZE) =
    arc (2 ^ 20) ((pageCount cfg.PROC_STACK_SIZE).toNat + n.toNat + 1 : Nat)
      (pageCount cfg.HEAP_SIZE).toNat := by
  have hbase := heapBase_toNat cfg n
  rw [arcOf_aligned (by omega), pageCount_toInt]
  apply arc_congr
  omega

theorem disjoint_arc_iff {c d : Int} {m k : Int} :
    Disjoint (arc (2 ^ 20) c m) (arc (2 ^ 20) d k) ↔ Far c m d k := arc_disjoint_iff (by decide)

/-- Stack and arguments are next to each other. -/
theorem disjoint_top_iff (hargs : 4096 ∣ cfg.args_base.toNat) (s : Set Int) :
    Disjoint s (arcOf (cfg.args_base - pageCount cfg.PROC_STACK_SIZE * BitVec.ofNat 32 PAGE_SIZE,
        pageCount cfg.PROC_STACK_SIZE)) ∧ Disjoint s (arcOf (cfg.args_base, 1)) ↔
      Disjoint s (arc (2 ^ 20)
        ((cfg.args_base.toNat / 4096 : Nat) - (pageCount cfg.PROC_STACK_SIZE).toNat)
        ((pageCount cfg.PROC_STACK_SIZE).toNat + 1)) := by
  rw [arcOf_stack hargs, arcOf_args hargs, ← Set.disjoint_union_right,
    ← arc_add (by omega) (by decide) (by decide)]

theorem disjoint_stack_args (hargs : 4096 ∣ cfg.args_base.toNat) :
    Disjoint (arcOf (cfg.args_base - pageCount cfg.PROC_STACK_SIZE * BitVec.ofNat 32 PAGE_SIZE,
      pageCount cfg.PROC_STACK_SIZE)) (arcOf (cfg.args_base, 1)) := by
  have hlt := pageCount_lt cfg.PROC_STACK_SIZE
  rw [arcOf_stack hargs, arcOf_args hargs, disjoint_arc_iff, Far]
  omega

/-- The ranges of a PCB that exec has filled in. -/
theorem disjointRanges_iff (hargs : 4096 ∣ cfg.args_base.toNat) {pcb : Pcb}
    (htop : pcb.stack_top = cfg.args_base)
    (hentry : pcb.bin_image_entry = elf_img_info.e_entry)
    (hheap : pcb.heap_base = heapBase cfg elf_img_info.segment_page_count) :
    DisjointRanges (pcb.ranges cfg elf_img_info) ↔
      Separate cfg elf_img_info.e_entry elf_img_info.segment_page_count := by
  have himage := disjoint_top_iff hargs
    (arcOf (elf_img_info.e_entry, elf_img_info.segment_page_count))
  have hheaps := disjoint_top_iff hargs
    (arcOf (heapBase cfg elf_img_info.segment_page_count, pageCount cfg.HEAP_SIZE))
  have hstack := disjoint_stack_args hargs
  rw [DisjointRanges, Pcb.ranges, htop, hentry, hheap]
  simp only [List.pairwise_cons, List.mem_cons, List.not_mem_nil, forall_eq_or_imp, or_false,
    forall_eq, disjoint_pagesOf, List.Pairwise.nil, and_true, IsEmpty.forall_iff, implies_true]
  constructor
  · rintro ⟨⟨hsi, hsh, -⟩, ⟨hih, hia⟩, hha⟩
    constructor
    case image_heap =>
      rw [arcOf_heap] at hih
      exact disjoint_arc_iff.mp hih
    case image_stack => exact disjoint_arc_iff.mp (himage.mp ⟨hsi.symm, hia⟩)
    case heap_stack =>
      rw [arcOf_heap] at hheaps hsh hha
      exact disjoint_arc_iff.mp (hheaps.mp ⟨hsh.symm, hha⟩)
  · rintro ⟨hih, his, hhs⟩
    obtain ⟨hsi, hia⟩ := himage.mpr (disjoint_arc_iff.mpr his)
    rw [arcOf_heap] at hheaps ⊢
    obtain ⟨hsh, hha⟩ := hheaps.mpr (disjoint_arc_iff.mpr hhs)
    exact ⟨⟨hsi.symm, hsh.symm, hstack⟩, ⟨disjoint_arc_iff.mpr hih, hia⟩, hha⟩

/-! ## The calls of `allocate_page` -/

/-- The ranges are mapped one after the other. -/
def allocateRanges (H : Header) (al : Allocators) (ranges : List (Word × Word)) (w : Work) :
    Except Fault Work := ranges.foldlM (fun w range => allocate_page H al w range.1 range.2) w

theorem allocateRanges_cons {w'' : Work} {ranges : List (Word × Word)}
    (h : allocate_page H al w a.1 a.2 = .ok w') (h' : allocateRanges H al ranges w' = .ok w'') :
    allocateRanges H al (a :: ranges) w = .ok w'' := by
  rw [allocateRanges, List.foldlM_cons, h]
  exact h'

/-- A change of a PCB that leaves its page table and its pages alone. -/
structure Harmless (f : Pcb → Pcb) : Prop where
  pgtable : ∀ pcb, (f pcb).pgtable = pcb.pgtable
  page_list : ∀ pcb l, f { pcb with page_list := pcb.page_list ++ l } =
    { f pcb with page_list := (f pcb).page_list ++ l }

def Work.mapPcb (f : Pcb → Pcb) (w : Work) : Work := { w with pcb := f w.pcb }

theorem allocatePage_mapPcb {f : Pcb → Pcb} (hf : Harmless f) (v : Word) (i : Nat) (w : Work) :
    allocatePage H al v i (w.mapPcb f) = (allocatePage H al v i w).map (Work.mapPcb f) := by
  unfold allocatePage
  simp only [Work.mapPcb, hf.pgtable]
  cases w.m.get_free_page al with
  | error e => rfl
  | ok x =>
    simp only [bind, Except.bind]
    cases create_mapping H al x.2 w.pcb.pgtable (v + BitVec.ofNat 32 (i * PAGE_SIZE)) x.1
      (BitVec.ofNat 32 PAGE_SIZE) false with
    | error e => rfl
    | ok m =>
      simp [pure, Except.pure, Except.map, Work.add_page_to_proc, Work.mapPcb, hf.page_list]

theorem allocate_page_mapPcb {f : Pcb → Pcb} (hf : Harmless f) (v n : Word) (w : Work) :
    allocate_page H al (w.mapPcb f) v n = (allocate_page H al w v n).map (Work.mapPcb f) :=
  forLoop_map (fun i w => allocatePage_mapPcb hf v i w) _ w

theorem allocate_page_pcb (v n : Word) (w : Work) :
    wp (allocate_page H al w v n)
      (fun w' => ∃ F, w'.pcb = { w.pcb with page_list := w.pcb.page_list ++ F })
      (fun _ => True) := by
  let I : Nat → Work → Prop := fun _ w' =>
    ∃ F, w'.pcb = { w.pcb with page_list := w.pcb.page_list ++ F }
  refine wp_forLoop I ?_ ⟨[], by rw [List.append_nil]⟩
  rintro i w' - ⟨F, hpcb⟩
  unfold allocatePage
  refine wp.bind wp.trivial fun x _ => wp.bind wp.trivial fun m _ => wp_pure.mpr ?_
  exact ⟨F ++ [x.1], by simp [Work.add_page_to_proc, hpcb]⟩

/-- What exec writes into the PCB after the stack, after the image, and after the heap. -/
def setEntry (elf_img_info : ElfImage) (pcb : Pcb) : Pcb :=
  { pcb with
    bin_image_entry := elf_img_info.e_entry
    page_count := pcb.page_count + elf_img_info.segment_page_count }

def setHeap (cfg : Config) (base : Word) (pcb : Pcb) : Pcb :=
  { pcb with
    heap_base := base
    heap_pointer := base
    page_count := pcb.page_count + pageCount cfg.HEAP_SIZE }

def countArgs (pcb : Pcb) : Pcb := { pcb with page_count := pcb.page_count + 1 }

theorem harmless_setEntry : Harmless (setEntry elf_img_info) := ⟨fun _ => rfl, fun _ _ => rfl⟩

theorem harmless_setHeap {base : Word} : Harmless (setHeap cfg base) :=
  ⟨fun _ => rfl, fun _ _ => rfl⟩

theorem harmless_countArgs : Harmless countArgs := ⟨fun _ => rfl, fun _ _ => rfl⟩

/-- The image has been laid out from `w` on: the ranges of the PCB have been mapped. -/
structure LaidOut (H : Header) (al : Allocators) (cfg : Config) (elf_img_info : ElfImage)
    (w : Work) (m : Machine) (pcb : Pcb) : Prop where
  stack_top : pcb.stack_top = cfg.args_base
  entry : pcb.bin_image_entry = elf_img_info.e_entry
  heap_base : pcb.heap_base = heapBase cfg elf_img_info.segment_page_count
  mapped : ∃ w', allocateRanges H al (pcb.ranges cfg elf_img_info) w = .ok w' ∧
    m = w'.m ∧ pcb.page_list = w'.pcb.page_list ∧ pcb.pgtable = w'.pcb.pgtable

theorem allocateImage_laidOut (htop : w.pcb.stack_top = cfg.args_base)
    (hcount : w.pcb.page_count = pageCount cfg.PROC_STACK_SIZE) :
    wp (allocateImage H al cfg w elf_img_info)
      (fun w' => LaidOut H al cfg elf_img_info w w'.m w'.pcb) (fun _ => True) := by
  unfold allocateImage allocateStack
  refine wp.bind (wp.self.and (allocate_page_pcb _ _ w)) ?_
  rintro w1 ⟨h1, F1, hpcb1⟩
  -- the image
  change wp (allocate_page H al (w1.mapPcb (setEntry elf_img_info)) _ _ >>= _) _ _
  rw [allocate_page_mapPcb harmless_setEntry]
  refine wp.bind wp.self fun w2' h2' => ?_
  obtain ⟨w2, h2, rfl⟩ := exists_of_map_ok h2'
  obtain ⟨F2, hpcb2⟩ := (allocate_page_pcb _ _ w1).of_ok h2
  have hbase : ((w2.mapPcb (setEntry elf_img_info)).pcb.page_count + 1) *
      BitVec.ofNat 32 PAGE_SIZE = heapBase cfg elf_img_info.segment_page_count := by
    rw [heapBase, Work.mapPcb, setEntry, hpcb2, hpcb1, hcount]
  -- the heap
  rw [hbase]
  change wp (allocate_page H al ((w2.mapPcb (setEntry elf_img_info)).mapPcb (setHeap cfg _)) _ _ >>=
    _) _ _
  rw [allocate_page_mapPcb harmless_setHeap, allocate_page_mapPcb harmless_setEntry]
  refine wp.bind wp.self fun w3' h3' => ?_
  obtain ⟨x3, hx3, rfl⟩ := exists_of_map_ok h3'
  obtain ⟨w3, h3, rfl⟩ := exists_of_map_ok hx3
  obtain ⟨F3, hpcb3⟩ := (allocate_page_pcb _ _ w2).of_ok h3
  -- the arguments
  change wp (allocate_page H al (((w3.mapPcb (setEntry elf_img_info)).mapPcb (setHeap cfg _)).mapPcb
    countArgs) _ _) _ _
  rw [allocate_page_mapPcb harmless_countArgs, allocate_page_mapPcb harmless_setHeap,
    allocate_page_mapPcb harmless_setEntry]
  refine wp.self.mono fun w4' h4' => ?_
  obtain ⟨x4, hx4, rfl⟩ := exists_of_map_ok h4'
  obtain ⟨y4, hy4, rfl⟩ := exists_of_map_ok hx4
  obtain ⟨w4, h4, rfl⟩ := exists_of_map_ok hy4
  obtain ⟨F4, hpcb4⟩ := (allocate_page_pcb _ _ w3).of_ok h4
  have htop4 : w4.pcb.stack_top = cfg.args_base := by rw [hpcb4, hpcb3, hpcb2, hpcb1, htop]
  refine ⟨htop4, rfl, rfl, w4, ?_, rfl, rfl, rfl⟩
  change allocateRanges H al [(w4.pcb.stack_top - _, _), _, _, _] w = .ok w4
  rw [htop, hcount] at h1
  rw [htop4]
  exact allocateRanges_cons h1 (allocateRanges_cons h2
    (allocateRanges_cons h3 (allocateRanges_cons h4 rfl)))

theorem release_proc_pages_pcb (w : Work) :
    w.release_proc_pages.pcb = { w.pcb with page_list := [] } := by
  have hfold : ∀ (F : List Word) (w : Work), (F.foldl Work.releasePage w).pcb = w.pcb := by
    intro F
    induction F with
    | nil => exact fun _ => rfl
    | cons f F ih => exact fun w => ih (w.releasePage f)
  rw [Work.release_proc_pages, hfold]

/-- The call has laid out the image, and then written the arguments if there are any. -/
def Replaced (H : Header) (al : Allocators) (cfg : Config) (elf_img_info : ElfImage) (w : Work) :
    Prop :=
  ∃ w₀ m, LaidOut H al cfg elf_img_info w₀ m w.pcb ∧
    (w.m = m ∨ ∃ args_env, postSetupImage H cfg m args_env = .ok w.m)

theorem setup_proc_image_replace_replaced :
    wp (setup_proc_image_replace H al cfg w elf_img_info argc argv envp)
      (fun x => x.1 = 0 ∧ Replaced H al cfg elf_img_info x.2) (fun _ => True) := by
  unfold setup_proc_image_replace
  refine wp.bind wp.trivial ?_
  rintro ⟨args_env, m1⟩ -
  simp only [Nat.not_lt_zero, if_false]
  refine wp.bind wp.trivial fun m2 _ => ?_
  have hpcb := release_proc_pages_pcb { w with pcb := reset_process_stack cfg w.pcb, m := m2 }
  refine wp.bind (allocateImage_laidOut (by rw [hpcb]; rfl) (by rw [hpcb]; rfl)) fun w4 L => ?_
  split
  · refine wp.bind wp.self fun m5 h5 => ?_
    exact wp_pure.mpr ⟨rfl, _, w4.m, L, .inr ⟨args_env, h5⟩⟩
  · exact wp_pure.mpr ⟨rfl, _, w4.m, L, .inl rfl⟩

/-- A call has the memory it needs if the image is allocated. -/
theorem setup_proc_image_replace_ne_noMemory
    (h : ((preserveArgs al w.m w.pcb.name argc argv envp).bind fun x =>
      (reset_root_pgtable H cfg.kernel x.2 w.pcb.pgtable false).bind fun m =>
        allocateImage H al cfg (Work.release_proc_pages
          { w with m, pcb := reset_process_stack cfg w.pcb }) elf_img_info).isOk = true) :
    wp (setup_proc_image_replace H al cfg w elf_img_info argc argv envp) (fun _ => True)
      (· ≠ .noMemory) := by
  obtain ⟨w', hw'⟩ := exists_of_isOk h
  obtain ⟨⟨args_env, m1⟩, hargs, hrest⟩ := exists_of_bind_ok hw'
  obtain ⟨m2, hreset, himage⟩ := exists_of_bind_ok hrest
  change reset_root_pgtable H cfg.kernel m1 (reset_process_stack cfg w.pcb).pgtable false = _
    at hreset
  unfold setup_proc_image_replace
  rw [hargs, wp_bind, wp_ok]
  simp only [Nat.not_lt_zero, if_false]
  rw [hreset, wp_bind, wp_ok, himage, wp_bind, wp_ok]
  split
  · refine wp.bind (Q := fun _ => True) ?_ fun _ _ => wp_pure.mpr True.intro
    unfold postSetupImage
    split
    · exact wp_throw.mpr Fault.noConfusion
    · unfold Machine.free
      split
      · exact wp_pure.mpr True.intro
      · exact wp_throw.mpr Fault.noConfusion
  · exact wp_pure.mpr True.intro

/-- `setup_proc_image_replace` maps four ranges and returns 0. They are disjoint exactly if the
image is separate from the heap, and both from the stack and the arguments. -/
theorem setup_proc_image_replace_disjoint_iff (hargs : 4096 ∣ cfg.args_base.toNat) :
    wp (setup_proc_image_replace H al cfg w elf_img_info argc argv envp)
      (fun x => x.1 = 0 ∧ Replaced H al cfg elf_img_info x.2 ∧
        (DisjointRanges (x.2.pcb.ranges cfg elf_img_info) ↔
          Separate cfg elf_img_info.e_entry elf_img_info.segment_page_count))
      (fun _ => True) := by
  refine setup_proc_image_replace_replaced.mono ?_
  rintro x ⟨hret, w₀, m, L, hm⟩
  exact ⟨hret, ⟨w₀, m, L, hm⟩, disjointRanges_iff hargs L.stack_top L.entry L.heap_base⟩

/-! ## Two images -/

/-- An image of `n` pages from `v` on. -/
def imageAt (v n : Word) : ElfImage := ⟨v, n, [], [], 0⟩

theorem emptyProcess_l1 (i : Nat) : l1 emptyProcess.m.mem 0x200000 i = 0 := rfl

theorem emptyProcess_space : Space H cfg [] emptyProcess :=
  .empty (by decide)
    ⟨.of_apart (by decide) (by decide), ⟨.heap, by decide⟩,
      fun i _ h => absurd (emptyProcess_l1 i) h.1, fun i _ _ _ h => absurd (emptyProcess_l1 i) h.1⟩
    (fun i _ => emptyProcess_l1 i) (.inr (emptyProcess_l1 _)) rfl Ledger.nil

/-- An image without arguments, in an empty user space. -/
theorem emptyProcess_replaced (hcfg : cfg.AreaOk)
    (hentry : 4096 ∣ elf_img_info.e_entry.toNat)
    (h : ((preserveArgs al emptyProcess.m emptyProcess.pcb.name 0 none none).bind fun x =>
      (reset_root_pgtable H cfg.kernel x.2 emptyProcess.pcb.pgtable false).bind fun m =>
        allocateImage H al cfg (Work.release_proc_pages
          { emptyProcess with m, pcb := reset_process_stack cfg emptyProcess.pcb })
          elf_img_info).isOk = true) :
    ∃ w, setup_proc_image_replace H al cfg emptyProcess elf_img_info 0 none none = .ok (0, w) := by
  have hs : elf_img_info.Unsectioned H cfg emptyProcess.m.mem emptyProcess.pcb.pgtable :=
    ⟨fun _ _ => .inr (emptyProcess_l1 _), fun _ _ => .inr (emptyProcess_l1 _)⟩
  have hfit : Fits (pageStrings emptyProcess.pcb.name none none) := by
    unfold Fits
    decide
  have hspec : wp (setup_proc_image_replace H al cfg emptyProcess elf_img_info
      ((none : Option (List ArgString)).getD []).length none none) _ _ :=
    setup_proc_image_replace_spec hcfg emptyProcess_space rfl hentry hs hfit
  obtain ⟨⟨ret, w⟩, hw, ⟨rfl, -⟩, -⟩ :=
    (hspec.and_not (setup_proc_image_replace_ne_noMemory h)).exists_ok fun _ => id
  exact ⟨w, hw⟩

theorem setup_proc_image_replace_disjoint_iff_small : ∃ w,
    setup_proc_image_replace Arm.header Arm.ascending smallConfig emptyProcess
      (imageAt 0x1000 4) 0 none none = .ok (0, w) ∧
    Replaced Arm.header Arm.ascending smallConfig (imageAt 0x1000 4) w ∧
    (DisjointRanges (w.pcb.ranges smallConfig (imageAt 0x1000 4)) ↔
      Separate smallConfig 0x1000 4) := by
  have hcfg : smallConfig.AreaOk := ⟨⟨by decide, by decide⟩, by decide, by decide, by decide⟩
  have hentry : 4096 ∣ (imageAt 0x1000 4).e_entry.toNat := by decide
  obtain ⟨w, hw⟩ : ∃ w, setup_proc_image_replace Arm.header Arm.ascending smallConfig emptyProcess
      (imageAt 0x1000 4) 0 none none = .ok (0, w) :=
    emptyProcess_replaced hcfg hentry (by decide +kernel)
  exact ⟨w, hw, ((setup_proc_image_replace_disjoint_iff (by decide)).of_ok hw).2⟩

/-- 64 pages of stack. -/
def stackConfig : Config := { smallConfig with PROC_STACK_SIZE := 0x40000 }

/-- With 64 pages of stack, an image of one page at `0x42000` lies where the heap is. -/
theorem not_disjointRanges : ∃ w,
    setup_proc_image_replace Arm.header Arm.ascending stackConfig emptyProcess
      (imageAt 0x42000 1) 0 none none = .ok (0, w) ∧
    ¬DisjointRanges (w.pcb.ranges stackConfig (imageAt 0x42000 1)) := by
  have hcfg : stackConfig.AreaOk := ⟨⟨by decide, by decide⟩, by decide, by decide, by decide⟩
  have hentry : 4096 ∣ (imageAt 0x42000 1).e_entry.toNat := by decide
  obtain ⟨w, hw⟩ : ∃ w, setup_proc_image_replace Arm.header Arm.ascending stackConfig emptyProcess
      (imageAt 0x42000 1) 0 none none = .ok (0, w) :=
    emptyProcess_replaced hcfg hentry (by decide +kernel)
  obtain ⟨-, w₀, m, L, -⟩ := setup_proc_image_replace_replaced.of_ok hw
  refine ⟨w, hw, fun h => ?_⟩
  have hsep := (disjointRanges_iff (by decide) L.stack_top L.entry L.heap_base).mp h
  have hfar := hsep.image_heap
  unfold Far at hfar
  revert hfar
  decide

end SyeLabs.Kernel
