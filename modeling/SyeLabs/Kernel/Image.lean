import SyeLabs.Mmu.Mapping
import SyeLabs.Kernel.Args

/-!
# The memory of a process

The functions of `process.c` and `mmu.c` that give page frames to a process and take them back:
the first process, the copy of a user space in `fork`, and the exchange of the image in `exec`.
A frame is named by its physical address; the nodes of `page_list` are not blocks of the heap
here.
-/

namespace SyeLabs.Kernel

open Mmu

/-- The addresses and sizes of the configuration. The user area lies below `kernel`, the index of
`CONFIG_KERNEL_VADDR`, and has small pages only. -/
structure Config where
  kernel : Nat
  FIXMAP_MAPPING : Word
  /-- `arch_get_args_base()`. -/
  args_base : Word
  PROC_STACK_SIZE : Word
  HEAP_SIZE : Word
  /-- Where the image of `root_proc` is mapped, and where it is in physical memory. -/
  USER_SPACE_VADDR : Word
  root_proc_start : Word
  root_proc_size : Word

/-- The user area below `0xC0000000`, with a page each for the stack and the heap. -/
def smallConfig : Config where
  kernel := 0xC00
  FIXMAP_MAPPING := 0xF0000000
  args_base := 0xBFFFF000
  PROC_STACK_SIZE := 0x1000
  HEAP_SIZE := 0x1000
  USER_SPACE_VADDR := 0x1000
  root_proc_start := 0x200000
  root_proc_size := 0x1000

/-- A PCB together with the machine and the reference counts of the page frames. -/
structure Work where
  pcb : Pcb
  m : Machine
  refcount : Word → Nat

/-- A process with an empty user space. -/
def emptyProcess : Work where
  pcb := { pid := 1, pgtable := 0x200000 }
  m := { mem := fun _ => 0, trace := [.alloc .heap ⟨0x200000, 16384⟩], current_pgtable := 0x200000 }
  refcount := fun _ => 0

namespace Work

def add_page_to_proc (w : Work) (page : Word) : Work :=
  { w with
    pcb := { w.pcb with page_list := w.pcb.page_list ++ [page] }
    refcount := Function.update w.refcount page (w.refcount page + 1) }

/-- One entry of the list in `release_proc_pages`. -/
def releasePage (w : Work) (page : Word) : Work :=
  let refcount := Function.update w.refcount page (w.refcount page - 1)
  { w with
    refcount
    m := if refcount page = 0 then w.m.free_page page else w.m }

def release_proc_pages (w : Work) : Work :=
  let w' := w.pcb.page_list.foldl releasePage w
  { w' with pcb := { w'.pcb with page_list := [] } }

end Work

section
variable (H : Header) (al : Allocators) (cfg : Config)

/-- `ALIGN_UP(size, PAGE_SIZE) >> PAGE_SHIFT`. -/
def pageCount (size : Word) : Word := ALIGN_UP size >>> PAGE_SHIFT

def reset_process_stack (pcb : Pcb) : Pcb :=
  { pcb with
    page_count := pageCount cfg.PROC_STACK_SIZE
    stack_top := cfg.args_base }

def allocatePage (virt_addr : Word) (i : Nat) (w : Work) : Except Fault Work := do
  let (page, m) ← w.m.get_free_page al
  let m ← create_mapping H al m w.pcb.pgtable (virt_addr + BitVec.ofNat 32 (i * PAGE_SIZE)) page
    (BitVec.ofNat 32 PAGE_SIZE) false
  return { w with m }.add_page_to_proc page

/-- `nr_pages` is an `int`. -/
def allocate_page (w : Work) (virt_addr nr_pages : Word) : Except Fault Work :=
  forLoop nr_pages.toInt.toNat (allocatePage H al virt_addr) w

/-- The stack that `reset_process_stack` has set up. -/
def allocateStack (w : Work) : Except Fault Work :=
  allocate_page H al w (w.pcb.stack_top - w.pcb.page_count * BitVec.ofNat 32 PAGE_SIZE)
    w.pcb.page_count

/-! ## `new_process` and `create_root_process` -/

/-- A PCB with an empty user space; the kernel area is that of the system. -/
def newImage (m : Machine) : Except Fault (Word × Machine) := do
  let (pgtable, m) ← new_root_pgtable al m
  return (pgtable, pgtable_copy_kernel_area cfg.kernel m pgtable)

/-- The image of the first process. -/
def rootImage (w : Work) : Except Fault Work := do
  let w := { w with pcb := reset_process_stack cfg w.pcb }
  let w ← allocateStack H al w
  let m ← create_mapping H al w.m w.pcb.pgtable cfg.USER_SPACE_VADDR cfg.root_proc_start
    cfg.root_proc_size false
  return { w with m, pcb := { w.pcb with main_thread := some {}, state := .READY } }

/-! ## `duplicate_user_space` -/

/-- Page `j` of the table of slot `i`; `l2pgtable` and `l2pgtable_dst` are the two tables. -/
def duplicatePage (i : Nat) (l2pgtable l2pgtable_dst : Word) (j : Nat) (w : Work) :
    Except Fault Work :=
  if w.m.mem.load (entry l2pgtable j) ≠ 0 then do
    let l2pte_dst := entry l2pgtable_dst j
    let (paddr, m) ← w.m.get_free_page al
    let w := { w with m }.add_page_to_proc paddr
    let m ← create_mapping H al w.m w.m.current_pgtable cfg.FIXMAP_MAPPING paddr
      (BitVec.ofNat 32 PAGE_SIZE) false
    let mem := m.mem.store l2pte_dst paddr
    let mem := mem.store l2pte_dst (H.set_l2_pte_dcache (mem.load l2pte_dst) false)
    let tr := translate H m.current_pgtable
    match mem.memcpy tr tr cfg.FIXMAP_MAPPING (pte_index_to_vaddr i j) PAGE_SIZE with
    | none => throw .dataAbort
    | some mem => return { w with m := { m with mem } }
  else pure w

/-- Slot `i` of the table `from_pgtable`. -/
def duplicateSlot (from_pgtable : Word) (i : Nat) (w : Work) : Except Fault Work :=
  let l1pte := entry from_pgtable i
  if w.m.mem.load l1pte ≠ 0 then do
    if H.l1pte_is_sect (w.m.mem.load l1pte) then throw .bug
    let l1pte_dst := entry w.pcb.pgtable i
    let (l2pgtable_dst, m) ← w.m.memalign al (4 * TTB_L2_ENTRIES) SZ_1K
    let mem := m.mem.fill l2pgtable_dst 0 (4 * TTB_L2_ENTRIES)
    let mem := mem.store l1pte_dst l2pgtable_dst
    let mem := mem.store l1pte_dst (H.set_l1_pte_page_dcache (mem.load l1pte_dst) false)
    let l2pgtable := mem.load l1pte &&& TTB_L1_PAGE_ADDR_MASK
    forLoop 256 (duplicatePage H al cfg i l2pgtable l2pgtable_dst) { w with m := { m with mem } }
  else pure w

def duplicate_user_space (from_pgtable : Word) (w : Work) : Except Fault Work := do
  let w ← forLoop cfg.kernel (duplicateSlot H al cfg from_pgtable) w
  let m ← release_mapping H w.m w.m.current_pgtable cfg.FIXMAP_MAPPING (BitVec.ofNat 32 PAGE_SIZE)
  return { w with m }

/-! ## `setup_proc_image_replace` -/

structure ElfSection where
  name : List Byte
  sh_type : Word
  sh_addr : Word
  sh_offset : Word
  sh_size : Word

structure ElfSegment where
  p_type : Word
  p_offset : Word
  p_memsz : Word

structure ElfImage where
  e_entry : Word
  segment_page_count : Word
  segments : List ElfSegment
  sections : List ElfSection
  file_buffer : Word

/-- `preserve_args_and_env` with its `malloc` and `free`; the result is 0 for NULL. -/
def preserveArgs (m : Machine) (name : ProcName) (argc : Nat)
    (argv envp : Option (List ArgString)) : Except Fault (Word × Machine) :=
  if 0 < argc && argv.isNone then return (0, m)
  else do
    let (args, m) ← m.memalign al PAGE_SIZE 8
    let p := preserve_args_and_env m.mem args name argc argv envp
    let m := { m with mem := p.mem }
    let m ← if p.page = 0 then m.free args else pure m
    return (p.page, m)

/-- `post_setup_image` with its `free`. -/
def postSetupImage (m : Machine) (args_env : Word) : Except Fault Machine :=
  match post_setup_image (translate H m.current_pgtable) m.mem cfg.args_base args_env with
  | none => throw .dataAbort
  | some mem => { m with mem }.free args_env

/-- The pages of the new image: stack, sections, heap, and arguments. -/
def allocateImage (w : Work) (elf_img_info : ElfImage) : Except Fault Work := do
  let w ← allocateStack H al w
  let w := { w with
    pcb := { w.pcb with
      bin_image_entry := elf_img_info.e_entry
      page_count := w.pcb.page_count + elf_img_info.segment_page_count } }
  let w ← allocate_page H al w elf_img_info.e_entry elf_img_info.segment_page_count
  let page_count := pageCount cfg.HEAP_SIZE
  let heap_base := (w.pcb.page_count + 1) * BitVec.ofNat 32 PAGE_SIZE
  let w := { w with
    pcb := { w.pcb with
      heap_base
      heap_pointer := heap_base
      page_count := w.pcb.page_count + page_count } }
  let w ← allocate_page H al w heap_base page_count
  let w := { w with pcb := { w.pcb with page_count := w.pcb.page_count + 1 } }
  allocate_page H al w cfg.args_base 1

def setup_proc_image_replace (w : Work) (elf_img_info : ElfImage) (argc : Nat)
    (argv envp : Option (List ArgString)) : Except Fault (Int × Work) := do
  let (args_env, m) ← preserveArgs al w.m w.pcb.name argc argv envp
  let w := { w with m }
  -- a pointer is not less than 0
  if args_env.toNat < 0 then return (-1, w)
  else
    let w := { w with pcb := reset_process_stack cfg w.pcb }
    let m ← reset_root_pgtable H cfg.kernel w.m w.pcb.pgtable false
    let w := { w with m }.release_proc_pages
    let w ← allocateImage H al cfg w elf_img_info
    if args_env ≠ 0 then
      let m ← postSetupImage H cfg w.m args_env
      return (0, { w with m })
    else return (0, w)

/-! ## `do_execve` -/

def PT_LOAD : Word := 1
def SHT_NOBITS : Word := 8

def bytes (s : String) : List Byte := s.toList.map fun c => BitVec.ofNat 8 c.toNat

def supported_section_names : List (List Byte) :=
  [bytes ".text", bytes ".rodata", bytes ".data", bytes ".sbss", bytes ".bss", bytes ".scommon"]

/-- One section of the file, if it is part of the segment. -/
def loadSection (tr : Memory → Word → Option Word) (file_buffer : Word) (segment : ElfSegment)
    (m : Memory) (sec : ElfSection) : Option Memory :=
  let segment_end := segment.p_offset + segment.p_memsz
  let section_end := sec.sh_offset + sec.sh_size
  if sec.sh_offset < segment.p_offset ∨ segment_end < section_end then some m
  else if sec.name ∉ supported_section_names then some m
  else if sec.sh_type = SHT_NOBITS then some m
  else m.memcpy tr (fun _ => some) sec.sh_addr (file_buffer + sec.sh_offset) sec.sh_size.toNat

def load_process (tr : Memory → Word → Option Word) (m : Memory) (elf_img_info : ElfImage) :
    Option Memory :=
  elf_img_info.segments.foldlM (fun m segment =>
    if segment.p_type ≠ PT_LOAD then some m
    else elf_img_info.sections.foldlM (loadSection tr elf_img_info.file_buffer segment) m) m

/-- The functions of `elf.c`: reading and parsing a file into a buffer of the kernel, with `none`
if there is no such file, and giving the buffer back. -/
structure Elf where
  elf_load_buffer : CString → Machine → Option (ElfImage × Machine)
  elf_clean_image : ElfImage → Machine → Machine

/-- A call returns, or its thread ends in `thread_exit`. -/
inductive Outcome where
  | returns (ret : Int) (errno : Option Errno) (w : Work)
  | exits (w : Work)

/-- The call by the main thread of `w.pcb`, whose page table is the current one. -/
def do_execve (elf : Elf) (w : Work) (filename : CString) (argv envp : Option (List ArgString)) :
    Except Fault Outcome := do
  let argc := (argv.getD []).length
  match ProcName.ofString filename with
  | none => throw .overrun
  | some name =>
    let w := { w with pcb := { w.pcb with name } }
    match elf.elf_load_buffer filename w.m with
    | none => return .returns (-1) (some .ENOENT) w
    | some (elf_img_info, m) =>
      let (ret, w) ← setup_proc_image_replace H al cfg { w with m } elf_img_info argc argv envp
      if ret < 0 then return .returns ret none w
      else
        match load_process (translate H w.m.current_pgtable) w.m.mem elf_img_info with
        | none => throw .dataAbort
        | some mem =>
          let m := elf.elf_clean_image elf_img_info { w.m with mem }
          return .exits { w with m, pcb := { w.pcb with main_thread := some {} } }

end
end SyeLabs.Kernel
