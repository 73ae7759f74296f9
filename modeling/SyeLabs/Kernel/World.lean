import SyeLabs.Kernel.Exchange
import SyeLabs.Kernel.Offspring

/-!
# Processes and their page frames

The calls of the kernel that give page frames to processes and take them back, each on the state
of all processes. A call that panics or faults has no outcome.
-/

namespace SyeLabs.Kernel

open Mmu

/-- The root table of the system has no second-level table in the user area, and nothing in the
slot of the window. -/
structure SysOk (H : Header) (cfg : Config) (m : Machine) : Prop where
  tables : TablesOk H m m.sys_root_pgtable
  user : ∀ i < cfg.kernel, ¬IsTable H (l1 m.mem m.sys_root_pgtable i)
  window : l1 m.mem m.sys_root_pgtable (l1pte_index cfg.FIXMAP_MAPPING) = 0
  /-- The image of `root_proc` is a part of the image of the kernel. -/
  image : ∃ r, (.image, r) ∈ live m.trace ∧ ∀ q, cfg.InRootImage q → frameRegion q ⊆ r

/-- The processes, the machine, and the reference counts of the page frames. -/
structure World where
  procs : ProcTable
  m : Machine
  refcount : Word → Nat

namespace World

/-- A process that runs: its page table is the current one. -/
def running (s : World) (pcb : Pcb) : Work where
  pcb := pcb
  m := { s.m with current_pgtable := pcb.pgtable }
  refcount := s.refcount

/-- The state at the end of a call that has worked on one process. -/
def leave (s : World) (w : Work) : World where
  procs := s.procs.modify w.pcb.pid fun _ => w.pcb
  m := w.m
  refcount := w.refcount

/-- The caller of a system call, which has not exited. -/
def caller (s : World) (pid : Nat) : Option Pcb :=
  (s.procs.find_proc_by_pid pid).filter fun pcb => pcb.state ≠ .ZOMBIE

section
variable (H : Header) (al : Allocators) (cfg : Config)

def create_root_process (s : World) : Except Fault World := do
  let (pgtable, m) ← newImage al cfg s.m
  let (pcb, procs) := s.procs.new_process pgtable
  let w ← rootImage H al cfg { pcb, m, refcount := s.refcount }
  return { s with procs }.leave w

def do_fork (s : World) (parent : Pcb) : Except Fault World := do
  let (pgtable, m) ← newImage al cfg (s.running parent).m
  let (pcb, procs) := s.procs.new_process pgtable
  let w ← duplicate_user_space H al cfg parent.pgtable
    { pcb := pcb.inherit parent, m, refcount := s.refcount }
  match ProcName.ofString (parent.childName pcb.pid) with
  | none => throw .overrun
  | some name => return { s with procs }.leave { w with pcb := w.pcb.start name }

/-- The exchange of the image in `do_execve`, if it succeeds. -/
def exchange (s : World) (pcb : Pcb) (elf_img_info : ElfImage)
    (argv envp : Option (List ArgString)) : Except Fault World := do
  let (ret, w) ← setup_proc_image_replace H al cfg (s.running pcb) elf_img_info
    (argv.getD []).length argv envp
  if ret = 0 then return s.leave w else throw .bug

/-- The root process panics. -/
def do_exit (s : World) (pcb : Pcb) (exit_status : Word) : Except Fault World :=
  if pcb.parent = none then throw .bug
  else
    let w := (s.running { pcb with state := .ZOMBIE, exit_status }).release_proc_pages
    pure (s.leave { w with pcb := w.pcb.exit exit_status })

inductive Call where
  | create_root_process
  | do_fork (pid : Nat)
  | setup_proc_image_replace (pid : Nat) (elf_img_info : ElfImage)
    (argv envp : Option (List ArgString))
  | do_exit (pid : Nat) (exit_status : Word)

def exec (s : World) : Call → Except Fault World
  | .create_root_process => s.create_root_process H al cfg
  | .do_fork pid => do
    match s.caller pid with
    | none => throw .bug
    | some parent => s.do_fork H al cfg parent
  | .setup_proc_image_replace pid elf_img_info argv envp => do
    match s.caller pid with
    | none => throw .bug
    | some pcb => s.exchange H al cfg pcb elf_img_info argv envp
  | .do_exit pid exit_status =>
    match s.caller pid with
    | none => throw .bug
    | some pcb => s.do_exit pcb exit_status

end

/-- The entry point of an image is the start of a page. -/
def Call.Legal : Call → Prop
  | setup_proc_image_replace _ elf_img_info _ _ => 4096 ∣ elf_img_info.e_entry.toNat
  | _ => True

/-- The arguments of `exec` fit into their page, and the image meets no section. -/
def Careful (H : Header) (cfg : Config) (s : World) : Call → Prop
  | .setup_proc_image_replace pid elf_img_info argv envp => ∀ pcb, s.caller pid = some pcb →
      Fits (pageStrings pcb.name argv envp) ∧
        elf_img_info.Unsectioned H cfg s.m.mem pcb.pgtable
  | _ => True

/-- The kernel before the first process. -/
structure Booted (H : Header) (cfg : Config) (s : World) : Prop where
  proc_list : s.procs.proc_list = []
  refcount : ∀ f, s.refcount f = 0
  frames : onPool .frames s.m.trace = []
  sys : SysOk H cfg s.m

/-- The states that are reached by calls which all meet the condition `ok` in the state before. -/
inductive Reached (H : Header) (al : Allocators) (cfg : Config) (ok : World → Call → Prop) :
    World → Prop
  | boot {s : World} (h : Booted H cfg s) : Reached H al cfg ok s
  | call {s s' : World} {c : Call} (h : Reached H al cfg ok s) (hc : c.Legal) (hok : ok s c)
    (hexec : s.exec H al cfg c = .ok s') : Reached H al cfg ok s'

/-- The frames in the page lists of all processes. -/
def pages (s : World) : List Word := s.procs.proc_list.flatMap Pcb.page_list

/-- A frame is handed out and not given back. -/
def InUse (s : World) (f : Word) : Prop := (.frames, ⟨f, PAGE_SIZE⟩) ∈ live s.m.trace

/-- Every frame in use has one owner, and goes back once. -/
structure FramesOwned (H : Header) (cfg : Config) (s : World) : Prop where
  owner : ∀ f, s.InUse f → s.pages.count f = 1 ∧ s.refcount f = 1
  maps : ∀ p ∈ s.procs.proc_list, p.state ≠ .ZOMBIE →
    MapsOwn H cfg s.m.mem p.pgtable p.page_list
  balanced : ∀ f, s.m.trace.count (.alloc .frames ⟨f, PAGE_SIZE⟩) =
    s.m.trace.count (.free .frames f) + s.pages.count f
  unused : ∀ f, ¬s.InUse f → s.pages.count f = 0

end World
end SyeLabs.Kernel
