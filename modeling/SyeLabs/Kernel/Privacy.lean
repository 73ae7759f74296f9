import SyeLabs.Theory.PrivateMemory
import SyeLabs.Kernel.Cleaning
import SyeLabs.Kernel.Heap
import SyeLabs.Kernel.Tidiness

/-!
# The memories of the processes

The system that the kernel makes of one physical memory: processes with memories of their own.
Calls of the kernel and stores of programs may come in any order. Each of them is a step of the
system with private memories, and the heap of a process is always in its own frames.
-/

namespace SyeLabs.Kernel

open Mmu

variable {H : Header} {al : Allocators} {cfg : Config} {m m' : Machine} {p q : Pcb}
  {l l₁ l₂ : List Pcb} {G : List Word} {w w' : Work} {s s' : World} {mem mem' : Memory}
  {v : Word} {b : Byte} {i : Nat}

/-! ## Reading -/

/-- The memory of a process, as long as it has not exited. -/
def Pcb.memory (H : Header) (cfg : Config) (mem : Memory) (p : Pcb) : Option (Word → Option Byte) :=
  if p.state = .ZOMBIE then none else some (privateByte H cfg mem p.pgtable)

def readers (H : Header) (cfg : Config) (mem : Memory) (l : List Pcb) : Memories Nat Word Byte :=
  fun pid => (l.find? fun p => p.pid = pid).bind (Pcb.memory H cfg mem)

theorem readers_congr (hview : ∀ q ∈ l, q.memory H cfg mem' = q.memory H cfg mem) :
    readers H cfg mem' l = readers H cfg mem l := by
  funext i
  rw [readers, readers]
  cases hq : l.find? fun q => q.pid = i with
  | none => rfl
  | some q => exact hview q (List.mem_of_find?_eq_some hq)

theorem readers_eq_none {pid : Nat} (hpid : ∀ q ∈ l, q.pid ≠ pid) :
    readers H cfg mem l pid = none := by
  have hnone : l.find? (fun q => q.pid = pid) = none :=
    List.find?_eq_none.mpr fun q hq => by simpa using hpid q hq
  rw [readers, hnone, Option.bind_none]

theorem readers_cons (hpid : ∀ q ∈ l₁ ++ l₂, q.pid ≠ p.pid)
    (hview : ∀ q ∈ l₁ ++ l₂, q.memory H cfg mem' = q.memory H cfg mem) :
    readers H cfg mem' (l₁ ++ p :: l₂) =
      Function.update (readers H cfg mem (l₁ ++ l₂)) p.pid (p.memory H cfg mem') := by
  funext i
  rw [readers, List.find?_append, List.find?_cons]
  by_cases hi : i = p.pid
  · subst hi
    have hnone : l₁.find? (fun q => q.pid = p.pid) = none :=
      List.find?_eq_none.mpr fun q hq => by simpa using hpid q (List.mem_append_left _ hq)
    rw [hnone, Function.update_self]
    simp
  · have hne : decide (p.pid = i) = false := decide_eq_false (Ne.symm hi)
    rw [Function.update_of_ne hi, hne, readers, List.find?_append]
    cases hq : (l₁.find? fun q => q.pid = i).or (l₂.find? fun q => q.pid = i) with
    | none => rfl
    | some q =>
      refine hview q ?_
      rw [← List.find?_append] at hq
      exact List.mem_of_find?_eq_some hq

namespace World

def memories (H : Header) (cfg : Config) (s : World) : Memories Nat Word Byte :=
  readers H cfg s.m.mem s.procs.proc_list

/-! ## Acts -/

/-- Calls of the kernel, and what programs do by themselves. -/
inductive Act where
  | call (c : Call)
  /-- `wstatus` is any word, and 0 is NULL. -/
  | waitpid (caller : Nat) (pid : Int) (wstatus : Word) (nohang : Bool)
  | sbrk (pid : Nat) (increment : Word)
  | store (pid : Nat) (v : Word) (b : Byte)

def do_sbrk (cfg : Config) (s : World) (pcb : Pcb) (increment : Word) : World :=
  s.leave { pcb := (pcb.sbrk cfg increment).2, m := s.m, refcount := s.refcount }

/-- A store in user mode, through the table of the process. The condition on the slot stands for the
access bits of the entries: those of the kernel area are for the kernel only. -/
def store (H : Header) (cfg : Config) (s : World) (pcb : Pcb) (v : Word) (b : Byte) :
    Except Fault World :=
  if l1pte_index v < cfg.kernel then
    match translate H pcb.pgtable s.m.mem v with
    | none => throw .dataAbort
    | some x => return s.poke x b
  else throw .dataAbort

def act (H : Header) (al : Allocators) (cfg : Config) (s : World) : Act → Except Fault World
  | .call c => s.exec H al cfg c
  | .waitpid caller pid wstatus nohang =>
    match s.caller caller with
    | none => throw .bug
    | some pcb => s.do_waitpid H cfg pcb pid wstatus nohang
  | .sbrk pid increment =>
    match s.caller pid with
    | none => throw .bug
    | some pcb => return s.do_sbrk cfg pcb increment
  | .store pid v b =>
    match s.caller pid with
    | none => throw .bug
    | some pcb => s.store H cfg pcb v b

/-- The pointer is NULL, or it points to a word of the user area. The kernel does not check this. -/
def UserPointer (cfg : Config) (wstatus : Word) : Prop :=
  wstatus ≠ 0 → ∀ v ∈ (⟨wstatus, 4⟩ : Region), l1pte_index v < cfg.kernel

/-- Calls are careful, and the root process is created before all others. What programs store, and
where, is up to them. -/
def Act.Ok (H : Header) (cfg : Config) (s : World) : Act → Prop
  | .call .create_root_process => s.procs.proc_list = []
  | .call c => c.Legal ∧ Careful H cfg s c
  | .waitpid _ pid wstatus nohang => s.Cleans pid nohang ∧ UserPointer cfg wstatus
  | _ => True

end World

/-! ## What holds of every process -/

/-- The heap is in the frames of the process, as far as it is in the user area. -/
structure HeapBacked (H : Header) (cfg : Config) (mem : Memory) (p : Pcb) : Prop where
  aligned : 4096 ∣ p.heap_base.toNat
  mapped : ∀ i < (pageCount cfg.HEAP_SIZE).toInt.toNat,
    (pageAt p.heap_base i).toNat / 4096 < cfg.kernel * 256 →
      (lookup H mem p.pgtable ((pageAt p.heap_base i).toNat / 4096)).isSome
  secluded : Secluded H cfg mem p

/-- A process with pages of its own, and a heap if it has been given one. -/
structure Resident (H : Header) (cfg : Config) (mem : Memory) (p : Pcb) : Prop where
  distinct : Distinct H cfg mem p.pgtable
  brk : p.brk < cfg.HEAP_SIZE.toNat
  heap : p.heap_base ≠ 0 → HeapBacked H cfg mem p

theorem Resident.congr (R : Resident H cfg mem p)
    (hS : SameSlots H cfg.kernel p.pgtable mem mem') : Resident H cfg mem' p where
  distinct := R.distinct.congr hS
  brk := R.brk
  heap hne := by
    obtain ⟨haligned, hmapped, hsecl⟩ := R.heap hne
    refine ⟨haligned, fun i hi hlt => ?_, hsecl.congr hS⟩
    rw [← hS.lookup_eq (by omega)]
    exact hmapped i hi hlt

/-- The child has a heap where the parent has its own. -/
theorem Cloned.resident (V : Cloned H cfg G p.pgtable w w') (R : Resident H cfg w.m.mem p)
    (hbase : w'.pcb.heap_base = p.heap_base) (hpointer : w'.pcb.heap_pointer = p.heap_pointer)
    (name : ProcName) : Resident H cfg w'.m.mem (w'.pcb.start name) := by
  have hbase' : (w'.pcb.start name).heap_base = p.heap_base := hbase
  constructor
  case distinct => exact V.tenant.distinct
  case brk =>
    have hbrk : (w'.pcb.start name).brk = p.brk := by
      rw [Pcb.brk, Pcb.brk, hbase']
      exact congrArg (fun x => (x - p.heap_base).toNat) hpointer
    rw [hbrk]
    exact R.brk
  case heap =>
    intro hne
    rw [hbase'] at hne
    obtain ⟨haligned, hmapped, -⟩ := R.heap hne
    refine ⟨by rwa [hbase'], fun i hi hlt => ?_, V.secluded⟩
    rw [hbase'] at hlt ⊢
    exact (V.pages _ hlt).trans (hmapped i hi hlt)

theorem NewHeap.resident (N : NewHeap H cfg w) (T : Tenant H cfg G w)
    (hsecl : Secluded H cfg w.m.mem w.pcb) (hpos : 0 < cfg.HEAP_SIZE.toNat) :
    Resident H cfg w.m.mem w.pcb where
  distinct := T.distinct
  brk := by
    rw [Pcb.brk, N.pointer, BitVec.sub_self]
    exact hpos
  heap _ := ⟨N.aligned, fun i hi _ => N.mapped i hi, hsecl⟩

/-- What a step that spares the frames `G` is to a process with some of them. -/
theorem Home.memory_eq (h : Home H cfg m p) (hspares : Spares G m m')
    (hG : ∀ f ∈ p.page_list, f ∈ G ∧ (.frames, (⟨f, PAGE_SIZE⟩ : Region)) ∈ live m.trace)
    (himage : cfg.RootLive m) (hS : SameSlots H cfg.kernel p.pgtable m.mem m'.mem) :
    p.memory H cfg m'.mem = p.memory H cfg m.mem := by
  unfold Pcb.memory
  split
  · rfl
  · next hz =>
    refine congrArg some (privateByte_congr hS fun v hv q hq => ?_)
    rcases h.maps hz v hv q hq with hown | hroot
    · obtain ⟨hf, hlive⟩ := hG _ hown
      exact (hspares _ hlive (foreign_frame hf)).eqOn
    · obtain ⟨r, hr, hsub⟩ := himage
      exact (hspares _ hr (.inl rfl)).eqOn.mono (hsub q hroot)

namespace World

/-- One of two processes is in frames of its own only. -/
def OneSecluded (H : Header) (cfg : Config) (mem : Memory) (p q : Pcb) : Prop :=
  p.state ≠ .ZOMBIE → q.state ≠ .ZOMBIE → Secluded H cfg mem p ∨ Secluded H cfg mem q

theorem OneSecluded.symm (h : OneSecluded H cfg mem p q) : OneSecluded H cfg mem q p :=
  fun hq hp => (h hp hq).symm

/-- The root table of the system is not in the image of `root_proc`. -/
def TableOutside (cfg : Config) (m : Machine) : Prop :=
  ∀ q, cfg.InRootImage q → (rootRegion m.sys_root_pgtable).Disjoint (frameRegion q)

/-- The invariant of the system: the processes have frames of their own and live in them, with the
exception of one process that may still be in the image of `root_proc`. -/
structure Tenanted (H : Header) (cfg : Config) (s : World) : Prop extends Inv H cfg s where
  residents : ∀ p ∈ s.procs.proc_list, p.state ≠ .ZOMBIE → Resident H cfg s.m.mem p
  one : s.procs.proc_list.Pairwise (OneSecluded H cfg s.m.mem)
  /-- A process that has exited has no frames. -/
  spent : ∀ p ∈ s.procs.proc_list, p.state = .ZOMBIE → p.page_list = []
  outside : TableOutside cfg s.m

/-- What an act makes of the memories of all processes. -/
def Becomes (H : Header) (cfg : Config) (M : Memories Nat Word Byte) (s : World) : Prop :=
  Tenanted H cfg s ∧ s.memories H cfg = M

theorem Inv.frame_live (I : Inv H cfg s) (hp : p ∈ s.procs.proc_list) {f : Word}
    (hf : f ∈ p.page_list) : (.frames, (⟨f, PAGE_SIZE⟩ : Region)) ∈ live s.m.trace :=
  I.frames.mem_live.mpr (List.mem_flatMap.mpr ⟨p, hp, hf⟩)

theorem Inv.rootLive (I : Inv H cfg s) : cfg.RootLive s.m := I.kin.sys.image

/-- The pid of a process in the list is that of no other. -/
theorem Inv.pid_unique (I : Inv H cfg s) (hl : s.procs.proc_list = l₁ ++ p :: l₂)
    (hq : q ∈ l₁ ++ l₂) : q.pid ≠ p.pid := by
  have K := I.kin
  rw [hl] at K
  exact ((K.perm List.perm_middle).head q hq).pid.symm

theorem Inv.pids_nodup (I : Inv H cfg s) : (s.procs.proc_list.map Pcb.pid).Nodup :=
  List.pairwise_map.mpr (I.kin.strangers.imp Strangers.pid)

theorem Inv.pid_injective (I : Inv H cfg s) (hp : p ∈ s.procs.proc_list)
    (hq : q ∈ s.procs.proc_list) (h : p.pid = q.pid) : p = q :=
  List.inj_on_of_nodup_map I.pids_nodup hp hq h

theorem leave_proc_list (hl : s.procs.proc_list = l₁ ++ p :: l₂) (hpid : w.pcb.pid = p.pid)
    (hne : ∀ q ∈ l₁ ++ l₂, q.pid ≠ p.pid) :
    (s.leave w).procs.proc_list = l₁ ++ w.pcb :: l₂ := by
  have hother : ∀ l ⊆ l₁ ++ l₂, (l.map fun q => if q.pid = w.pcb.pid then w.pcb else q) = l := by
    intro l hsub
    refine (List.map_congr_left fun q hq => ?_).trans (List.map_id l)
    exact if_neg (hpid ▸ hne q (hsub hq))
  change s.procs.proc_list.map (fun q => if q.pid = w.pcb.pid then w.pcb else q) = _
  rw [hl, List.map_append, List.map_cons, if_pos hpid.symm, hother l₁ (List.subset_append_left _ _),
    hother l₂ (List.subset_append_right _ _)]

theorem memories_eq (hl : s.procs.proc_list = l₁ ++ p :: l₂)
    (hne : ∀ q ∈ l₁ ++ l₂, q.pid ≠ p.pid) :
    s.memories H cfg = Function.update (readers H cfg s.m.mem (l₁ ++ l₂)) p.pid
      (p.memory H cfg s.m.mem) := by
  rw [memories, hl]
  exact readers_cons hne fun _ _ => rfl

theorem Inv.memories_running (I : Inv H cfg s) (hp : p ∈ s.procs.proc_list)
    (hz : p.state ≠ .ZOMBIE) :
    s.memories H cfg p.pid = some (privateByte H cfg s.m.mem p.pgtable) := by
  obtain ⟨l₁, l₂, hl⟩ := List.append_of_mem hp
  rw [memories_eq hl fun q hq => I.pid_unique hl hq, Function.update_self]
  exact if_neg hz

theorem Inv.memories_fresh (I : Inv H cfg s) : s.memories H cfg s.procs.pid_current = none :=
  readers_eq_none fun q hq => (I.fresh q hq).ne

/-- The process of a call is back in the list; the others have not noticed. -/
theorem Tenanted.leave (I : Tenanted H cfg s) (hl : s.procs.proc_list = l₁ ++ p :: l₂)
    (hpid : w.pcb.pid = p.pid) (I' : Inv H cfg (s.leave w))
    (hS : ∀ q ∈ l₁ ++ l₂, SameSlots H cfg.kernel q.pgtable s.m.mem w.m.mem)
    (hspares : Spares ((l₁ ++ l₂).flatMap Pcb.page_list) s.m w.m)
    (hroot : w.m.sys_root_pgtable = s.m.sys_root_pgtable)
    (hw : w.pcb.state ≠ .ZOMBIE → Resident H cfg w.m.mem w.pcb)
    (hone : w.pcb.state ≠ .ZOMBIE →
      p.state ≠ .ZOMBIE ∧ (Secluded H cfg s.m.mem p → Secluded H cfg w.m.mem w.pcb))
    (hspent : w.pcb.state = .ZOMBIE → w.pcb.page_list = []) :
    Becomes H cfg (Function.update (s.memories H cfg) p.pid (w.pcb.memory H cfg w.m.mem))
      (s.leave w) := by
  have hne : ∀ q ∈ l₁ ++ l₂, q.pid ≠ p.pid := fun q hq => I.pid_unique hl hq
  have hlist := leave_proc_list hl hpid hne
  have hperm : (l₁ ++ p :: l₂).Perm (p :: (l₁ ++ l₂)) := List.perm_middle
  have hmem : ∀ q ∈ l₁ ++ l₂, q ∈ s.procs.proc_list := by
    intro q hq
    rw [hl]
    exact hperm.mem_iff.mpr (List.mem_cons_of_mem _ hq)
  have hview : ∀ q ∈ l₁ ++ l₂, q.memory H cfg w.m.mem = q.memory H cfg s.m.mem := fun q hq =>
    (I.kin.homes q (hmem q hq)).memory_eq hspares
      (fun f hf => ⟨List.mem_flatMap.mpr ⟨q, hq, hf⟩, I.frame_live (hmem q hq) hf⟩) I.rootLive
      (hS q hq)
  refine ⟨⟨I', fun q hq hz => ?_, ?_, fun q hq hz => ?_, ?_⟩, ?_⟩
  · rw [hlist] at hq
    rcases List.mem_cons.mp (List.perm_middle.mem_iff.mp hq) with rfl | hq
    · exact hw hz
    · exact (I.residents q (hmem q hq) hz).congr (hS q hq)
  · have hold := I.one
    rw [hl] at hold
    obtain ⟨hhead, htail⟩ := List.pairwise_cons.mp ((hperm.pairwise_iff OneSecluded.symm).mp hold)
    rw [hlist]
    refine (List.perm_middle.pairwise_iff OneSecluded.symm).mpr (List.pairwise_cons.mpr ⟨?_, ?_⟩)
    · intro q hq hz hzq
      obtain ⟨hzp, hsecl⟩ := hone hz
      exact (hhead q hq hzp hzq).imp hsecl fun h => h.congr (hS q hq)
    · exact htail.imp_of_mem fun hq hr h hzq hzr =>
        (h hzq hzr).imp (fun h => h.congr (hS _ hq)) fun h => h.congr (hS _ hr)
  · rw [hlist] at hq
    rcases List.mem_cons.mp (List.perm_middle.mem_iff.mp hq) with rfl | hq
    · exact hspent hz
    · exact I.spent q (hmem q hq) hz
  · intro q hq
    change (rootRegion w.m.sys_root_pgtable).Disjoint _
    rw [hroot]
    exact I.outside q hq
  · rw [memories, hlist, memories_eq hl hne, Function.update_idem, ← hpid]
    rw [← hpid] at hne
    exact readers_cons hne hview

/-- A new process has been put into the list. -/
def entered (s : World) (p : Pcb) : World where
  procs :=
    { proc_list := s.procs.proc_list ++ [p]
      pid_current := s.procs.pid_current + 1 }
  m := s.m
  refcount := s.refcount

/-- A new process is at the end of the list; the others have not noticed. -/
theorem Tenanted.enter (I : Tenanted H cfg s) (hp : p.pid = s.procs.pid_current)
    (hpid : w.pcb.pid = p.pid) (hs' : s' = (s.entered p).leave w) (I' : Inv H cfg s')
    (hS : ∀ q ∈ s.procs.proc_list, SameSlots H cfg.kernel q.pgtable s.m.mem w.m.mem)
    (hspares : Spares s.pages s.m w.m) (hroot : w.m.sys_root_pgtable = s.m.sys_root_pgtable)
    (hw : Resident H cfg w.m.mem w.pcb) (hrun : w.pcb.state ≠ .ZOMBIE)
    (hone : ∀ q ∈ s.procs.proc_list, Secluded H cfg w.m.mem w.pcb) :
    Becomes H cfg
      (Function.update (s.memories H cfg) s.procs.pid_current (w.pcb.memory H cfg w.m.mem)) s' := by
  subst hs'
  have hne : ∀ q ∈ s.procs.proc_list ++ [], q.pid ≠ p.pid := by
    intro q hq
    rw [List.append_nil] at hq
    exact (I.pid_ne hp hq).symm
  have hl : (s.entered p).procs.proc_list = s.procs.proc_list ++ p :: [] := rfl
  have hlist := leave_proc_list hl hpid hne
  have hview : ∀ q ∈ s.procs.proc_list, q.memory H cfg w.m.mem = q.memory H cfg s.m.mem :=
    fun q hq => (I.kin.homes q hq).memory_eq hspares
      (fun f hf => ⟨List.mem_flatMap.mpr ⟨q, hq, hf⟩, I.frame_live hq hf⟩) I.rootLive (hS q hq)
  refine ⟨⟨I', fun q hq hz => ?_, ?_, fun q hq hz => ?_, ?_⟩, ?_⟩
  · rw [hlist] at hq
    rcases List.mem_append.mp hq with hq | hq
    · exact (I.residents q hq hz).congr (hS q hq)
    · rw [List.mem_singleton.mp hq]
      exact hw
  · rw [hlist, List.pairwise_append]
    refine ⟨?_, List.pairwise_singleton _ _, fun q hq r hr _ _ => .inr ?_⟩
    · exact I.one.imp_of_mem fun hq hr h hzq hzr =>
        (h hzq hzr).imp (fun h => h.congr (hS _ hq)) fun h => h.congr (hS _ hr)
    · rw [List.mem_singleton.mp hr]
      exact hone q hq
  · rw [hlist] at hq
    rcases List.mem_append.mp hq with hq | hq
    · exact I.spent q hq hz
    · exact absurd (List.mem_singleton.mp hq ▸ hz) hrun
  · intro q hq
    change (rootRegion w.m.sys_root_pgtable).Disjoint _
    rw [hroot]
    exact I.outside q hq
  · rw [memories, hlist, ← hp, ← hpid]
    rw [← hpid, List.append_nil] at hne
    refine (readers_cons (by rwa [List.append_nil]) fun q hq => hview q ?_).trans ?_
    · rwa [List.append_nil] at hq
    · rw [List.append_nil]
      rfl

/-! ## Calls -/

/-- The caller, as a process in its pages; the frames of the others are to be spared. -/
theorem Tenanted.tenant (I : Tenanted H cfg s) (hn : cfg.kernel ≤ 4096)
    (hl : s.procs.proc_list = l₁ ++ p :: l₂) (hz : p.state ≠ .ZOMBIE) :
    Tenant H cfg ((l₁ ++ l₂).flatMap Pcb.page_list) (s.running p) := by
  obtain ⟨K, L⟩ := I.running hn hl
  have hhome := K.homes p List.mem_cons_self
  have hp : p ∈ s.procs.proc_list := by
    rw [hl]
    exact List.mem_append_right _ List.mem_cons_self
  exact ⟨⟨hhome.toTree, hhome.maps hz, L⟩, hhome.root, I.rootLive, (I.residents p hp hz).distinct⟩

/-- The trees of the others after a step on the tree of the caller. -/
theorem Inv.sameSlots_others (I : Inv H cfg s) (hn : cfg.kernel ≤ 4096)
    (hl : s.procs.proc_list = l₁ ++ p :: l₂)
    (C : Confined H cfg.OwnSlot p.pgtable (s.running p).m m') (hq : q ∈ l₁ ++ l₂) :
    SameSlots H cfg.kernel q.pgtable s.m.mem m'.mem :=
  (C.beside _ ((I.running hn hl).1.head q hq).left).2.sameSlots hn fun _ => Or.inl

theorem exchange_becomes (hcfg : cfg.AreaOk) (hpos : 0 < cfg.HEAP_SIZE.toNat)
    (I : Tenanted H cfg s) (hp : p ∈ s.procs.proc_list) (hz : p.state ≠ .ZOMBIE)
    {elf_img_info : ElfImage} {argv envp : Option (List ArgString)}
    (hentry : 4096 ∣ elf_img_info.e_entry.toNat) (hfit : Fits (pageStrings p.name argv envp))
    (hs : elf_img_info.Unsectioned H cfg s.m.mem p.pgtable) :
    wp (s.exchange H al cfg p elf_img_info argv envp)
      (fun s' => ∃ f, Becomes H cfg (Function.update (s.memories H cfg) p.pid (some f)) s')
      (fun _ => True) := by
  obtain ⟨l₁, l₂, hl⟩ := List.append_of_mem hp
  have hn := hcfg.kernel_le
  have T := I.tenant hn hl hz
  refine wp.imp (exchange_inv hcfg I.toInv hp hz hentry hfit hs) ?_
  unfold exchange
  refine wp.bind (((setup_proc_image_replace_spec hcfg T.toSpace rfl hentry hs hfit).and
    (setup_proc_image_replace_moved hcfg T rfl hentry hs hfit)).weaken fun _ _ => trivial) ?_
  rintro ⟨ret, w⟩ ⟨⟨rfl, E, hsame⟩, V⟩
  refine wp_pure.mpr fun I' => ⟨privateByte H cfg w.m.mem w.pcb.pgtable, ?_⟩
  have hrun : w.pcb.state ≠ .ZOMBIE := by
    rw [hsame.state]
    exact hz
  have h := I.leave hl hsame.pid I' (fun q hq => I.sameSlots_others hn hl E.confined hq) V.spares
    E.confined.sys_root (fun _ => V.heap.resident V.tenant V.secluded hpos)
    (fun _ => ⟨hz, fun _ => V.secluded⟩) fun h => absurd h hrun
  rwa [Pcb.memory, if_neg hrun] at h

theorem do_exit_becomes (hn : cfg.kernel ≤ 4096) (I : Tenanted H cfg s)
    (hp : p ∈ s.procs.proc_list) (exit_status : Word) :
    wp (s.do_exit p exit_status)
      (Becomes H cfg (Function.update (s.memories H cfg) p.pid none)) (fun _ => True) := by
  obtain ⟨l₁, l₂, hl⟩ := List.append_of_mem hp
  obtain ⟨K, L⟩ := I.running hn hl
  have hhome := K.homes p List.mem_cons_self
  refine wp.imp (do_exit_inv hn I.toInv hp exit_status) ?_
  unfold do_exit
  split
  · exact wp_throw.mpr trivial
  · obtain ⟨R, hpcb⟩ := release_proc_pages_spec
      (w := s.running { p with state := .ZOMBIE, exit_status }) hhome.tables.blocks L
    rw [wp_pure]
    generalize Work.release_proc_pages (s.running { p with state := .ZOMBIE, exit_status }) = w
      at R hpcb
    intro I'
    have C : Confined H cfg.OwnSlot p.pgtable (s.running p).m w.m := R.quiet.confined hhome.tables
    exact I.leave (w := { w with pcb := w.pcb.exit exit_status }) hl (by rw [hpcb]; rfl) I'
      (fun q hq => I.sameSlots_others hn hl C hq) R.spares C.sys_root (fun h => absurd rfl h)
      (fun h => absurd rfl h) fun _ => rfl

/-- A new process, with nothing in its user area. -/
theorem Inv.newcomer {pgtable : Word} (I : Inv H cfg s) (hcfg : cfg.AreaOk)
    (N : NewTree cfg.kernel s.m pgtable m) : Tenant H cfg s.pages
      { pcb := { pid := s.procs.pid_current, pgtable }, m, refcount := s.refcount } ∧
    Secluded H cfg m.mem { pid := s.procs.pid_current, pgtable } := by
  have hn := hcfg.kernel_le
  have hempty := NewTree.empty N hn
  have hspares : Spares s.pages s.m m := Spares.newTree N
  have hnone : ∀ v < cfg.kernel * 256, lookup H m.mem pgtable v = none := fun v hv => by
    rw [lookup, hempty _ (by omega), if_pos rfl]
  refine ⟨⟨Space.empty N.ne_zero (N.tables I.kin.sys.tables) hempty
    (NewTree.window N I.kin.sys hcfg.toFixmapOk) rfl (I.frames.congr (NewTree.frames N)),
    N.root_live, hspares.rootLive I.rootLive, fun v hv _ _ _ hq => ?_⟩, fun v hv q hq => ?_⟩
  · cases (hnone v hv).symm.trans hq
  · cases (hnone v hv).symm.trans hq

theorem create_root_process_becomes (hcfg : cfg.RootOk) (hpos : 0 < cfg.HEAP_SIZE.toNat)
    (I : Tenanted H cfg s) (hfirst : s.procs.proc_list = []) :
    wp (s.create_root_process H al cfg)
      (fun s' => ∃ f,
        Becomes H cfg (Function.update (s.memories H cfg) s.procs.pid_current (some f)) s')
      (fun _ => True) := by
  have hn := hcfg.area.kernel_le
  have hsys := I.kin.sys
  obtain ⟨pool, hroot⟩ := hsys.tables.root_live
  refine wp.imp (create_root_process_inv hcfg I.toInv) ?_
  unfold create_root_process
  refine wp.bind ((newImage_spec hsys.tables.blocks hn hroot).weaken fun _ _ => trivial) ?_
  rintro ⟨pgtable, m1⟩ N
  have hspares : Spares s.pages s.m m1 := Spares.newTree N
  obtain ⟨T, hsecl⟩ := I.newcomer hcfg.area N
  simp only [ProcTable.new_process]
  refine wp.bind (((rootImage_spec hcfg T.toSpace).and
    (rootImage_settler hcfg T hsecl)).weaken fun _ _ => trivial) ?_
  rintro w ⟨⟨E, hpid, htable, hready⟩, V⟩
  refine wp_pure.mpr fun I' => ⟨privateByte H cfg w.m.mem w.pcb.pgtable, ?_⟩
  have hslots : ∀ q ∈ s.procs.proc_list, SameSlots H cfg.kernel q.pgtable s.m.mem w.m.mem := by
    intro q hq
    have hstays : Stays H cfg.OwnSlot q.pgtable s.m.mem m1.mem :=
      NewTree.stays N (I.kin.homes q hq).tables
    exact (hstays.trans (E.confined.beside _ (NewTree.beside_proc N I.kin hq)).2).sameSlots hn
      fun _ => Or.inl
  have hres : Resident H cfg w.m.mem w.pcb := by
    refine ⟨V.tenant.distinct, ?_, fun h => absurd V.heap_base h⟩
    rw [Pcb.brk, V.heap_base, V.heap_pointer, BitVec.sub_self]
    exact hpos
  have hrun : w.pcb.state ≠ .ZOMBIE := by
    rw [hready]
    decide
  have h := I.enter (p := { pid := s.procs.pid_current, pgtable }) rfl hpid rfl I' hslots
    (hspares.trans V.spares) (E.confined.sys_root.trans N.sys_root) hres hrun fun q hq => by
      rw [hfirst] at hq
      exact absurd hq List.not_mem_nil
  rwa [Pcb.memory, if_neg hrun] at h

/-- What the child has after the copy. -/
theorem Forking.cloned {root : Word} (F : Forking H cfg s p l root m) (hfix : cfg.FixmapOk)
    (himage : cfg.RootLive m) {w₀ : Work} (hroot : w₀.pcb.pgtable = root) (hm : w₀.m = m)
    (hcount : w₀.refcount = s.refcount) (hpages : w₀.pcb.page_list = []) :
    wp (duplicate_user_space H al cfg p.pgtable w₀) (Cloned H cfg s.pages p.pgtable w₀)
      (fun _ => True) := by
  subst hroot hm
  have hframes : FramesOk s.pages w₀.m w₀.refcount := hcount ▸ F.frames
  exact (duplicate_user_space_cloned hfix F.parent F.child F.newTree.ne_zero hpages F.window
    F.beside hframes himage).weaken fun _ _ => trivial

theorem do_fork_becomes (hcfg : cfg.AreaOk) (I : Tenanted H cfg s)
    (hp : p ∈ s.procs.proc_list) (hz : p.state ≠ .ZOMBIE) :
    wp (s.do_fork H al cfg p)
      (Becomes H cfg (Function.update (s.memories H cfg) s.procs.pid_current
        (some (privateByte H cfg s.m.mem p.pgtable)))) (fun _ => True) := by
  obtain ⟨l₁, l₂, hl⟩ := List.append_of_mem hp
  have hn := hcfg.kernel_le
  refine wp.imp (do_fork_inv hcfg I.toInv hp hz) ?_
  unfold do_fork
  refine wp.bind (I.forking hcfg hl hz) ?_
  rintro ⟨pgtable, m1⟩ F
  have N := F.newTree
  have hspares : Spares s.pages s.m m1 := Spares.newTree (m := (s.running p).m) N
  simp only [ProcTable.new_process]
  have himage := hspares.rootLive I.rootLive
  refine wp.bind (wp.and (F.offspring hcfg.toFixmapOk rfl rfl rfl rfl)
    (F.cloned hcfg.toFixmapOk himage rfl rfl rfl rfl)) ?_
  rintro w ⟨O, V⟩
  split
  · exact wp_throw.mpr trivial
  · next name _ =>
    refine wp_pure.mpr fun I' => ?_
    obtain ⟨frames, hpcb⟩ := O.pcb
    have hin : ∀ q ∈ s.procs.proc_list, q ∈ p :: (l₁ ++ l₂) := by
      intro q hq
      rw [hl] at hq
      exact List.perm_middle.mem_iff.mp hq
    have hslots := fun q hq => Forking.copied O F hn (hin q hq)
    -- the parent, before and after its table has been copied
    have hview : privateByte H cfg m1.mem p.pgtable = privateByte H cfg s.m.mem p.pgtable := by
      have hmemory := (I.kin.homes p hp).memory_eq hspares
        (fun f hf => ⟨List.mem_flatMap.mpr ⟨p, hp, hf⟩, I.frame_live hp hf⟩) I.rootLive
        (F.sameSlots hn List.mem_cons_self)
      rw [Pcb.memory, Pcb.memory, if_neg hz, if_neg hz] at hmemory
      exact Option.some.inj hmemory
    have hR := (I.residents p hp hz).congr (F.sameSlots hn List.mem_cons_self)
    have hres := V.resident hR (by rw [hpcb]; rfl) (by rw [hpcb]; rfl) name
    have h := I.enter (p := { pid := s.procs.pid_current, pgtable })
      (w := { w with pcb := w.pcb.start name }) rfl (by rw [hpcb]; rfl) rfl I' hslots
      (hspares.trans V.spares) (O.sys_root.trans N.sys_root) hres ProcState.noConfusion
      fun _ _ => V.secluded
    have hmemory : (w.pcb.start name).memory H cfg w.m.mem =
        some (privateByte H cfg s.m.mem p.pgtable) := by
      rw [← hview, ← V.view]
      rfl
    rwa [hmemory] at h

/-- A zombie is gone with its tree. -/
theorem Tenanted.cleaned (I : Tenanted H cfg s) (hl : s.procs.proc_list = l₁ ++ p :: l₂)
    (hz : p.state = .ZOMBIE)
    (C : Cleaned H cfg ((l₁ ++ l₂).flatMap Pcb.page_list) (l₁ ++ l₂) s.m m') :
    Becomes H cfg (s.memories H cfg)
      { s with procs := { s.procs with proc_list := l₁ ++ l₂ }, m := m' } := by
  have hne : ∀ q ∈ l₁ ++ l₂, q.pid ≠ p.pid := fun q hq => I.pid_unique hl hq
  have hperm : (l₁ ++ p :: l₂).Perm (p :: (l₁ ++ l₂)) := List.perm_middle
  have hmem : ∀ q ∈ l₁ ++ l₂, q ∈ s.procs.proc_list := by
    intro q hq
    rw [hl]
    exact hperm.mem_iff.mpr (List.mem_cons_of_mem _ hq)
  have hp : p ∈ s.procs.proc_list := by
    rw [hl]
    exact List.mem_append_right _ List.mem_cons_self
  have hpages := I.spent p hp hz
  have L := I.frames
  rw [pages, hl] at L
  have L' := Ledger.perm L (hperm.flatMap_right _)
  rw [List.flatMap_cons, hpages, List.nil_append] at L'
  have hone := I.one
  rw [hl] at hone
  have htail := (List.pairwise_cons.mp ((hperm.pairwise_iff OneSecluded.symm).mp hone)).2
  refine ⟨⟨⟨C.kin, fun q hq => I.fresh q (hmem q hq), FramesOk.congr L' C.frames⟩,
    fun q hq hzq => (I.residents q (hmem q hq) hzq).congr (C.slots q hq), ?_,
    fun q hq => I.spent q (hmem q hq), ?_⟩, ?_⟩
  · exact htail.imp_of_mem fun hq hr h hzq hzr =>
      (h hzq hzr).imp (fun h => h.congr (C.slots _ hq)) fun h => h.congr (C.slots _ hr)
  · intro q hq
    change (rootRegion m'.sys_root_pgtable).Disjoint _
    rw [C.sys_root]
    exact I.outside q hq
  · have hview : ∀ q ∈ l₁ ++ l₂, q.memory H cfg m'.mem = q.memory H cfg s.m.mem := fun q hq =>
      (I.kin.homes q (hmem q hq)).memory_eq C.spares
        (fun f hf => ⟨List.mem_flatMap.mpr ⟨q, hq, hf⟩, I.frame_live (hmem q hq) hf⟩) I.rootLive
        (C.slots q hq)
    have hnone : p.memory H cfg s.m.mem = readers H cfg s.m.mem (l₁ ++ l₂) p.pid := by
      rw [readers_eq_none hne, Pcb.memory, if_pos hz]
    rw [memories_eq hl hne, hnone, Function.update_eq_self]
    exact readers_congr hview

theorem Reaped.becomes (hn : cfg.kernel ≤ 4096) (I : Tenanted H cfg s) (R : Reaped H cfg s s') :
    Becomes H cfg (s.memories H cfg) s' := by
  obtain ⟨l₁, p, l₂, m', hl, hz, hreset, rfl⟩ := R
  have K := I.kin
  rw [hl] at K
  exact I.cleaned hl hz ((reset_root_pgtable_cleaned (K.perm List.perm_middle) hn).of_ok hreset)

/-! ## What programs do -/

/-- Another place for the break. -/
theorem Inv.setBreak (I : Inv H cfg s) (hl : s.procs.proc_list = l₁ ++ p :: l₂)
    (heap_pointer : Word) :
    Inv H cfg (s.leave { pcb := { p with heap_pointer }, m := s.m, refcount := s.refcount }) := by
  have K := I.kin
  have L := I.frames
  rw [pages, hl] at L
  rw [hl] at K
  have K' := K.perm List.perm_middle
  have h := K'.homes p List.mem_cons_self
  refine Inv.leave (p := p) hl rfl I.fresh (K'.tail.cons ⟨h.toTree, h.root, h.maps, h.mapped⟩
    (fun q hq => (K'.head q hq).pid) (fun q hq => (K'.head q hq).left)
    (K'.beside p List.mem_cons_self)) ?_
  exact Ledger.perm L (List.perm_middle.flatMap_right _)

theorem sbrk_eq (cfg : Config) (p : Pcb) (increment : Word) :
    ∃ heap_pointer, (p.sbrk cfg increment).2 = { p with heap_pointer } := by
  simp only [Pcb.sbrk]
  split_ifs
  · exact ⟨p.heap_pointer, rfl⟩
  · exact ⟨p.heap_pointer + increment, rfl⟩

theorem do_sbrk_becomes (hsize : cfg.HEAP_SIZE.toNat < 2 ^ 30) (I : Tenanted H cfg s)
    (hp : p ∈ s.procs.proc_list) (hz : p.state ≠ .ZOMBIE) (increment : Word) :
    Becomes H cfg (s.memories H cfg) (s.do_sbrk cfg p increment) := by
  obtain ⟨l₁, l₂, hl⟩ := List.append_of_mem hp
  have R := I.residents p hp hz
  obtain ⟨hpointer, heq⟩ := sbrk_eq cfg p increment
  have hbrk := (Pcb.sbrk_spec hsize R.brk increment).2.2
  rw [heq] at hbrk
  rw [do_sbrk, heq]
  have h := I.leave hl rfl (I.toInv.setBreak hl hpointer) (fun _ _ => SameSlots.refl _)
    (Spares.refl s.m) rfl (fun _ => ⟨R.distinct, hbrk, fun hne => ?_⟩)
    (fun _ => ⟨hz, fun h => h⟩) fun h => absurd h hz
  · have hmemory : ({ p with heap_pointer := hpointer } : Pcb).memory H cfg s.m.mem =
        s.memories H cfg p.pid := by
      rw [I.memories_running hp hz]
      exact if_neg hz
    rwa [hmemory, Function.update_eq_self] at h
  · obtain ⟨haligned, hmapped, hsecl⟩ := R.heap hne
    exact ⟨haligned, hmapped, hsecl⟩

theorem eqOn_update {x : Word} {r : Region} (hx : x ∉ r) (b : Byte) :
    mem.EqOn (Function.update mem x b) r := by
  intro y hy
  have hne : y ≠ x := fun h => hx (h ▸ hy)
  rw [Function.update_of_ne hne]

/-- A write outside of the heap and of the root table is no write to the tree. -/
theorem kept_update {root x : Word} {pool : Pool} {r : Region} (T : TablesOk H m root)
    (hr : (pool, r) ∈ live m.trace) (hpool : pool ≠ .heap) (hx : x ∈ r)
    (hroot : x ∉ rootRegion root) (b : Byte) :
    Kept H cfg m { m with mem := Function.update m.mem x b } root where
  tables := T.congr (eqOn_update hroot b) (fun _ h => h) T.blocks
  stays := Stays.of_eqOn (eqOn_update hroot b) fun i hi _ ht => eqOn_update (fun hmem =>
    hpool (congrArg Prod.fst (T.blocks.eq_of_mem hr (T.table_live i hi ht) hx hmem))) b

theorem byteIn_notMem {q f : Nat} (hq : q < 2 ^ 20) (hf : f < 2 ^ 20) (hne : f ≠ q) (v : Word) :
    byteIn q v ∉ frameRegion f := by
  intro h
  rw [Region.mem_def, byteIn, frameRegion, frameAt, BitVec.toNat_sub, BitVec.toNat_ofNat,
    BitVec.toNat_ofNat] at h
  change _ < 4096 at h
  omega

/-- A frame of one process is none of another one. -/
theorem frame_apart (I : Inv H cfg s) (hn : cfg.kernel ≤ 4096) (hp : p ∈ s.procs.proc_list)
    (hq : q ∈ s.procs.proc_list) (hne : p.pid ≠ q.pid) {f : Word} (hf : f ∈ p.page_list) :
    f ∉ q.page_list := by
  obtain ⟨l₁, l₂, hl⟩ := List.append_of_mem hp
  intro hfq
  have hother : q ∈ l₁ ++ l₂ := by
    rw [hl] at hq
    exact (List.mem_cons.mp (List.perm_middle.mem_iff.mp hq)).resolve_left
      fun h => hne (congrArg Pcb.pid h.symm)
  exact (List.nodup_append.mp (I.running hn hl).2.nodup).2.2 f hf f
    (List.mem_flatMap.mpr ⟨q, hother, hfq⟩) rfl

/-- Two processes are not mapped to one frame. -/
theorem Tenanted.apart (I : Tenanted H cfg s) (hn : cfg.kernel ≤ 4096)
    (hp : p ∈ s.procs.proc_list) (hq : q ∈ s.procs.proc_list) (hne : p.pid ≠ q.pid)
    (hz : p.state ≠ .ZOMBIE) (hzq : q.state ≠ .ZOMBIE) {i k f : Nat} (hi : i < cfg.kernel * 256)
    (hk : k < cfg.kernel * 256) (hpf : lookup H s.m.mem p.pgtable i = some f) :
    lookup H s.m.mem q.pgtable k ≠ some f := by
  intro hqf
  have himage : ∀ {p}, p ∈ s.procs.proc_list → frameAt f ∈ p.page_list → ¬cfg.InRootImage f :=
    fun hp hown => I.rootLive.not_inRootImage (I.kin.homes _ hp).tables.blocks
      (I.frame_live hp hown)
  have hmaps := (I.kin.homes p hp).maps hz i hi f hpf
  have hmapsq := (I.kin.homes q hq).maps hzq k hk f hqf
  have : Std.Symm (OneSecluded H cfg s.m.mem) := ⟨fun _ _ h => h.symm⟩
  have hpq : p ≠ q := fun h => hne (congrArg Pcb.pid h)
  rcases I.one.forall hp hq hpq hz hzq with hsecl | hsecl
  · have hown := hsecl i hi f hpf
    rcases hmapsq with hownq | himageq
    · exact frame_apart I.toInv hn hp hq hne hown hownq
    · exact himage hp hown himageq
  · have hown := hsecl k hk f hqf
    rcases hmaps with hownp | himagep
    · exact frame_apart I.toInv hn hp hq hne hownp hown
    · exact himage hq hown himagep

/-- A program writes to a page of its own: no other byte of its memory changes. -/
theorem privateByte_update {root : Word} {q : Nat} (hv : l1pte_index v < cfg.kernel)
    (hq : lookup H mem root (v.toNat / 4096) = some q) (hD : Distinct H cfg mem root)
    (hS : SameSlots H cfg.kernel root mem (Function.update mem (byteIn q v) b)) :
    privateByte H cfg (Function.update mem (byteIn q v) b) root =
      Function.update (privateByte H cfg mem root) v (some b) := by
  have hpage := page_l1 v
  funext u
  by_cases hu : l1pte_index u < cfg.kernel
  · have hpage' := page_l1 u
    rw [privateByte_eq hu, ← hS.lookup_eq (by omega)]
    by_cases huv : u = v
    · subst huv
      rw [hq, Option.map_some, Function.update_self, Function.update_self]
    · rw [Function.update_of_ne huv, privateByte_eq hu]
      cases hq' : lookup H mem root (u.toNat / 4096) with
      | none => rfl
      | some q' =>
        rw [Option.map_some, Option.map_some, Function.update_of_ne]
        intro heq
        obtain ⟨rfl, hoff⟩ := byteIn_inj (lookup_lt hq') (lookup_lt hq) heq
        have hsame := hD _ (by omega) _ (by omega) _ hq' hq
        exact huv (BitVec.eq_of_toNat_eq (by omega))
  · have hne : u ≠ v := fun h => hu (h.symm ▸ hv)
    rw [Function.update_of_ne hne, privateByte, privateByte, if_neg hu, if_neg hu]

/-- The pages of a process are outside of the heap. -/
theorem Inv.place (I : Inv H cfg s) (hp : p ∈ s.procs.proc_list) (hz : p.state ≠ .ZOMBIE)
    {f : Nat} (hi : i < cfg.kernel * 256) (hf : lookup H s.m.mem p.pgtable i = some f) :
    ∃ pool r, (pool, r) ∈ live s.m.trace ∧ pool ≠ .heap ∧ frameRegion f ⊆ r := by
  rcases (I.kin.homes p hp).maps hz i hi f hf with hown | himage
  · exact ⟨.frames, _, I.frame_live hp hown, nofun, fun _ h => h⟩
  · obtain ⟨r, hr, hsub⟩ := I.rootLive
    exact ⟨.image, r, hr, nofun, hsub f himage⟩

theorem Tenanted.notMem_sys (I : Tenanted H cfg s) (hp : p ∈ s.procs.proc_list)
    (hz : p.state ≠ .ZOMBIE) {f : Nat} (hi : i < cfg.kernel * 256)
    (hf : lookup H s.m.mem p.pgtable i = some f) {x : Word} (hx : x ∈ frameRegion f) :
    x ∉ rootRegion s.m.sys_root_pgtable := by
  intro hmem
  rcases (I.kin.homes p hp).maps hz i hi f hf with hown | himage
  · obtain ⟨pool, hroot⟩ := I.kin.sys.tables.root_live
    have hsame := I.kin.sys.tables.blocks.eq_of_mem hroot (I.frame_live hp hown) hmem hx
    exact absurd (congrArg (fun b => b.2.size) hsame) (show 16384 ≠ 4096 by decide)
  · exact I.outside f himage x hmem hx

/-- A store to a page does not go to a tree. -/
theorem Tenanted.poke_kept {f : Nat} (I : Tenanted H cfg s) (hp : p ∈ s.procs.proc_list)
    (hz : p.state ≠ .ZOMBIE) (hv : l1pte_index v < cfg.kernel)
    (hf : lookup H s.m.mem p.pgtable (v.toNat / 4096) = some f) (hq : q ∈ s.procs.proc_list)
    (b : Byte) : Kept H cfg s.m (s.poke (byteIn f v) b).m q.pgtable := by
  have hpage := page_l1 v
  have hx := byteIn_mem f v
  obtain ⟨pool, r, hr, hpool, hsub⟩ := I.place hp hz (by omega) hf
  have h := I.kin.homes q hq
  exact kept_update h.tables hr hpool (hsub _ hx) (fun hmem => hpool (congrArg Prod.fst
    (h.tables.blocks.eq_of_mem hr h.root (hsub _ hx) hmem))) b

theorem poke_becomes {f : Nat} (hn : cfg.kernel ≤ 4096) (I : Tenanted H cfg s)
    (hp : p ∈ s.procs.proc_list) (hz : p.state ≠ .ZOMBIE) (hv : l1pte_index v < cfg.kernel)
    (hf : lookup H s.m.mem p.pgtable (v.toNat / 4096) = some f) (b : Byte) :
    Becomes H cfg (Function.update (s.memories H cfg) p.pid
      (some (Function.update (privateByte H cfg s.m.mem p.pgtable) v (some b))))
      (s.poke (byteIn f v) b) := by
  obtain ⟨l₁, l₂, hl⟩ := List.append_of_mem hp
  have hpage := page_l1 v
  have hx := byteIn_mem f v
  obtain ⟨pool, r, hr, hpool, hsub⟩ := I.place hp hz (by omega) hf
  have hsys := I.notMem_sys hp hz (by omega) hf hx
  have hkept : ∀ q ∈ s.procs.proc_list, Kept H cfg s.m (s.poke (byteIn f v) b).m q.pgtable :=
    fun q hq => I.poke_kept hp hz hv hf hq b
  have hslots : ∀ q ∈ s.procs.proc_list,
      SameSlots H cfg.kernel q.pgtable s.m.mem (s.poke (byteIn f v) b).m.mem := fun q hq =>
    (hkept q hq).stays.sameSlots hn fun _ => Or.inl
  have I' : Inv H cfg (s.poke (byteIn f v) b) :=
    { kin := I.kin.leaves hn ⟨hkept, kept_update I.kin.sys.tables hr hpool (hsub _ hx) hsys b,
        fun _ h _ => h, fun _ h _ => h, rfl⟩
      fresh := I.fresh
      frames := I.frames }
  have hne : ∀ q ∈ l₁ ++ l₂, q.pid ≠ p.pid := fun q hq => I.pid_unique hl hq
  have hview : ∀ q ∈ l₁ ++ l₂,
      q.memory H cfg (s.poke (byteIn f v) b).m.mem = q.memory H cfg s.m.mem := by
    intro q hq
    have hmem : q ∈ s.procs.proc_list := by
      rw [hl]
      exact List.perm_middle.mem_iff.mpr (List.mem_cons_of_mem _ hq)
    unfold Pcb.memory
    split
    · rfl
    · next hzq =>
      refine congrArg some (privateByte_congr (hslots q hmem) fun k hk f' hf' => eqOn_update ?_ b)
      refine byteIn_notMem (lookup_lt hf) (lookup_lt hf') (fun h => ?_) v
      exact I.apart hn hp hmem (hne q hq).symm hz hzq (by omega) hk hf (h ▸ hf')
  have hmemory : p.memory H cfg (s.poke (byteIn f v) b).m.mem =
      some (Function.update (privateByte H cfg s.m.mem p.pgtable) v (some b)) := by
    rw [Pcb.memory, if_neg hz]
    exact congrArg some (privateByte_update hv hf (I.residents p hp hz).distinct (hslots p hp))
  refine ⟨⟨I', fun q hq hzq => (I.residents q hq hzq).congr (hslots q hq), ?_, I.spent,
    I.outside⟩, ?_⟩
  · exact I.one.imp_of_mem fun hq hq' h hzq hzq' =>
      (h hzq hzq').imp (fun h => h.congr (hslots _ hq)) fun h => h.congr (hslots _ hq')
  · have hl' : (s.poke (byteIn f v) b).procs.proc_list = l₁ ++ p :: l₂ := hl
    rw [memories_eq hl hne, Function.update_idem, ← hmemory, memories, hl']
    exact readers_cons hne hview

/-- Process `p` has written the bytes of `bs` to its memory, all of them to its pages. -/
structure Written (H : Header) (cfg : Config) (s : World) (p : Pcb) (bs : List (Word × Byte))
    (s' : World) : Prop where
  mapped : ∀ v ∈ bs.map Prod.fst, (privateByte H cfg s.m.mem p.pgtable v).isSome
  becomes : Becomes H cfg (Function.update (s.memories H cfg) p.pid
    (some (writeAll (privateByte H cfg s.m.mem p.pgtable) bs))) s'
  procs : s'.procs = s.procs
  trace : s'.m.trace = s.m.trace
  stays : ∀ q ∈ s.procs.proc_list, Stays H cfg.OwnSlot q.pgtable s.m.mem s'.m.mem

theorem Written.nil (I : Tenanted H cfg s) (hp : p ∈ s.procs.proc_list) (hz : p.state ≠ .ZOMBIE) :
    Written H cfg s p [] s where
  mapped := nofun
  becomes := by
    refine ⟨I, (Function.update_eq_self_iff.mpr ?_).symm⟩
    exact (I.memories_running hp hz).symm
  procs := rfl
  trace := rfl
  stays _ _ := Stays.refl _

/-- The memory of the process itself. -/
theorem Written.privateByte_eq {bs : List (Word × Byte)} (W : Written H cfg s p bs s')
    (hp : p ∈ s.procs.proc_list) (hz : p.state ≠ .ZOMBIE) :
    privateByte H cfg s'.m.mem p.pgtable =
      writeAll (privateByte H cfg s.m.mem p.pgtable) bs := by
  obtain ⟨I', hM⟩ := W.becomes
  have hown := I'.memories_running (p := p) (by rwa [W.procs]) hz
  rw [hM, Function.update_self] at hown
  exact (Option.some.inj hown).symm

theorem Written.append {bs bs' : List (Word × Byte)} {s'' : World} (W : Written H cfg s p bs s')
    (W' : Written H cfg s' p bs' s'') (hp : p ∈ s.procs.proc_list) (hz : p.state ≠ .ZOMBIE) :
    Written H cfg s p (bs ++ bs') s'' := by
  have hown := W.privateByte_eq hp hz
  constructor
  case mapped =>
    intro v hv
    rw [List.map_append, List.mem_append] at hv
    by_cases hbs : v ∈ bs.map Prod.fst
    · exact W.mapped v hbs
    · have h := W'.mapped v (hv.resolve_left hbs)
      rwa [hown, writeAll_of_notMem hbs] at h
  case becomes =>
    obtain ⟨I', hM'⟩ := W'.becomes
    rw [hown, W.becomes.2, Function.update_idem] at hM'
    rw [writeAll, List.foldl_append]
    exact ⟨I', hM'⟩
  case procs => exact W'.procs.trans W.procs
  case trace => exact W'.trace.trans W.trace
  case stays =>
    intro q hq
    exact (W.stays q hq).trans (W'.stays q (by rwa [W.procs]))

theorem poke_written {f : Nat} (hn : cfg.kernel ≤ 4096) (I : Tenanted H cfg s)
    (hp : p ∈ s.procs.proc_list) (hz : p.state ≠ .ZOMBIE) (hv : l1pte_index v < cfg.kernel)
    (hf : lookup H s.m.mem p.pgtable (v.toNat / 4096) = some f) (b : Byte) :
    Written H cfg s p [(v, b)] (s.poke (byteIn f v) b) where
  mapped u hu := by
    obtain rfl := List.mem_singleton.mp hu
    rw [privateByte_eq hv, hf]
    rfl
  becomes := poke_becomes hn I hp hz hv hf b
  procs := rfl
  trace := rfl
  stays _ hq := (I.poke_kept hp hz hv hf hq b).stays

/-- Bytes that are written to the user area go to the memory of the process. -/
theorem pokes_written (hn : cfg.kernel ≤ 4096) (I : Tenanted H cfg s)
    (hp : p ∈ s.procs.proc_list) (hz : p.state ≠ .ZOMBIE) {tr : Word → Option Word}
    (htr : ∀ v, l1pte_index v < cfg.kernel → tr v = translate H p.pgtable s.m.mem v)
    {bs : List (Word × Byte)} (hbs : ∀ v ∈ bs.map Prod.fst, l1pte_index v < cfg.kernel)
    (h : s.pokes tr bs = some s') : Written H cfg s p bs s' := by
  induction bs generalizing s with
  | nil =>
    obtain rfl := Option.some.inj h
    exact .nil I hp hz
  | cons x bs ih =>
    obtain ⟨v, b⟩ := x
    obtain ⟨hv, hbs⟩ := List.forall_mem_cons.mp hbs
    obtain ⟨x, hx, h⟩ := Option.bind_eq_some_iff.mp h
    rw [htr v hv, translate_eq] at hx
    obtain ⟨f, hf, rfl⟩ := Option.map_eq_some_iff.mp hx
    have W := poke_written hn I hp hz hv hf b
    refine W.append (ih W.becomes.1 hp (fun u hu => ?_) hbs h) hp hz
    -- the table of the process is as before
    have hpage := page_l1 u
    have hS := (W.stays p hp).sameSlots hn fun _ => Or.inl
    rw [htr u hu, translate_eq, translate_eq, hS.lookup_eq (by omega)]

theorem store_written (hn : cfg.kernel ≤ 4096) (I : Tenanted H cfg s)
    (hp : p ∈ s.procs.proc_list) (hz : p.state ≠ .ZOMBIE) (v : Word) (b : Byte) :
    wp (s.store H cfg p v b) (Written H cfg s p [(v, b)]) (fun _ => True) := by
  unfold store
  split
  case isFalse => exact wp_throw.mpr trivial
  case isTrue hv =>
  rw [translate_eq]
  cases hq : lookup H s.m.mem p.pgtable (v.toNat / 4096) with
  | none => exact wp_throw.mpr trivial
  | some q => exact wp_pure.mpr (poke_written hn I hp hz hv hq b)

/-- What `do_waitpid` stores: nothing, or a status at `*wstatus`. -/
def Stored (wstatus : Word) (bs : List (Word × Byte)) : Prop :=
  bs = [] ∨ ∃ w, wstatus ≠ 0 ∧ IsStatus w ∧ bs = Memory.wordBytes wstatus w

theorem putStatus_written {wstatus : Word} {status : Option Word} (hn : cfg.kernel ≤ 4096)
    (I : Tenanted H cfg s) (hp : p ∈ s.procs.proc_list) (hz : p.state ≠ .ZOMBIE)
    (hu : UserPointer cfg wstatus) (hstatus : ∀ w ∈ status, wstatus ≠ 0 ∧ IsStatus w)
    (h : s.putStatus H p.pgtable wstatus status = .ok s') :
    ∃ bs, Stored wstatus bs ∧ Written H cfg s p bs s' := by
  cases status with
  | none =>
    obtain rfl := Except.ok.inj h
    exact ⟨[], .inl rfl, .nil I hp hz⟩
  | some w =>
    obtain ⟨hnull, hw⟩ := hstatus w rfl
    refine ⟨_, .inr ⟨w, hnull, hw, rfl⟩, ?_⟩
    rw [putStatus] at h
    split at h
    · cases h
    · next s₁ hpokes =>
      obtain rfl := Except.ok.inj h
      exact pokes_written hn I hp hz (fun _ _ => rfl)
        (fun v hv => hu hnull v (Memory.mem_wordBytes.mp hv)) hpokes

theorem Reaped.caller_mem (R : Reaped H cfg s s') (hp : p ∈ s.procs.proc_list)
    (hz : p.state ≠ .ZOMBIE) : p ∈ s'.procs.proc_list := by
  obtain ⟨l₁, q, l₂, m', hl, hzq, -, rfl⟩ := R
  rw [hl] at hp
  refine (List.mem_cons.mp (List.perm_middle.mem_iff.mp hp)).resolve_left ?_
  rintro rfl
  exact hz hzq

theorem do_waitpid_written {pid : Int} {wstatus : Word} {nohang : Bool} (hn : cfg.kernel ≤ 4096)
    (I : Tenanted H cfg s) (hp : p ∈ s.procs.proc_list) (hz : p.state ≠ .ZOMBIE)
    (hc : s.Cleans pid nohang) (hu : UserPointer cfg wstatus) :
    wp (s.do_waitpid H cfg p pid wstatus nohang)
      (fun s' => ∃ s₁ bs, (s₁ = s ∨ Reaped H cfg s s₁) ∧ Becomes H cfg (s.memories H cfg) s₁ ∧
        p ∈ s₁.procs.proc_list ∧ Stored wstatus bs ∧ Written H cfg s₁ p bs s')
      (fun _ => True) := by
  refine wp.self.mono fun s' h => ?_
  obtain ⟨s₁, status, hs₁, hstatus, hput⟩ := do_waitpid_cases I.pids_nodup hc p wstatus h
  have hbecomes : Becomes H cfg (s.memories H cfg) s₁ := by
    rcases hs₁ with rfl | R
    · exact ⟨I, rfl⟩
    · exact R.becomes hn I
  have hmem : p ∈ s₁.procs.proc_list := by
    rcases hs₁ with rfl | R
    · exact hp
    · exact R.caller_mem hp hz
  obtain ⟨bs, hbs, W⟩ := putStatus_written hn hbecomes.1 hmem hz hu hstatus hput
  exact ⟨s₁, bs, hs₁, hbecomes, hmem, hbs, W⟩

/-! ## Runs -/

/-- What an act is to the private memories. -/
inductive Act.Shows : Act → MemoryAct Nat Word Byte → Prop
  | create (i : Nat) : Shows (.call .create_root_process) (.create i)
  | fork (i j : Nat) : Shows (.call (.do_fork i)) (.copy i j)
  | exchange (i : Nat) (elf_img_info : ElfImage) (argv envp : Option (List ArgString)) :
    Shows (.call (.setup_proc_image_replace i elf_img_info argv envp)) (.replace i)
  | exit (i : Nat) (exit_status : Word) : Shows (.call (.do_exit i exit_status)) (.drop i)
  /-- A status is stored, if anything. -/
  | waitpid (i : Nat) (pid : Int) (wstatus : Word) (nohang : Bool) {bs : List (Word × Byte)}
    (h : Stored wstatus bs) : Shows (.waitpid i pid wstatus nohang) (.write i bs)
  | sbrk (i : Nat) (increment : Word) : Shows (.sbrk i increment) (.idle i)
  | store (i : Nat) (v : Word) (b : Byte) : Shows (.store i v b) (.write i [(v, b)])

/-- The acts of a process that may change what it reads at `v`. -/
def Act.Touches (i : Nat) (v : Word) : Act → Prop
  | .store j u _ => j = i ∧ v = u
  | .waitpid j _ wstatus _ => j = i ∧ wstatus ≠ 0 ∧ v ∈ (⟨wstatus, 4⟩ : Region)
  | .call (.setup_proc_image_replace j _ _ _) => j = i
  | .call (.do_exit j _) => j = i
  | _ => False

theorem Act.Shows.touches {a : Act} {e : MemoryAct Nat Word Byte} (h : a.Shows e)
    (he : e.Touches i v) : a.Touches i v := by
  cases h with
  | waitpid j pid wstatus nohang hbs =>
    obtain ⟨rfl, hv⟩ := he
    rcases hbs with rfl | ⟨w, hnull, -, rfl⟩
    · exact absurd hv List.not_mem_nil
    · exact ⟨rfl, hnull, Memory.mem_wordBytes.mp hv⟩
  | store j u b => exact ⟨he.1, List.mem_singleton.mp he.2⟩
  | create | fork | exchange | exit | sbrk => exact he

theorem untouched {as : List Act} {es : List (MemoryAct Nat Word Byte)}
    (h : List.Forall₂ Act.Shows as es) (hv : ∀ a ∈ as, ¬a.Touches i v) :
    ∀ e ∈ es, ¬e.Touches i v := by
  induction h with
  | nil => exact nofun
  | cons he _ ih =>
    obtain ⟨ha, has⟩ := List.forall_mem_cons.mp hv
    exact List.forall_mem_cons.mpr ⟨mt he.touches ha, ih has⟩

/-- Acts, each of which succeeds. -/
inductive Runs (H : Header) (al : Allocators) (cfg : Config) : World → List Act → World → Prop
  | nil (s : World) : Runs H al cfg s [] s
  | cons {s s' s'' : World} {a : Act} {as : List Act} (hok : a.Ok H cfg s)
    (hact : s.act H al cfg a = .ok s') (h : Runs H al cfg s' as s'') :
    Runs H al cfg s (a :: as) s''

/-- The kernel before the first process, with `root_proc` outside of the table of the system. -/
structure Started (H : Header) (cfg : Config) (s : World) : Prop extends Booted H cfg s where
  outside : TableOutside cfg s.m

theorem Started.tenanted (B : Started H cfg s) : Tenanted H cfg s where
  toInv := B.toBooted.inv
  residents := by
    rw [B.proc_list]
    exact nofun
  one := by
    rw [B.proc_list]
    exact List.Pairwise.nil
  spent := by
    rw [B.proc_list]
    exact nofun
  outside := B.outside

theorem Started.memories (B : Started H cfg s) : s.memories H cfg = fun _ => none := by
  rw [World.memories, B.proc_list]
  rfl

/-- The system that a world with these constants is, after an act. -/
def Acted (H : Header) (cfg : Config) (s : World) (a : Act) (s' : World) : Prop :=
  Tenanted H cfg s' ∧ ∃ e, a.Shows e ∧ (s.memories H cfg).Step e (s'.memories H cfg)

theorem Becomes.acted {M : Memories Nat Word Byte} {a : Act} {e : MemoryAct Nat Word Byte}
    (h : Becomes H cfg M s') (ha : a.Shows e) (hM : (s.memories H cfg).Step e M) :
    Acted H cfg s a s' := by
  obtain ⟨I', rfl⟩ := h
  exact ⟨I', e, ha, hM⟩

theorem Written.acted {a : Act} {bs : List (Word × Byte)} (W : Written H cfg s p bs s')
    (hp : p ∈ s.procs.proc_list) (hz : p.state ≠ .ZOMBIE) (I : Tenanted H cfg s)
    (ha : a.Shows (.write p.pid bs)) : Acted H cfg s a s' :=
  W.becomes.acted ha (.write (I.memories_running hp hz) W.mapped)

theorem caller_cases (s : World) (pid : Nat) : s.caller pid = none ∨
    ∃ p ∈ s.procs.proc_list, p.state ≠ .ZOMBIE ∧ p.pid = pid ∧ s.caller pid = some p := by
  cases h : s.caller pid with
  | none => exact .inl rfl
  | some p =>
    obtain ⟨hf, -⟩ := Option.filter_eq_some_iff.mp h
    obtain ⟨hmem, hz⟩ := caller_eq_some h
    exact .inr ⟨p, hmem, hz, Nat.cast_injective (ProcTable.find_proc_by_pid_eq_some hf).2, rfl⟩

section
variable (hcfg : cfg.RootOk) (hpos : 0 < cfg.HEAP_SIZE.toNat)
  (hsize : cfg.HEAP_SIZE.toNat < 2 ^ 30)
include hcfg hpos

theorem exec_acted (I : Tenanted H cfg s) {c : Call} (hok : (Act.call c).Ok H cfg s) :
    wp (s.exec H al cfg c) (Acted H cfg s (.call c)) (fun _ => True) := by
  cases c with
  | create_root_process =>
    refine (create_root_process_becomes hcfg hpos I hok).mono ?_
    rintro s' ⟨f, h⟩
    exact h.acted (.create _) (.create I.memories_fresh f)
  | do_fork pid =>
    rcases s.caller_cases pid with hp | ⟨p, hmem, hz, rfl, hp⟩
    · simp only [exec, hp]
      exact wp_throw.mpr trivial
    · simp only [exec, hp]
      refine (do_fork_becomes hcfg.area I hmem hz).mono fun s' h => ?_
      exact h.acted (.fork _ _) (.copy (I.memories_running hmem hz) I.memories_fresh)
  | setup_proc_image_replace pid elf_img_info argv envp =>
    rcases s.caller_cases pid with hp | ⟨p, hmem, hz, rfl, hp⟩
    · simp only [exec, hp]
      exact wp_throw.mpr trivial
    · obtain ⟨hlegal, hcareful⟩ := hok
      obtain ⟨hfit, hs⟩ := hcareful p hp
      simp only [exec, hp]
      refine (exchange_becomes hcfg.area hpos I hmem hz hlegal hfit hs).mono ?_
      rintro s' ⟨f, h⟩
      exact h.acted (.exchange ..) (.replace (I.memories_running hmem hz) f)
  | do_exit pid exit_status =>
    rcases s.caller_cases pid with hp | ⟨p, hmem, hz, rfl, hp⟩
    · simp only [exec, hp]
      exact wp_throw.mpr trivial
    · simp only [exec, hp]
      refine (do_exit_becomes hcfg.area.kernel_le I hmem exit_status).mono fun s' h => ?_
      exact h.acted (.exit ..) (.drop (I.memories_running hmem hz))

include hsize

theorem act_acted (I : Tenanted H cfg s) {a : Act} (hok : a.Ok H cfg s) :
    wp (s.act H al cfg a) (Acted H cfg s a) (fun _ => True) := by
  cases a with
  | call c => exact exec_acted hcfg hpos I hok
  | waitpid caller pid wstatus nohang =>
    rcases s.caller_cases caller with hp | ⟨p, hmem, hz, rfl, hp⟩
    · simp only [act, hp]
      exact wp_throw.mpr trivial
    · simp only [act, hp]
      obtain ⟨hc, hu⟩ := hok
      refine (do_waitpid_written hcfg.area.kernel_le I hmem hz hc hu).mono ?_
      rintro s' ⟨s₁, bs, -, ⟨I₁, hM⟩, hmem₁, hbs, W⟩
      have hacted := W.acted hmem₁ hz I₁ (.waitpid p.pid pid wstatus nohang hbs)
      rwa [Acted, hM] at hacted
  | sbrk pid increment =>
    rcases s.caller_cases pid with hp | ⟨p, hmem, hz, rfl, hp⟩
    · simp only [act, hp]
      exact wp_throw.mpr trivial
    · simp only [act, hp]
      refine wp_pure.mpr ((do_sbrk_becomes hsize I hmem hz increment).acted (.sbrk ..) ?_)
      exact .idle (I.memories_running hmem hz)
  | store pid v b =>
    rcases s.caller_cases pid with hp | ⟨p, hmem, hz, rfl, hp⟩
    · simp only [act, hp]
      exact wp_throw.mpr trivial
    · simp only [act, hp]
      refine (store_written hcfg.area.kernel_le I hmem hz v b).mono fun s' W => ?_
      exact W.acted hmem hz I (.store p.pid v b)

theorem Tenanted.runs (I : Tenanted H cfg s) {as : List Act} (h : Runs H al cfg s as s') :
    Tenanted H cfg s' ∧ ∃ es, List.Forall₂ Act.Shows as es ∧
      Memories.Run (s.memories H cfg) es (s'.memories H cfg) := by
  induction h with
  | nil s => exact ⟨I, [], .nil, .nil _⟩
  | cons hok hact _ ih =>
    obtain ⟨I', e, he, hstep⟩ := (act_acted hcfg hpos hsize I hok).of_ok hact
    obtain ⟨I'', es, hes, hrun⟩ := ih I'
    exact ⟨I'', e :: es, .cons he hes, .cons hstep hrun⟩

end

/-! ## What holds in every run -/

/-- A program finds the byte `x` of physical memory at the address `v`. -/
def Reaches (H : Header) (cfg : Config) (mem : Memory) (p : Pcb) (v x : Word) : Prop :=
  l1pte_index v < cfg.kernel ∧ translate H p.pgtable mem v = some x

theorem Reaches.exists_frame {x : Word} (h : Reaches H cfg mem p v x) :
    ∃ f, lookup H mem p.pgtable (v.toNat / 4096) = some f ∧ x = byteIn f v := by
  obtain ⟨-, hx⟩ := h
  rw [translate_eq] at hx
  obtain ⟨f, hf, rfl⟩ := Option.map_eq_some_iff.mp hx
  exact ⟨f, hf, rfl⟩

/-- No byte is reached by two processes, or at two addresses of one; and none is part of a page
table, or of another block that the kernel has on its heap. -/
structure Isolated (H : Header) (cfg : Config) (s : World) : Prop where
  once : ∀ p ∈ s.procs.proc_list, ∀ q ∈ s.procs.proc_list, p.state ≠ .ZOMBIE → q.state ≠ .ZOMBIE →
    ∀ u v x, Reaches H cfg s.m.mem p u x → Reaches H cfg s.m.mem q v x → p.pid = q.pid ∧ u = v
  sealed : ∀ p ∈ s.procs.proc_list, p.state ≠ .ZOMBIE → ∀ v x, Reaches H cfg s.m.mem p v x →
    x ∉ rootRegion s.m.sys_root_pgtable ∧ ∀ r, (.heap, r) ∈ live s.m.trace → x ∉ r

theorem Tenanted.isolated (I : Tenanted H cfg s) (hn : cfg.kernel ≤ 4096) : Isolated H cfg s where
  once p hp q hq hz hzq u v x hu hv := by
    obtain ⟨f, hf, rfl⟩ := hu.exists_frame
    obtain ⟨f', hf', heq⟩ := hv.exists_frame
    obtain ⟨rfl, hoff⟩ := byteIn_inj (lookup_lt hf) (lookup_lt hf') heq
    have hpage := page_l1 u
    have hpage' := page_l1 v
    have hi : u.toNat / 4096 < cfg.kernel * 256 := by
      have := hu.1
      omega
    have hk : v.toNat / 4096 < cfg.kernel * 256 := by
      have := hv.1
      omega
    have hpid : p.pid = q.pid := by
      by_contra hne
      exact I.apart hn hp hq hne hz hzq hi hk hf hf'
    obtain rfl := I.pid_injective hp hq hpid
    have hsame := (I.residents p hp hz).distinct _ hi _ hk f hf hf'
    exact ⟨rfl, BitVec.eq_of_toNat_eq (by omega)⟩
  sealed p hp hz v x hx := by
    obtain ⟨f, hf, rfl⟩ := hx.exists_frame
    have hpage := page_l1 v
    have hi : v.toNat / 4096 < cfg.kernel * 256 := by
      have := hx.1
      omega
    obtain ⟨pool, r, hr, hpool, hsub⟩ := I.place hp hz hi hf
    refine ⟨I.notMem_sys hp hz hi hf (byteIn_mem f v), fun r' hr' hmem => ?_⟩
    exact hpool (congrArg Prod.fst
      (I.kin.sys.tables.blocks.eq_of_mem hr hr' (hsub _ (byteIn_mem f v)) hmem))

/-- The pages cover the size. -/
theorem le_pageCount {size : Word} (h : size.toNat < 2 ^ 30) :
    size.toNat ≤ (pageCount size).toInt.toNat * 4096 := by
  have hlow : (Word.lowMask 12).toNat = 4095 := by decide
  have hup : (ALIGN_UP size).toNat = (size.toNat + 4095) / 4096 * 4096 := by
    rw [ALIGN_UP, PAGE_MASK, Word.and_highMask_toNat _ (by decide), BitVec.toNat_add, hlow]
    omega
  rw [pageCount_toInt, pageCount, BitVec.toNat_ushiftRight, Nat.shiftRight_eq_div_pow, hup,
    PAGE_SHIFT]
  omega

theorem pageAt_page {base : Word} (h : 4096 ∣ base.toNat) (v : Word) :
    (pageAt base ((v - base).toNat / 4096)).toNat / 4096 = v.toNat / 4096 := by
  have hv := v.isLt
  have hbase := base.isLt
  rw [pageAt, BitVec.toNat_add, BitVec.toNat_ofNat, PAGE_SIZE, BitVec.toNat_sub]
  omega

/-- The heap below the break. -/
theorem Tenanted.heap_reaches (I : Tenanted H cfg s) (hsize : cfg.HEAP_SIZE.toNat < 2 ^ 30)
    (hp : p ∈ s.procs.proc_list) (hz : p.state ≠ .ZOMBIE) (hheap : p.heap_base ≠ 0)
    (hv : l1pte_index v < cfg.kernel) (hbrk : (v - p.heap_base).toNat < p.brk) :
    ∃ x, Reaches H cfg s.m.mem p v x ∧ ∃ f ∈ p.page_list, x ∈ (⟨f, PAGE_SIZE⟩ : Region) := by
  have R := I.residents p hp hz
  obtain ⟨haligned, hmapped, hsecl⟩ := R.heap hheap
  have hpage := page_l1 v
  have hi : (v - p.heap_base).toNat / 4096 < (pageCount cfg.HEAP_SIZE).toInt.toNat := by
    have hlt := hbrk.trans R.brk
    have hle := le_pageCount hsize
    omega
  have hsame := pageAt_page haligned v
  have hsome := hmapped _ hi (by omega)
  rw [hsame] at hsome
  obtain ⟨f, hf⟩ := Option.isSome_iff_exists.mp hsome
  refine ⟨byteIn f v, ⟨hv, ?_⟩, frameAt f, hsecl _ (by omega) f hf, byteIn_mem f v⟩
  rw [translate_eq, hf]
  rfl

/-- The break of each process is in its heap, and the heap below the break in its frames. -/
def HeapsBacked (H : Header) (cfg : Config) (s : World) : Prop :=
  ∀ p ∈ s.procs.proc_list, p.state ≠ .ZOMBIE → p.brk < cfg.HEAP_SIZE.toNat ∧
    (p.heap_base ≠ 0 → ∀ v, l1pte_index v < cfg.kernel → (v - p.heap_base).toNat < p.brk →
      ∃ x, Reaches H cfg s.m.mem p v x ∧ ∃ f ∈ p.page_list, x ∈ (⟨f, PAGE_SIZE⟩ : Region))

theorem Tenanted.heapsBacked (I : Tenanted H cfg s) (hsize : cfg.HEAP_SIZE.toNat < 2 ^ 30) :
    HeapsBacked H cfg s := fun p hp hz =>
  ⟨(I.residents p hp hz).brk, fun hheap _ hv hbrk => I.heap_reaches hsize hp hz hheap hv hbrk⟩

/-- After a fork both processes keep what the parent had, whatever the other one and third processes
do, until they change it themselves. -/
def ForksKeep (H : Header) (al : Allocators) (cfg : Config) (s : World) : Prop :=
  ∀ i f s', s.memories H cfg i = some f → s.exec H al cfg (.do_fork i) = .ok s' →
    ∀ as s'', Runs H al cfg s' as s'' → ∀ j v, j = i ∨ j = s.procs.pid_current →
      (∀ a ∈ as, ¬a.Touches j v) → ∃ g, s''.memories H cfg j = some g ∧ g v = f v

section
variable {s₀ : World} {as : List Act} (hcfg : cfg.RootOk) (hpos : 0 < cfg.HEAP_SIZE.toNat)
  (hsize : cfg.HEAP_SIZE.toNat < 2 ^ 30)
include hcfg hpos hsize

theorem Tenanted.forksKeep (I : Tenanted H cfg s) : ForksKeep H al cfg s := by
  intro i f s' hf hfork as s'' h j v hj hv
  rcases s.caller_cases i with hp | ⟨p, hmem, hz, rfl, hp⟩
  · simp only [exec, hp] at hfork
    cases hfork
  · simp only [exec, hp] at hfork
    obtain ⟨I', hM⟩ := (do_fork_becomes hcfg.area I hmem hz).of_ok hfork
    rw [I.memories_running hmem hz] at hf
    obtain rfl := Option.some.inj hf
    have hj' : s'.memories H cfg j = some (privateByte H cfg s.m.mem p.pgtable) := by
      rw [hM]
      rcases hj with rfl | rfl
      · rw [Function.update_of_ne (I.fresh p hmem).ne, I.memories_running hmem hz]
      · exact Function.update_self ..
    obtain ⟨-, es, hes, hrun⟩ := I'.runs hcfg hpos hsize h
    exact hrun.keeps hj' (untouched hes hv)

variable (B : Started H cfg s₀) (h : Runs H al cfg s₀ as s)
include B h

end

/-! ## Calls that succeed -/

theorem fits_name (name : ProcName) : Fits (pageStrings name none none) := by
  have hname : name.val.length < 80 := name.property.2
  change 4 * (1 + 2) + (name.val.length + 1 + 0) ≤ 4096
  omega

/-- The allocations of an exchange succeed. -/
def Furnishes (H : Header) (al : Allocators) (cfg : Config) (s : World) (p : Pcb)
    (elf_img_info : ElfImage) (argv envp : Option (List ArgString)) : Bool :=
  ((preserveArgs al (s.running p).m p.name (argv.getD []).length argv envp).bind fun x =>
    (reset_root_pgtable H cfg.kernel x.2 p.pgtable false).bind fun m =>
      allocateImage H al cfg (Work.release_proc_pages
        { s.running p with m, pcb := reset_process_stack cfg p }) elf_img_info).isOk

theorem caller_leave (I : Inv H cfg s) (hp : p ∈ s.procs.proc_list) (hpid : w.pcb.pid = p.pid)
    (hz : w.pcb.state ≠ .ZOMBIE) : (s.leave w).caller p.pid = some w.pcb := by
  obtain ⟨l₁, l₂, hl⟩ := List.append_of_mem hp
  have hne : ∀ q ∈ l₁ ++ l₂, q.pid ≠ p.pid := fun q hq => I.pid_unique hl hq
  have hlist := leave_proc_list hl hpid hne
  rw [← hpid] at hne ⊢
  rw [caller, ProcTable.find_proc_by_pid_append hlist hne, Option.filter_some,
    if_pos (decide_eq_true hz)]

theorem caller_pid {pid : Nat} (hp : s.caller pid = some p) : p.pid = pid :=
  Nat.cast_injective (ProcTable.find_proc_by_pid_eq_some (Option.filter_eq_some_iff.mp hp).1).2

/-- An image in the user area, and the memory for it. -/
theorem exists_exchange {pid : Nat} {elf_img_info : ElfImage} {argv envp : Option (List ArgString)}
    (hcfg : cfg.AreaOk) (I : Tenanted H cfg s) (hp : s.caller pid = some p)
    (hentry : 4096 ∣ elf_img_info.e_entry.toNat) (hin : elf_img_info.InUserArea cfg)
    (hfit : Fits (pageStrings p.name argv envp))
    (halloc : s.Furnishes H al cfg p elf_img_info argv envp = true) :
    (Act.call (.setup_proc_image_replace pid elf_img_info argv envp)).Ok H cfg s ∧
    ∃ s' q, s.act H al cfg (.call (.setup_proc_image_replace pid elf_img_info argv envp)) =
        .ok s' ∧ s'.caller pid = some q ∧
      q.heap_base = heapBase cfg elf_img_info.segment_page_count ∧
      q.heap_pointer = q.heap_base := by
  obtain ⟨hmem, hz⟩ := caller_eq_some hp
  obtain rfl := caller_pid hp
  obtain ⟨l₁, l₂, hl⟩ := List.append_of_mem hmem
  have T := I.tenant hcfg.kernel_le hl hz
  have hs : elf_img_info.Unsectioned H cfg s.m.mem p.pgtable :=
    ⟨hin.sections.unsectioned fun _ => T.noSect, hin.heap.unsectioned fun _ => T.noSect⟩
  have hspec : wp (setup_proc_image_replace H al cfg (s.running p) elf_img_info
      (argv.getD []).length argv envp) _ _ :=
    (setup_proc_image_replace_spec hcfg T.toSpace rfl hentry hs hfit).and
      (setup_proc_image_replace_moved hcfg T rfl hentry hs hfit)
  obtain ⟨⟨ret, w⟩, hw, ⟨⟨rfl, -, hsame⟩, V⟩, -⟩ :=
    (hspec.and_not (setup_proc_image_replace_ne_noMemory halloc)).exists_ok fun _ => id
  obtain ⟨-, w₀, m, L, -⟩ := setup_proc_image_replace_replaced.of_ok hw
  refine ⟨⟨hentry, fun q hq => ?_⟩, s.leave w, w.pcb, ?_,
    caller_leave I.toInv hmem hsame.pid (hsame.state ▸ hz), L.heap_base, V.heap.pointer⟩
  · obtain rfl := Option.some.inj (hp.symm.trans hq)
    exact ⟨hfit, hs⟩
  · simp only [act, exec, hp]
    rw [exchange, hw]
    rfl

theorem exists_sbrk (al : Allocators) {pid : Nat} (I : Inv H cfg s) (hp : s.caller pid = some p)
    (increment : Word) :
    ∃ s', s.act H al cfg (.sbrk pid increment) = .ok s' ∧
      s'.caller pid = some (p.sbrk cfg increment).2 := by
  obtain ⟨hmem, hz⟩ := caller_eq_some hp
  obtain rfl := caller_pid hp
  refine ⟨s.do_sbrk cfg p increment, by simp only [act, hp]; rfl, ?_⟩
  obtain ⟨heap_pointer, heq⟩ := sbrk_eq cfg p increment
  exact caller_leave (w := ⟨(p.sbrk cfg increment).2, s.m, s.refcount⟩) I hmem (by rw [heq])
    (by rw [heq]; exact hz)

theorem Runs.append {as as' : List Act} {s'' : World} (h : Runs H al cfg s as s')
    (h' : Runs H al cfg s' as' s'') : Runs H al cfg s (as ++ as') s'' := by
  induction h with
  | nil => exact h'
  | cons hok hact _ ih => exact .cons hok hact (ih h')

/-! ## A parent that waits for its child -/

theorem started : Started Arm.header narrow booted where
  toBooted := booted_booted
  outside q hq := by
    have hle : 0x310 ≤ q := hq.1
    have hlt : q * 4096 < 0x311000 := hq.2
    obtain rfl : q = 0x310 := by omega
    exact Region.disjoint_of_apart (by decide)

/-- The child writes to its page and exits, and its status goes to the page of the parent. -/
def childActs : List Act := [.store 2 0x1004 7, .call (.do_exit 2 42), .waitpid 1 2 0x1100 false]

def familyActs : List Act := [.call .create_root_process, .call (.do_fork 1)] ++ childActs

def firstImage : ElfImage := imageAt 0x1000 1

/-- After that the parent takes a new image, and a part of its heap. -/
def firstActs : List Act := familyActs ++
  [.call (.setup_proc_image_replace 1 firstImage none none), .sbrk 1 0x800]

theorem userPointer : UserPointer narrow 0x1100 := by
  intro _ v hv
  obtain ⟨k, hk, rfl⟩ := Region.exists_add_of_mem hv
  have h : ∀ k < 4, l1pte_index (0x1100 + BitVec.ofNat 32 k) < narrow.kernel := by decide
  exact h k hk

/-- The acts up to `waitpid`, with what has to hold before that call and after it. -/
def family : Except Fault World := do
  let s ← execCopy Arm.header zoned narrow booted .create_root_process
  let s ← execCopy Arm.header zoned narrow s (.do_fork 1)
  let s ← s.act Arm.header zoned narrow (.store 2 0x1004 7)
  let s ← s.act Arm.header zoned narrow (.call (.do_exit 2 42))
  if s.Cleans 2 false then
    let s ← s.act Arm.header zoned narrow (.waitpid 1 2 0x1100 false)
    match s.caller 1 with
    | none => throw .bug
    | some p =>
      if s.Furnishes Arm.header zoned narrow p firstImage none none then pure s
      else throw .bug
  else throw .bug

theorem exists_family : ∃ s s₁ s₂, Runs Arm.header zoned narrow booted
      [.call .create_root_process] s ∧
    s.exec Arm.header zoned narrow (.do_fork 1) = .ok s₁ ∧
    Runs Arm.header zoned narrow s₁ childActs s₂ ∧
    ∃ p, s₂.caller 1 = some p ∧
      s₂.Furnishes Arm.header zoned narrow p firstImage none none := by
  have h : family.isOk = true := by decide +kernel
  obtain ⟨s', h⟩ := exists_of_isOk h
  obtain ⟨s, h1, h⟩ := exists_of_bind_ok h
  obtain ⟨s₁, h2, h⟩ := exists_of_bind_ok h
  obtain ⟨s3, h3, h⟩ := exists_of_bind_ok h
  obtain ⟨s4, h4, h⟩ := exists_of_bind_ok h
  split at h
  case isFalse => cases h
  case isTrue hcleans =>
  obtain ⟨s₂, h5, h⟩ := exists_of_bind_ok h
  have I0 := booted_booted.inv
  rw [← exec_eq narrow_ok I0] at h1
  have R : Runs Arm.header zoned narrow booted [.call .create_root_process] s :=
    .cons (a := .call .create_root_process) rfl h1 (.nil s)
  have I1 := (started.tenanted.runs narrow_ok (by decide) (by decide) R).1.toInv
  rw [← exec_eq narrow_ok I1] at h2
  refine ⟨s, s₁, s₂, R, h2, ?_, ?_⟩
  · exact .cons (a := .store 2 0x1004 7) trivial h3 <|
      .cons (a := .call (.do_exit 2 42)) ⟨trivial, trivial⟩ h4 <|
      .cons (a := .waitpid 1 2 0x1100 false) ⟨hcleans, userPointer⟩ h5 (.nil s₂)
  · split at h
    · cases h
    · next p hp =>
      refine ⟨p, hp, ?_⟩
      split at h
      · assumption
      · cases h

theorem firstImage_inUserArea : firstImage.InUserArea narrow := by
  constructor
  all_goals
    unfold InUserArea
    decide

theorem exists_firstActs : ∃ s, Runs Arm.header zoned narrow booted firstActs s ∧
    ∃ p ∈ s.procs.proc_list, p.state ≠ .ZOMBIE ∧ p.heap_base = 0x3000 ∧ p.brk = 0x800 := by
  obtain ⟨s, s₁, s₂, h, hfork, h', p, hp, halloc⟩ := exists_family
  have hfamily : Runs Arm.header zoned narrow booted familyActs s₂ :=
    (h.append (.cons (a := .call (.do_fork 1)) ⟨trivial, trivial⟩ hfork (.nil s₁))).append h'
  have I₂ := (started.tenanted.runs narrow_ok (by decide) (by decide) hfamily).1
  obtain ⟨hok, s₃, q, h3, hq, hbase, hpointer⟩ := exists_exchange narrow_ok.area I₂ hp
    (by decide) firstImage_inUserArea (fits_name p.name) halloc
  have hexchange := hfamily.append (.cons hok h3 (.nil s₃))
  have I₃ := (started.tenanted.runs narrow_ok (by decide) (by decide) hexchange).1
  obtain ⟨s₄, h4, hq'⟩ := exists_sbrk zoned I₃.toInv hq 0x800
  obtain ⟨hmem, hz⟩ := caller_eq_some hq'
  have hpcb : (q.sbrk narrow 0x800).2 = { q with heap_pointer := q.heap_pointer + 0x800 } := by
    simp only [Pcb.sbrk, hpointer, BitVec.sub_self]
    rfl
  refine ⟨s₄, hfamily.append (.cons hok h3 (.cons (a := .sbrk 1 0x800) trivial h4 (.nil s₄))),
    _, hmem, hz, ?_⟩
  rw [hpcb]
  refine ⟨hbase.trans (by decide), ?_⟩
  have hbrk : q.heap_base + 0x800 - q.heap_base = 0x800 := by bv_omega
  change (q.heap_pointer + 0x800 - q.heap_base).toNat = _
  rw [hpointer, hbrk]
  rfl

end World
end SyeLabs.Kernel
