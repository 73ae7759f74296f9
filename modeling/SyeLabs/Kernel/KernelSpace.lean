import SyeLabs.Mmu.KernelArea
import SyeLabs.Kernel.World

/-!
# The kernel area of the processes

A new process copies the entries of the system. Later calls on the table of the system are not
copied.
-/

namespace SyeLabs.Kernel

open Mmu

variable {H : Header} {al : Allocators} {cfg : Config} {pid : Nat} {p : Pcb}

theorem ProcTable.remove_found {t : ProcTable} (h : t.find_proc_by_pid pid = some p) :
    ∃ l₁ l₂, t.proc_list = l₁ ++ p :: l₂ ∧ (t.remove_proc pid).proc_list = l₁ ++ l₂ := by
  obtain ⟨hp, l₁, l₂, hl, hno⟩ := List.find?_eq_some_iff_append.mp h
  have hp' : p.pid = pid := by simpa using hp
  refine ⟨l₁, l₂, hl, ?_⟩
  rw [remove_proc, hl, List.eraseP_append_right _ (by simpa using hno),
    List.eraseP_cons_of_pos (by simpa using hp')]

namespace World

/-- The calls that change tables. `create_mapping` and `release_mapping` are those on the table of
the system, `map` is one on the table of a process. -/
inductive TableCall where
  | new_process
  | create_mapping (r : Request)
  | release_mapping (r : Request)
  | map (pid : Nat) (r : Request)
  | reset_root_pgtable (pid : Nat) (remove : Bool)

/-- A process whose root table is given back is gone. -/
def execTable (H : Header) (al : Allocators) (cfg : Config) (s : World) :
    TableCall → Except Fault World
  | .new_process => do
    let (pgtable, m) ← newImage al cfg s.m
    return { s with procs := (s.procs.new_process pgtable).2, m }
  | .create_mapping r => do
    let m ← Mmu.create_mapping H al s.m 0 r.virt_base r.phys_base r.size r.nocache
    return { s with m }
  | .release_mapping r => do
    let m ← Mmu.release_mapping H s.m 0 r.virt_base r.size
    return { s with m }
  | .map pid r => do
    match s.procs.find_proc_by_pid pid with
    | none => throw .bug
    | some pcb =>
      let m ← Mmu.create_mapping H al s.m pcb.pgtable r.virt_base r.phys_base r.size r.nocache
      return { s with m }
  | .reset_root_pgtable pid remove => do
    match s.procs.find_proc_by_pid pid with
    | none => throw .bug
    | some pcb =>
      let m ← Mmu.reset_root_pgtable H cfg.kernel s.m pcb.pgtable remove
      return { s with procs := if remove then s.procs.remove_proc pid else s.procs, m }

/-- The ranges of the system lie in the kernel area, those of the processes below it. -/
def TableCall.Legal (cfg : Config) : TableCall → Prop
  | create_mapping r | release_mapping r => r.Range ∧ cfg.kernel * 2 ^ 20 ≤ r.virt_base.toNat
  | map _ r => r.Range ∧ r.hi ≤ cfg.kernel * 2 ^ 20
  | _ => True

/-- No section lies where small pages are mapped, and small pages are released from tables. -/
def Sound (H : Header) (s : World) : TableCall → Prop
  | .create_mapping r => r.Clear H s.m.mem s.m.sys_root_pgtable
  | .release_mapping r => r.Held H s.m.mem s.m.sys_root_pgtable
  | .map pid r => ∀ pcb, s.procs.find_proc_by_pid pid = some pcb → r.Clear H s.m.mem pcb.pgtable
  | _ => True

/-- Once there is a process, a call on the table of the system finds the entries that it needs, and
leaves those that it finds. -/
def Settled (H : Header) (s : World) : TableCall → Prop
  | .create_mapping r => s.procs.proc_list = [] ∨ r.Present H s.m.mem s.m.sys_root_pgtable
  | .release_mapping r => s.procs.proc_list = [] ∨ r.Partial H s.m.mem s.m.sys_root_pgtable
  | _ => True

/-- The kernel after `mmu_configure`, which maps sections only. -/
structure Configured (H : Header) (s : World) : Prop where
  proc_list : s.procs.proc_list = []
  blocks : BlocksOk (live s.m.trace)
  root_live : ∃ pool, (pool, rootRegion s.m.sys_root_pgtable) ∈ live s.m.trace
  ne_zero : s.m.sys_root_pgtable ≠ 0
  sections : ∀ i < 4096, ¬IsTable H (l1 s.m.mem s.m.sys_root_pgtable i)

theorem Configured.tables {s : World} (h : Configured H s) :
    TablesOk H s.m s.m.sys_root_pgtable where
  blocks := h.blocks
  root_live := h.root_live
  table_live i hi ht := absurd ht (h.sections i hi)
  inj i hi _ _ ht := absurd ht (h.sections i hi)

/-- The states that are reached by calls which all meet the condition `ok` in the state before. -/
inductive TablesReached (H : Header) (al : Allocators) (cfg : Config)
    (ok : World → TableCall → Prop) : World → Prop
  | boot {s : World} (h : Configured H s) : TablesReached H al cfg ok s
  | call {s s' : World} {c : TableCall} (h : TablesReached H al cfg ok s) (hc : c.Legal cfg)
    (hok : ok s c) (hexec : s.execTable H al cfg c = .ok s') : TablesReached H al cfg ok s'

/-- All processes have the kernel area of the system, and no table of theirs has been freed. -/
structure KernelShared (H : Header) (cfg : Config) (s : World) : Prop where
  entries : ∀ p ∈ s.procs.proc_list, ∀ i < 4096, cfg.kernel ≤ i →
    l1 s.m.mem p.pgtable i = l1 s.m.mem s.m.sys_root_pgtable i
  translated : ∀ p ∈ s.procs.proc_list, ∀ v : Word, cfg.kernel * 2 ^ 20 ≤ v.toNat →
    translate H p.pgtable s.m.mem v = translate H s.m.sys_root_pgtable s.m.mem v
  not_freed : ∀ p ∈ s.procs.proc_list, ∀ i < 4096, IsTable H (l1 s.m.mem p.pgtable i) →
    (.heap, tableRegion (tableOf (l1 s.m.mem p.pgtable i))) ∈ live s.m.trace

def roots (s : World) : List Word := s.procs.proc_list.map Pcb.pgtable

variable {s s' : World} {c : TableCall}

theorem mem_roots (h : s.procs.find_proc_by_pid pid = some p) : p.pgtable ∈ s.roots :=
  List.mem_map_of_mem (ProcTable.find_proc_by_pid_eq_some h).1

theorem roots_eq_nil (h : s.procs.proc_list = []) : s.roots = [] := by
  rw [roots, h, List.map_nil]

/-- The root table of the process that is removed was its own. -/
theorem roots_remove (F : Trees H cfg.kernel s.roots s.m)
    (hp : s.procs.find_proc_by_pid pid = some p) :
    ((s.procs.remove_proc pid).proc_list.map Pcb.pgtable).Sublist s.roots ∧
      p.pgtable ∉ (s.procs.remove_proc pid).proc_list.map Pcb.pgtable := by
  refine ⟨ProcTable.remove_proc_sublist.map _, ?_⟩
  obtain ⟨l₁, l₂, hl, hremove⟩ := ProcTable.remove_found hp
  have hnodup := (List.nodup_cons.mp F.nodup).2
  rw [roots, hl, List.map_append, List.map_cons, List.nodup_middle] at hnodup
  rw [hremove, List.map_append]
  exact (List.nodup_cons.mp hnodup).1

/-- The same entry gives the same translation. -/
theorem translate_eq_of_entry {mem : Memory} {a b v : Word}
    (h : l1 mem a (l1pte_index v) = l1 mem b (l1pte_index v)) :
    translate H a mem v = translate H b mem v := by
  have hlookup : lookup H mem a (v.toNat / 4096) = lookup H mem b (v.toNat / 4096) := by
    rw [lookup_page, lookup_page, l2, l2, h]
  rw [translate_eq, translate_eq, hlookup]

theorem KernelShared.of_trees (F : Trees H cfg.kernel s.roots s.m) : KernelShared H cfg s := by
  have hmem : ∀ p ∈ s.procs.proc_list, p.pgtable ∈ s.roots := fun p hp => List.mem_map_of_mem hp
  constructor
  case entries => exact fun p hp => F.agree _ (hmem p hp)
  case translated =>
    intro p hp v hv
    refine translate_eq_of_entry (F.agree _ (hmem p hp) _ (l1pte_index_lt v) ?_)
    rw [l1pte_index_eq]
    omega
  case not_freed =>
    exact fun p hp => (F.tables (List.mem_cons_of_mem _ (hmem p hp))).table_live

/-- One call. -/
theorem execTable_trees (F : Trees H cfg.kernel s.roots s.m) (hn : cfg.kernel ≤ 4096)
    (hc : c.Legal cfg) (hsound : s.Sound H c) (hsettled : s.Settled H c) :
    wp (s.execTable H al cfg c) (fun s' => Trees H cfg.kernel s'.roots s'.m) (fun _ => True) := by
  cases c with
  | new_process =>
    obtain ⟨pool, hpool⟩ := F.sys.root_live
    refine wp.bind ((newImage_spec F.sys.blocks hn hpool).weaken fun _ _ => trivial) ?_
    rintro ⟨root, m'⟩ N
    have F' := F.add N hn
    have hroots : (s.procs.new_process root).2.proc_list.map Pcb.pgtable = s.roots ++ [root] :=
      List.map_append
    rw [← hroots] at F'
    exact wp_pure.mpr F'
  | create_mapping r =>
    have h := hsettled.imp_left roots_eq_nil
    refine wp.bind ((F.create_sys hn hc.1 hc.2 hsound h).weaken fun _ _ => trivial) ?_
    exact fun m' F' => wp_pure.mpr F'
  | release_mapping r =>
    have h := hsettled.imp_left roots_eq_nil
    refine wp.bind ((F.release_sys hn hc.1 hc.2 hsound h).weaken fun _ _ => trivial) ?_
    exact fun m' F' => wp_pure.mpr F'
  | map pid r =>
    simp only [execTable]
    cases hp : s.procs.find_proc_by_pid pid with
    | none => exact wp_throw.mpr trivial
    | some p =>
      have hclear := hsound p hp
      refine wp.bind ((F.create_mapping (mem_roots hp) hn hc.1 hc.2 hclear).weaken
        fun _ _ => trivial) ?_
      exact fun m' F' => wp_pure.mpr F'
  | reset_root_pgtable pid remove =>
    simp only [execTable]
    cases hp : s.procs.find_proc_by_pid pid with
    | none => exact wp_throw.mpr trivial
    | some p =>
      cases remove with
      | false =>
        refine wp.bind ((F.reset (mem_roots hp) hn).weaken fun _ _ => trivial) ?_
        exact fun m' F' => wp_pure.mpr F'
      | true =>
        obtain ⟨hsub, hgone⟩ := roots_remove F hp
        refine wp.bind ((F.reset_remove (mem_roots hp) hn hsub hgone).weaken
          fun _ _ => trivial) ?_
        exact fun m' F' => wp_pure.mpr F'

theorem TablesReached.trees (hn : cfg.kernel ≤ 4096)
    (h : TablesReached H al cfg (fun s c => s.Sound H c ∧ s.Settled H c) s) :
    Trees H cfg.kernel s.roots s.m := by
  induction h with
  | boot h =>
    rw [roots_eq_nil h.proc_list]
    exact Trees.first h.tables h.ne_zero fun i hi => h.sections i (by omega)
  | call _ hc hok hexec ih => exact (execTable_trees ih hn hc hok.1 hok.2).of_ok hexec

/-- In runs in which no call on the table of the system sets or clears one of its entries once there
is a process, all processes have the same kernel area. -/
theorem tablesReached_kernelShared (hn : cfg.kernel ≤ 4096)
    (h : TablesReached H al cfg (fun s c => s.Sound H c ∧ s.Settled H c) s) :
    KernelShared H cfg s := KernelShared.of_trees (h.trees hn)

/-! ## One page of the kernel -/

/-- The last megabyte is the kernel area. -/
def topConfig : Config := { smallConfig with kernel := 0xFFF, FIXMAP_MAPPING := 0xFFFFF000 }

/-- Nothing is mapped yet. -/
def configured : World where
  procs := {}
  m := ⟨fun _ => 0, [.alloc .image ⟨0x300000, 16384⟩], 0x300000, 0x300000⟩
  refcount := fun _ => 0

theorem configured_configured : Configured Arm.header configured where
  proc_list := rfl
  blocks := .of_apart (by decide) (by decide)
  root_live := ⟨.image, List.mem_singleton_self _⟩
  ne_zero := by decide
  sections _ _ ht := ht.1 rfl

/-- The first page of the kernel area, and the one behind it. -/
def firstPage : Request := .page 0xFFF00000 0x500000
def secondPage : Request := .page 0xFFF01000 0x501000

theorem firstPage_slot {k : Nat} : firstPage.slot k ↔ k = 0xFFF := Request.page_slot (by decide)

theorem secondPage_slot {k : Nat} : secondPage.slot k ↔ k = 0xFFF := Request.page_slot (by decide)

theorem firstPage_legal : firstPage.Range ∧
    topConfig.kernel * 2 ^ 20 ≤ firstPage.virt_base.toNat :=
  ⟨Request.page_range (by decide), by decide⟩

theorem secondPage_legal : secondPage.Range ∧
    topConfig.kernel * 2 ^ 20 ≤ secondPage.virt_base.toNat :=
  ⟨Request.page_range (by decide), by decide⟩

theorem exists_proc {f : Pcb → Word} {w : Word} (h : s.procs.proc_list.map f = [w]) :
    ∃ p ∈ s.procs.proc_list, f p = w := by
  apply List.mem_map.mp
  rw [h]
  exact List.mem_singleton_self w

theorem firstPage_clear {mem : Memory} {root : Word} (h : l1 mem root 0xFFF = 0) :
    firstPage.Clear Arm.header mem root := fun _ hk _ => .inr (firstPage_slot.mp hk ▸ h)

/-- The page is mapped, and then there is a process. -/
def mappedOnce : Except Fault World := do
  let s ← configured.execTable Arm.header Arm.allocators topConfig (.create_mapping firstPage)
  s.execTable Arm.header Arm.allocators topConfig .new_process

theorem mappedOnce_reached {ok : World → TableCall → Prop}
    (hok : ∀ s c, s.Sound Arm.header c ∧ s.Settled Arm.header c → ok s c)
    (h : mappedOnce = .ok s) : TablesReached Arm.header Arm.allocators topConfig ok s := by
  obtain ⟨s1, h1, h2⟩ := exists_of_bind_ok h
  have R : TablesReached Arm.header Arm.allocators topConfig ok configured :=
    .boot configured_configured
  have hcreate : configured.Sound Arm.header (.create_mapping firstPage) ∧
      configured.Settled Arm.header (.create_mapping firstPage) :=
    ⟨firstPage_clear rfl, .inl rfl⟩
  have R1 := R.call (c := .create_mapping firstPage) firstPage_legal (hok _ _ hcreate) h1
  exact R1.call (c := .new_process) trivial (hok _ _ ⟨trivial, trivial⟩) h2

/-- A second page goes into the table that is there. -/
theorem tablesReached_kernelShared_second : ∃ s,
    TablesReached Arm.header Arm.allocators topConfig
      (fun s c => s.Sound Arm.header c ∧ s.Settled Arm.header c) s ∧
    s.procs.proc_list.length = 1 ∧ KernelShared Arm.header topConfig s := by
  have hrun : (mappedOnce.bind fun s =>
      (s.execTable Arm.header Arm.allocators topConfig (.create_mapping secondPage)).map fun s' =>
        (decide (IsTable Arm.header (l1 s.m.mem s.m.sys_root_pgtable 0xFFF)),
          s'.procs.proc_list.length)).toOption = some (true, 1) := by
    decide +kernel
  obtain ⟨s, s', hs, hs', hinfo⟩ := exists_of_bind_eq hrun
  obtain ⟨htable, hlength⟩ := Prod.mk.inj hinfo
  have ht := of_decide_eq_true htable
  have hpresent : secondPage.Present Arm.header s.m.mem s.m.sys_root_pgtable := by
    intro k hk
    have hsmall := Request.page_not_sect secondPage_legal.1 hk
    exact ⟨fun h => absurd h hsmall, fun _ => secondPage_slot.mp hk ▸ ht⟩
  have R := (mappedOnce_reached (fun _ _ h => h) hs).call (c := .create_mapping secondPage)
    secondPage_legal ⟨hpresent.clear, .inr hpresent⟩ hs'
  exact ⟨s', R, hlength, tablesReached_kernelShared (by decide) R⟩

/-- A page that is mapped after a process has been made: the process does not have it. And one that
is mapped before and released after: the process has the table that it was in, which is free. -/
theorem not_kernelShared :
    (∃ s, TablesReached Arm.header Arm.allocators topConfig (Sound Arm.header) s ∧
      (∃ p ∈ s.procs.proc_list, l1 s.m.mem p.pgtable 0xFFF = 0) ∧
      l1 s.m.mem s.m.sys_root_pgtable 0xFFF ≠ 0 ∧ ¬KernelShared Arm.header topConfig s) ∧
    ∃ s, TablesReached Arm.header Arm.allocators topConfig (Sound Arm.header) s ∧
      (∃ p ∈ s.procs.proc_list, l1 s.m.mem p.pgtable 0xFFF = 0x100001 ∧
        (.heap, tableRegion 0x100000) ∉ live s.m.trace) ∧
      ¬KernelShared Arm.header topConfig s := by
  constructor
  · have hrun : ((configured.execTable Arm.header Arm.allocators topConfig .new_process).bind
        fun s => (s.execTable Arm.header Arm.allocators topConfig
          (.create_mapping firstPage)).map fun s' =>
        (l1 s.m.mem s.m.sys_root_pgtable 0xFFF, l1 s'.m.mem s'.m.sys_root_pgtable 0xFFF,
          s'.procs.proc_list.map fun p => l1 s'.m.mem p.pgtable 0xFFF)).toOption =
        some (0, 0x104001, [0]) := by
      decide +kernel
    obtain ⟨s, s', hs, hs', hinfo⟩ := exists_of_bind_eq hrun
    obtain ⟨hempty, hinfo⟩ := Prod.mk.inj hinfo
    obtain ⟨hsys, hprocs⟩ := Prod.mk.inj hinfo
    obtain ⟨p, hp, hzero⟩ := exists_proc hprocs
    have R : TablesReached Arm.header Arm.allocators topConfig (Sound Arm.header) s :=
      .call (c := .new_process) (.boot configured_configured) trivial trivial hs
    have R' := R.call (c := .create_mapping firstPage) firstPage_legal (firstPage_clear hempty) hs'
    refine ⟨s', R', ⟨p, hp, hzero⟩, ?_, fun h => ?_⟩
    · rw [hsys]
      decide
    · have heq := h.entries p hp 0xFFF (by decide) (by decide)
      rw [hzero, hsys] at heq
      exact absurd heq (by decide)
  · have hrun : (mappedOnce.bind fun s => (s.execTable Arm.header Arm.allocators topConfig
        (.release_mapping firstPage)).map fun s' =>
        (decide (IsTable Arm.header (l1 s.m.mem s.m.sys_root_pgtable 0xFFF)),
          decide ((.heap, tableRegion 0x100000) ∈ live s'.m.trace),
          s'.procs.proc_list.map fun p => l1 s'.m.mem p.pgtable 0xFFF)).toOption =
        some (true, false, [0x100001]) := by
      decide +kernel
    obtain ⟨s, s', hs, hs', hinfo⟩ := exists_of_bind_eq hrun
    obtain ⟨htable, hinfo⟩ := Prod.mk.inj hinfo
    obtain ⟨hfree, hprocs⟩ := Prod.mk.inj hinfo
    obtain ⟨p, hp, hstale⟩ := exists_proc hprocs
    have ht := of_decide_eq_true htable
    have hfree' := of_decide_eq_false hfree
    have R : TablesReached Arm.header Arm.allocators topConfig (Sound Arm.header) s :=
      mappedOnce_reached (fun _ _ h => h.1) hs
    have R' := R.call (c := .release_mapping firstPage) firstPage_legal
      (fun k hk _ => firstPage_slot.mp hk ▸ ht) hs'
    refine ⟨s', R', ⟨p, hp, hstale, hfree'⟩, fun h => hfree' ?_⟩
    have hlive := h.not_freed p hp 0xFFF (by decide)
    have htable : tableOf 0x100001 = 0x100000 := by decide
    rw [hstale, htable] at hlive
    exact hlive (by decide)

end World
end SyeLabs.Kernel
