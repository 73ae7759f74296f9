import SyeLabs.Kernel.Family
import SyeLabs.Kernel.Owners
import SyeLabs.Kernel.Tenancy
import SyeLabs.Mmu.KernelArea

/-!
# Cleaning a child

`do_waitpid` on the state of all processes: the page tables of the child go back to the heap, its
PCB leaves the list, and the status of the child is stored through the table of the caller. The
others do not notice, as long as the caller has the status stored in its own memory.
-/

namespace SyeLabs.Kernel

open Mmu ProcTable

variable {H : Header} {cfg : Config} {m m' : Machine} {a c : Word} {p q : Pcb}
  {l l₁ l₂ : List Pcb} {G : List Word} {s s' : World} {i : Int} {nohang : Bool}

namespace World

/-- A call of `reset_root_pgtable` by `do_waitpid`. -/
def teardown (H : Header) (cfg : Config) (s : World) (m : Machine) (t : Teardown) :
    Except Fault Machine :=
  match s.procs.find_proc_by_pid t.pid with
  | none => throw .dataAbort
  | some child => reset_root_pgtable H cfg.kernel m child.pgtable true

/-- A byte of physical memory is written. -/
def poke (s : World) (x : Word) (b : Byte) : World :=
  { s with m := { s.m with mem := Function.update s.m.mem x b } }

/-- Bytes are written one after the other; `tr` is the translation before the first of them. -/
def pokes (s : World) (tr : Word → Option Word) : List (Word × Byte) → Option World
  | [] => some s
  | (v, b) :: bs => do
    let x ← tr v
    (s.poke x b).pokes tr bs

/-- `*wstatus = w` in the kernel, through the table of the caller. -/
def putStatus (H : Header) (s : World) (pgtable wstatus : Word) : Option Word → Except Fault World
  | none => pure s
  | some w =>
    match s.pokes (translate H pgtable s.m.mem) (Memory.wordBytes wstatus w) with
    | none => throw .dataAbort
    | some s => pure s

/-- `do_waitpid`, with the pointer `wstatus` as the caller gives it. A call that blocks has no
outcome before the thread of the child has finished. -/
def do_waitpid (H : Header) (cfg : Config) (s : World) (caller : Pcb) (pid : Int) (wstatus : Word)
    (nohang : Bool) : Except Fault World :=
  match Kernel.do_waitpid { procs := s.procs } caller.pid pid (wstatus ≠ 0) nohang with
  | (none, _) => throw .bug
  | (some ret, t) => do
    let m ← t.teardowns.foldlM (s.teardown H cfg) s.m
    -- the last of the stores to `*wstatus`, which the one before it does not outlive
    { s with procs := t.procs, m }.putStatus H caller.pgtable wstatus ret.wstatus

/-- What a call stores for a child that has exited, and for a pid that no process has. -/
def IsStatus (w : Word) : Prop := w = ~~~0x7f ∨ ∃ child, w = exitStatus child

/-- The child has no children of its own that would keep it, and no ptrace request. -/
def Cleans (s : World) (pid : Int) (nohang : Bool) : Prop :=
  ∀ child, ({ procs := s.procs } : System).target pid = some child →
    (nohang = true ∧ child.state ≠ .ZOMBIE) ∨
    (child.state = .ZOMBIE ∧ child.ptrace_pending_req = .NO_REQUEST ∧
      s.procs.find_proc_by_parent child.pid = none)

instance decidableCleans (s : World) (pid : Int) (nohang : Bool) :
    Decidable (s.Cleans pid nohang) :=
  inferInstanceAs (Decidable (∀ child ∈ ({ procs := s.procs } : System).target pid,
    (nohang = true ∧ child.state ≠ .ZOMBIE) ∨
    (child.state = .ZOMBIE ∧ child.ptrace_pending_req = .NO_REQUEST ∧
      s.procs.find_proc_by_parent child.pid = none)))

end World

/-! ## The root table -/

/-- The root table at `a` is given back. -/
def dropRoot (m : Machine) (a : Word) : Machine := { m with trace := .free .heap a :: m.trace }

theorem free_eq_dropRoot (ha : (.heap, rootRegion a) ∈ live m.trace) :
    m.free a = .ok (dropRoot m a) := by
  have hany : ((live m.trace).any fun b => b.1 = .heap && b.2.base = a) = true :=
    List.any_eq_true.mpr ⟨_, ha, by simp [rootRegion]⟩
  rw [Machine.free, if_pos hany]
  rfl

section
variable (B : BlocksOk (live m.trace)) (ha : (.heap, rootRegion a) ∈ live m.trace)
include B ha

theorem mem_live_dropRoot {b : Pool × Region} (hb : b ∈ live m.trace)
    (hne : b ≠ (.heap, rootRegion a)) : b ∈ live (dropRoot m a).trace :=
  (B.mem_live_free ha).mpr ⟨hb, hne⟩

theorem Kept.dropRoot (T : TablesOk H m c) (hne : c ≠ a) : Kept H cfg m (dropRoot m a) c where
  tables := by
    obtain ⟨pool, hpool⟩ := T.root_live
    refine ⟨B.sublist List.filter_sublist, ⟨pool, mem_live_dropRoot B ha hpool fun h => ?_⟩,
      fun i hi ht => mem_live_dropRoot B ha (T.table_live i hi ht) fun h => ?_, T.inj⟩
    · exact hne (congrArg (fun b => b.2.base) h)
    · exact rootRegion_ne_tableRegion _ _ (congrArg Prod.snd h).symm
  stays := Stays.refl _

end

/-- Processes whose trees have other root tables. -/
theorem Neighbours.dropRoot (K : Neighbours H cfg l m) (hn : cfg.kernel ≤ 4096)
    (ha : (.heap, rootRegion a) ∈ live m.trace) (hl : ∀ q ∈ l, q.pgtable ≠ a)
    (hsys : m.sys_root_pgtable ≠ a) : Neighbours H cfg l (dropRoot m a) := by
  have B := K.sys.tables.blocks
  have hkept : ∀ q ∈ l, Kept H cfg m (Kernel.dropRoot m a) q.pgtable := fun q hq =>
    .dropRoot B ha (K.homes q hq).tables (hl q hq)
  have hkeptSys : Kept H cfg m (Kernel.dropRoot m a) m.sys_root_pgtable :=
    .dropRoot B ha K.sys.tables hsys
  constructor
  case sys =>
    obtain ⟨r, hr, hsub⟩ := K.sys.image
    exact ⟨hkeptSys.tables, K.sys.user, K.sys.window, r, mem_live_dropRoot B ha hr nofun, hsub⟩
  case homes =>
    intro q hq
    have h := K.homes q hq
    refine ⟨h.toTree.stays hn (hkept q hq).tables (Stays.refl _), ?_, h.maps, h.mapped⟩
    exact mem_live_dropRoot B ha h.root fun heq => hl q hq (congrArg (fun b => b.2.base) heq)
  case beside => exact fun q hq => (hkept q hq).beside hkeptSys (K.beside q hq)
  case strangers =>
    exact K.strangers.imp_of_mem fun hp hq h =>
      ⟨h.pid, (hkept _ hp).beside (hkept _ hq) h.left, (hkept _ hq).beside (hkept _ hp) h.right⟩

/-- A process is gone with its tree; the processes `l` and the system are as before. -/
structure Cleaned (H : Header) (cfg : Config) (G : List Word) (l : List Pcb) (m m' : Machine) :
    Prop where
  kin : Neighbours H cfg l m'
  slots : ∀ q ∈ l, SameSlots H cfg.kernel q.pgtable m.mem m'.mem
  spares : Spares G m m'
  frames : onPool .frames m'.trace = onPool .frames m.trace
  sys_root : m'.sys_root_pgtable = m.sys_root_pgtable

theorem reset_root_pgtable_cleaned (K : Neighbours H cfg (p :: l) m) (hn : cfg.kernel ≤ 4096) :
    wp (reset_root_pgtable H cfg.kernel m p.pgtable true) (Cleaned H cfg G l m)
      (fun _ => False) := by
  have h := K.homes p List.mem_cons_self
  have hsys := K.beside p List.mem_cons_self
  have hl : ∀ q ∈ l, Beside H cfg.OwnSlot p.pgtable q.pgtable m := fun q hq => (K.head q hq).left
  rw [reset_root_pgtable_remove]
  refine wp.bind ((reset_root_pgtable_spec (U := cfg.OwnSlot) h.tables hn fun _ => Or.inl).and
    (reset_root_pgtable_spares (G := G) h.tables hn h.root)) ?_
  rintro m1 ⟨E, hspares⟩
  have hroot := E.root _ h.root rfl
  rw [free_eq_dropRoot hroot, wp_ok]
  have K1 := (K.tail.leaves hn (Confined.leaves E.toConfined hl hsys)).dropRoot hn hroot
    (fun q hq => (hl q hq).ne.symm) (E.sys_root ▸ hsys.ne.symm)
  have hfree : onPool .frames (dropRoot m1 p.pgtable).trace = onPool .frames m1.trace :=
    onPool_cons_of_ne _ nofun
  exact ⟨K1, fun q hq => (E.beside _ (hl q hq)).2.sameSlots hn fun _ => Or.inl,
    hspares.trans (.free _), hfree.trans E.frames, E.sys_root⟩

/-! ## The list -/

namespace ProcTable
variable {t : ProcTable} {f : Pcb → Pcb}

theorem find_proc_by_pid_append (hl : t.proc_list = l₁ ++ p :: l₂)
    (hne : ∀ q ∈ l₁ ++ l₂, q.pid ≠ p.pid) : t.find_proc_by_pid p.pid = some p := by
  have hnone : l₁.find? (fun q => (q.pid : Int) = p.pid) = none :=
    List.find?_eq_none.mpr fun q hq => by simpa using hne q (List.mem_append_left _ hq)
  rw [find_proc_by_pid, hl, List.find?_append, hnone, List.find?_cons]
  simp

theorem remove_proc_modify (hl : t.proc_list = l₁ ++ p :: l₂)
    (hne : ∀ q ∈ l₁ ++ l₂, q.pid ≠ p.pid) (hf : (f p).pid = p.pid) :
    (t.modify p.pid f).remove_proc p.pid = { t with proc_list := l₁ ++ l₂ } := by
  have hother : ∀ l ⊆ l₁ ++ l₂, (l.map fun q => if q.pid = p.pid then f q else q) = l := by
    intro l hsub
    exact (List.map_congr_left fun q hq => if_neg (hne q (hsub hq))).trans (List.map_id l)
  have hmap : (t.modify p.pid f).proc_list = l₁ ++ f p :: l₂ := by
    rw [modify, hl, List.map_append, List.map_cons, if_pos rfl,
      hother l₁ (List.subset_append_left _ _), hother l₂ (List.subset_append_right _ _)]
  have hskip : ∀ q ∈ l₁, ¬decide (q.pid = p.pid) = true := fun q hq => by
    simpa using hne q (List.mem_append_left _ hq)
  rw [remove_proc, hmap, List.eraseP_append_right _ hskip, List.eraseP_cons_of_pos (by simpa)]
  rfl

end ProcTable

/-! ## The call -/

namespace World

theorem do_waitpid_leave_zombie {t : System} (hl : t.procs.proc_list = l₁ ++ p :: l₂)
    (hne : ∀ q ∈ l₁ ++ l₂, q.pid ≠ p.pid) (hz : p.state = .ZOMBIE)
    (htrace : p.ptrace_pending_req = .NO_REQUEST)
    (hkin : t.procs.find_proc_by_parent p.pid = none) (wstatus flags : Bool) :
    do_waitpid_leave (thread_join t p) p wstatus flags =
      ({ value := p.pid, wstatus := if wstatus then some (exitStatus p) else none }, { t with
        procs := { t.procs with proc_list := l₁ ++ l₂ }
        teardowns := t.teardowns ++ [⟨p.pid, .ZOMBIE⟩]
        irqs := flags }) := by
  have hjoin : ((thread_join t p).procs.find_proc_by_parent p.pid).isNone := by
    rw [find_proc_by_parent_isNone_iff, kin_thread_join, ← find_proc_by_parent_isNone_iff, hkin]
    rfl
  simp only [do_waitpid_leave, clean_proc, hz, htrace, decide_true, Bool.and_self, if_true,
    hjoin, thread_join_teardowns]
  rw [thread_join, remove_proc_modify hl hne rfl]

/-- A zombie has been cleaned and taken out of the list. -/
def Reaped (H : Header) (cfg : Config) (s s' : World) : Prop :=
  ∃ l₁ p l₂ m', s.procs.proc_list = l₁ ++ p :: l₂ ∧ p.state = .ZOMBIE ∧
    reset_root_pgtable H cfg.kernel s.m p.pgtable true = .ok m' ∧
    s' = { s with procs := { s.procs with proc_list := l₁ ++ l₂ }, m := m' }

/-- A call finds nobody to clean, or cleans a zombie and takes it out of the list; and then it may
store a status. -/
theorem do_waitpid_cases (hpids : (s.procs.proc_list.map Pcb.pid).Nodup) (hc : Cleans s i nohang)
    (caller : Pcb) (wstatus : Word) (h : s.do_waitpid H cfg caller i wstatus nohang = .ok s') :
    ∃ s₁ status, (s₁ = s ∨ Reaped H cfg s s₁) ∧ (∀ w ∈ status, wstatus ≠ 0 ∧ IsStatus w) ∧
      s₁.putStatus H caller.pgtable wstatus status = .ok s' := by
  rw [do_waitpid] at h
  cases ht : ({ procs := s.procs } : System).target i with
  | none =>
    obtain ⟨r, b, hr, -, -, hstatus⟩ := do_waitpid_of_none caller.pid (wstatus ≠ 0) nohang ht
    rw [hr] at h
    refine ⟨s, r.wstatus, .inl rfl, fun w hw => ?_, h⟩
    obtain ⟨hnull, hw⟩ := hstatus w hw
    exact ⟨of_decide_eq_true hnull, .inl hw⟩
  | some p =>
    rcases hc p ht with ⟨rfl, hz⟩ | ⟨hz, htrace, hkin⟩
    · rw [do_waitpid_of_nohang caller.pid _ ht hz] at h
      exact ⟨s, none, .inl rfl, fun w hw => absurd hw (Option.not_mem_none w), h⟩
    · have hmem := System.target_mem ht
      obtain ⟨l₁, l₂, hl⟩ := List.append_of_mem hmem
      have hwait : p.state ≠ .WAITING := by
        rw [hz]
        decide
      have hne : ∀ q ∈ l₁ ++ l₂, q.pid ≠ p.pid := by
        intro q hq heq
        have hperm : (l₁ ++ p :: l₂).Perm (p :: (l₁ ++ l₂)) := List.perm_middle
        have hnodup := (hperm.map Pcb.pid).nodup_iff.mp (hl ▸ hpids)
        exact (List.nodup_cons.mp hnodup).1 (heq ▸ List.mem_map_of_mem hq)
      have hj : do_waitpid_child { procs := s.procs, irqs := false } p nohang = .joins p _ :=
        do_waitpid_child_eq_joins _ htrace hwait fun _ => hz
      by_cases hrun : p.main_thread = some { finished := false }
      · rw [do_waitpid_of_running caller.pid _ ht hj hrun] at h
        cases h
      · rw [do_waitpid_of_finished caller.pid _ ht hj hrun,
          do_waitpid_leave_zombie (t := { procs := s.procs, irqs := false }) hl hne hz htrace hkin]
          at h
        obtain ⟨m', hm', h⟩ := exists_of_bind_ok h
        obtain ⟨m'', hreset, hm'⟩ := exists_of_bind_ok hm'
        cases hm'
        rw [teardown, find_proc_by_pid_append hl hne] at hreset
        refine ⟨_, _, .inr ⟨l₁, p, l₂, m', hl, hz, hreset, rfl⟩, fun w hw => ?_, h⟩
        obtain ⟨hnull, hw⟩ := Option.ite_none_right_eq_some.mp (Option.mem_def.mp hw)
        exact ⟨of_decide_eq_true hnull, .inr ⟨p, (Option.some.inj hw).symm⟩⟩

end World
end SyeLabs.Kernel
