import SyeLabs.Kernel.Exec
import SyeLabs.Kernel.Reaping
import SyeLabs.Kernel.World

/-!
# The interrupt flag

Four calls save the local interrupts at their entry. `do_fork` does not restore them if it is not
called by the main thread, nor does `do_waitpid` if there is no process of the pid, or if it answers
0 at once. All other ways back to the caller leave the flag as it was.
-/

namespace SyeLabs.Kernel

open Mmu

/-- The processes with the interrupt flag, the machine, and the reference counts of the frames. -/
structure Cpu where
  sys : System
  m : Machine
  refcount : Word → Nat

/-- A call returns, its thread blocks in `thread_join`, or it ends in `thread_exit`. -/
inductive Exit where
  | returns (value : Int) (c : Cpu)
  | blocks (c : Cpu)
  | exits (c : Cpu)

namespace Cpu

def world (c : Cpu) : World := ⟨c.sys.procs, c.m, c.refcount⟩

def setWorld (c : Cpu) (s : World) : Cpu where
  sys := { c.sys with procs := s.procs }
  m := s.m
  refcount := s.refcount

def local_irq_save (c : Cpu) : Bool × Cpu :=
  (c.sys.irqs, { c with sys := { c.sys with irqs := false } })

def local_irq_restore (c : Cpu) (flags : Bool) : Cpu :=
  { c with sys := { c.sys with irqs := flags } }

section
variable (H : Header) (al : Allocators) (cfg : Config) (elf : Elf)

/-- `main` tells whether the main thread of the parent makes the call. -/
def do_fork (c : Cpu) (parent : Pcb) (main : Bool) : Except Fault Exit := do
  let (flags, c) := c.local_irq_save
  if !main then return .returns (-1) c
  let pid := c.sys.procs.pid_current
  let s ← c.world.do_fork H al cfg parent
  let c := c.setWorld s
  if c.sys.irqs then throw .bug
  return .returns pid (c.local_irq_restore flags)

def do_fork2 (c : Cpu) (parent : Pcb) (main : Bool) : Except Fault Exit :=
  c.do_fork H al cfg parent main

def do_waitpid (c : Cpu) (pcb : Pcb) (pid : Int) (wstatus nohang : Bool) : Exit :=
  match Kernel.do_waitpid c.sys pcb.pid pid wstatus nohang with
  | (some r, sys) => .returns r.value { c with sys }
  | (none, sys) => .blocks { c with sys }

/-- The call by the main thread. -/
def do_execve (c : Cpu) (pcb : Pcb) (filename : CString) (argv envp : Option (List ArgString)) :
    Except Fault Exit := do
  let argc := (argv.getD []).length
  let (flags, c) := c.local_irq_save
  match ProcName.ofString filename with
  | none => throw .overrun
  | some name =>
    let w := c.world.running { pcb with name }
    match elf.elf_load_buffer filename w.m with
    | none => return .returns (-1) ((c.setWorld (c.world.leave w)).local_irq_restore flags)
    | some (elf_img_info, m) =>
      let (ret, w) ← setup_proc_image_replace H al cfg { w with m } elf_img_info argc argv envp
      if ret < 0 then return .returns ret (c.setWorld (c.world.leave w))
      else
        match load_process (translate H w.m.current_pgtable) w.m.mem elf_img_info with
        | none => throw .dataAbort
        | some mem =>
          let m := elf.elf_clean_image elf_img_info { w.m with mem }
          let w := { w with m, pcb := { w.pcb with main_thread := some {} } }
          return .exits (c.setWorld (c.world.leave w))

end

inductive Call where
  | do_fork (main : Bool)
  | do_fork2 (main : Bool)
  | do_waitpid (pid : Int) (wstatus nohang : Bool)
  | do_execve (filename : CString) (argv envp : Option (List ArgString))

def exec (H : Header) (al : Allocators) (cfg : Config) (elf : Elf) (c : Cpu) (pcb : Pcb) :
    Call → Except Fault Exit
  | .do_fork main => c.do_fork H al cfg pcb main
  | .do_fork2 main => c.do_fork2 H al cfg pcb main
  | .do_waitpid pid wstatus nohang => .ok (c.do_waitpid pcb pid wstatus nohang)
  | .do_execve filename argv envp => c.do_execve H al cfg elf pcb filename argv envp

/-- The flag is as at the entry, also if the call returns only when it has been blocked. -/
def Balanced (c : Cpu) : Exit → Prop
  | .returns _ c' => c'.sys.irqs = c.sys.irqs
  | .blocks c' => ∃ w, c'.sys.waits = c.sys.waits ++ [w] ∧
      ∀ s r s', do_waitpid_resume s w = some (r, s') → s'.irqs = c.sys.irqs
  | .exits _ => True

/-- The call takes none of the ways back that leave the interrupts disabled. -/
def Restores (c : Cpu) : Call → Prop
  | .do_fork main => main = true
  | .do_fork2 main => main = true
  | .do_waitpid pid _ nohang => (c.sys.target pid = none → pid = -1) ∧
      ∀ child, c.sys.target pid = some child → nohang = true → child.state = .ZOMBIE
  | .do_execve _ _ _ => True

variable {H : Header} {al : Allocators} {cfg : Config} {elf : Elf} {c : Cpu} {pcb : Pcb}

/-! ## `do_waitpid` -/

theorem irqs_leave (s : System) (child : Pcb) (wstatus flags : Bool) :
    (do_waitpid_leave s child wstatus flags).2.irqs = flags := by
  unfold do_waitpid_leave
  split
  · rfl
  · split <;> rfl

theorem irqs_resume {s s' : System} {w : Wait} {r : Ret}
    (h : do_waitpid_resume s w = some (r, s')) : s'.irqs = w.flags := by
  simp only [do_waitpid_resume, Option.bind_eq_bind, Option.bind_eq_some_iff,
    Option.ite_none_left_eq_some, Option.pure_def, Option.some.injEq] at h
  obtain ⟨child, -, -, h⟩ := h
  rw [← irqs_leave _ child w.wstatus w.flags, h]

/-- Nothing happens to the list of blocked calls before `thread_join`. -/
inductive EntryCases (s : System) (child : Pcb) (nohang : Bool) : Entry → Prop
  | returns (hn : nohang = true) (hz : child.state ≠ .ZOMBIE) :
    EntryCases s child nohang (.returns { value := 0 } s)
  | joins (child' : Pcb) (s' : System) (hn : nohang = true → child.state = .ZOMBIE)
    (hwaits : s'.waits = s.waits) : EntryCases s child nohang (.joins child' s')
  | passes (hn : nohang = true → child.state = .ZOMBIE) :
    EntryCases s child nohang (.passes child s)

theorem entryCases (s : System) (child : Pcb) (nohang : Bool) :
    EntryCases s child nohang (do_waitpid_child s child nohang) := by
  unfold do_waitpid_child
  split
  · next h =>
    simp only [Bool.and_eq_true, decide_eq_true_eq] at h
    exact .returns h.1 h.2
  · next h =>
    simp only [Bool.and_eq_true, decide_eq_true_eq, not_and, not_not] at h
    split
    · exact .joins _ _ h rfl
    · split
      · exact .joins _ _ h rfl
      · exact .passes h

theorem do_waitpid_balanced (i : Int) (wstatus nohang : Bool) :
    Balanced c (c.do_waitpid pcb i wstatus nohang) ↔
      (c.sys.irqs = true → Restores c (.do_waitpid i wstatus nohang)) := by
  have hoff : false = c.sys.irqs ↔ ¬c.sys.irqs = true := by
    rw [eq_comm, Bool.not_eq_true]
  cases ht : c.sys.target i with
  | none =>
    have hR : Restores c (.do_waitpid i wstatus nohang) ↔ i = -1 := by
      simp [Restores, ht]
    rw [hR]
    unfold System.target at ht
    by_cases hi : i = -1
    · rw [if_pos hi] at ht
      simp [do_waitpid, Kernel.do_waitpid, do_waitpid_enter, hi, ht, Balanced]
    · rw [if_neg hi] at ht
      simp [do_waitpid, Kernel.do_waitpid, do_waitpid_enter, hi, ht, Balanced]
  | some child =>
    have hR : Restores c (.do_waitpid i wstatus nohang) ↔
        (nohang = true → child.state = .ZOMBIE) := by
      simp [Restores, ht]
    rw [hR]
    unfold do_waitpid Kernel.do_waitpid
    rw [do_waitpid_enter_eq c.sys i wstatus nohang ht]
    have hcases := entryCases { c.sys with irqs := false } child nohang
    generalize do_waitpid_child { c.sys with irqs := false } child nohang = e at hcases
    cases hcases with
    | returns hn hz => exact hoff.trans (by simp [hn, hz])
    | joins child' s' hn hwaits =>
      refine iff_of_true ?_ fun _ => hn
      simp only
      split
      · next heq =>
        split at heq
        · cases heq
        · obtain ⟨-, rfl⟩ := Prod.mk.inj heq
          exact irqs_leave ..
      · next heq =>
        split at heq
        · obtain ⟨-, rfl⟩ := Prod.mk.inj heq
          refine ⟨_, congrArg (· ++ _) hwaits, fun s r s' h => irqs_resume h⟩
        · cases heq
    | passes hn => exact iff_of_true (irqs_leave ..) fun _ => hn

theorem do_fork_balanced (main : Bool) :
    (∀ e, c.do_fork H al cfg pcb main = .ok e → Balanced c e) ↔
      (c.sys.irqs = true → main = true) := by
  cases main with
  | false =>
    constructor
    · intro h hirqs
      have hoff : false = c.sys.irqs := h _ rfl
      exact absurd (hoff.trans hirqs) Bool.false_ne_true
    · intro h e he
      cases he
      exact (Bool.eq_false_iff.mpr fun hirqs => Bool.noConfusion (h hirqs)).symm
  | true =>
    refine iff_of_true (fun e he => ?_) fun _ => rfl
    have hwp : wp (c.do_fork H al cfg pcb true) (Balanced c) (fun _ => True) := by
      unfold do_fork
      simp only [Bool.not_true, Bool.false_eq_true, if_false]
      refine wp.bind wp.trivial fun s _ => ?_
      exact wp_pure.mpr rfl
    exact hwp.of_ok he

/-! ## `do_execve` -/

/-- What is left of an outcome of `do_execve`, with the interrupt flag. -/
def exitOf (c : Cpu) : Outcome → Exit
  | .returns ret _ w => .returns ret (c.setWorld (c.world.leave w))
  | .exits w => .exits (c.local_irq_save.2.setWorld (c.world.leave w))

/-- Apart from the flag this is the `do_execve` of a process; its way back without a restoration is
never taken. -/
theorem do_execve_eq (filename : CString) (argv envp : Option (List ArgString)) :
    c.do_execve H al cfg elf pcb filename argv envp =
      (Kernel.do_execve H al cfg elf (c.world.running pcb) filename argv envp).map c.exitOf := by
  unfold do_execve Kernel.do_execve
  cases ProcName.ofString filename with
  | none => rfl
  | some name =>
    have hrun : c.local_irq_save.2.world.running { pcb with name } =
        { c.world.running pcb with pcb := { (c.world.running pcb).pcb with name } } := rfl
    simp only [hrun]
    generalize c.world.running pcb = w
    cases elf.elf_load_buffer filename w.m with
    | none => rfl
    | some x =>
      simp only
      generalize hsetup : setup_proc_image_replace H al cfg _ x.1 _ argv envp = out
      cases out with
      | error e => rfl
      | ok y =>
        obtain ⟨ret, w1⟩ := y
        obtain rfl : ret = 0 := (setup_proc_image_replace_ret _ _).of_ok hsetup
        simp only [bind, Except.bind, Int.lt_irrefl, if_false]
        cases load_process (translate H w1.m.current_pgtable) w1.m.mem x.1 with
        | none => rfl
        | some mem => rfl

theorem do_execve_balanced (filename : CString) (argv envp : Option (List ArgString)) {e : Exit}
    (h : c.do_execve H al cfg elf pcb filename argv envp = .ok e) : Balanced c e := by
  rw [do_execve_eq] at h
  cases hout : Kernel.do_execve H al cfg elf (c.world.running pcb) filename argv envp with
  | error f =>
    rw [hout] at h
    cases h
  | ok o =>
    rw [hout] at h
    cases h
    cases o with
    | returns ret errno w => rfl
    | exits w => trivial

/-- Every call that returns leaves the interrupt flag as it was, exactly if the interrupts are
disabled at its entry or it takes none of the ways back that forget them. -/
theorem exec_balanced_iff (H : Header) (al : Allocators) (cfg : Config) (elf : Elf) (c : Cpu)
    (pcb : Pcb) (call : Call) :
    (∀ e, c.exec H al cfg elf pcb call = .ok e → Balanced c e) ↔
      (c.sys.irqs = true → Restores c call) := by
  cases call with
  | do_fork main => exact do_fork_balanced main
  | do_fork2 main => exact do_fork_balanced main
  | do_waitpid i wstatus nohang =>
    have h : Balanced c (c.do_waitpid pcb i wstatus nohang) ↔ _ :=
      do_waitpid_balanced i wstatus nohang
    rw [← h]
    exact ⟨fun h => h _ rfl, fun h e he => Except.ok.inj he ▸ h⟩
  | do_execve filename argv envp =>
    exact iff_of_true (fun e => do_execve_balanced filename argv envp) fun _ => trivial

/-- The root process with its first child, which runs. -/
def idleCpu : Cpu where
  sys := { procs :=
    { proc_list :=
        [rootProc, { pid := 2, parent := some 1, state := .READY, main_thread := some {} }]
      pid_current := 3 } }
  m := Arm.rooted
  refcount := fun _ => 0

/-- A call of the root process returns with another flag. -/
def LosesFlag (call : Call) : Prop :=
  ∃ v c', idleCpu.exec Arm.header Arm.allocators smallConfig lsElf rootProc call =
    .ok (.returns v c') ∧ c'.sys.irqs ≠ idleCpu.sys.irqs

/-- A fork by another thread, an unknown pid, and `WNOHANG` with a child that runs. -/
theorem not_balanced : LosesFlag (.do_fork false) ∧ LosesFlag (.do_fork2 false) ∧
    LosesFlag (.do_waitpid 7 false false) ∧ LosesFlag (.do_waitpid 2 false true) :=
  ⟨⟨-1, _, rfl, Bool.false_ne_true⟩, ⟨-1, _, rfl, Bool.false_ne_true⟩,
    ⟨-1, _, rfl, Bool.false_ne_true⟩, ⟨0, _, rfl, Bool.false_ne_true⟩⟩

end Cpu
end SyeLabs.Kernel
