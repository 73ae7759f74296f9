import SyeLabs.Mmu.Arm
import SyeLabs.Mmu.Tables
import SyeLabs.Kernel.Image

/-!
# When `do_execve` fails

The caller is told about a failure only if the file is missing, and then its name has changed
already. A page of arguments that is too small goes unnoticed: the test of the pointer for a
negative value never holds, and the old image is gone.
-/

namespace SyeLabs.Kernel

open Mmu

variable {H : Header} {al : Allocators} {cfg : Config} {elf : Elf} {w : Work}
  {filename : CString} {argv envp : Option (List ArgString)}

theorem ofString_eq_some {name : ProcName} (h : ProcName.ofString filename = some name) :
    name.val = filename.val := by
  unfold ProcName.ofString at h
  split at h
  · exact congrArg Subtype.val (Option.some.inj h).symm
  · exact nomatch h

theorem ofString_of_val {name : ProcName} (h : filename.val = name.val) :
    ProcName.ofString filename = some name := by
  have hlen : filename.val.length < PROC_NAME_LEN := h ▸ name.property.2
  rw [ProcName.ofString, dif_pos hlen]
  exact congrArg some (Subtype.ext h)

/-- What `do_execve` leaves of a process that goes on: the fields of the PCB, the user part of its
page table, and the list of its pages. -/
structure SameImage (H : Header) (cfg : Config) (w w' : Work) : Prop where
  name : w'.pcb.name = w.pcb.name
  page_count : w'.pcb.page_count = w.pcb.page_count
  stack_top : w'.pcb.stack_top = w.pcb.stack_top
  heap_base : w'.pcb.heap_base = w.pcb.heap_base
  heap_pointer : w'.pcb.heap_pointer = w.pcb.heap_pointer
  bin_image_entry : w'.pcb.bin_image_entry = w.pcb.bin_image_entry
  page_list : w'.pcb.page_list = w.pcb.page_list
  pgtable : w'.pcb.pgtable = w.pcb.pgtable
  entries : ∀ i < cfg.kernel, l1 w'.m.mem w.pcb.pgtable i = l1 w.m.mem w.pcb.pgtable i ∧
    (IsTable H (l1 w.m.mem w.pcb.pgtable i) →
      ∀ j < 256, l2 w'.m.mem w.pcb.pgtable i j = l2 w.m.mem w.pcb.pgtable i j)

/-- The file is found, and the arguments and the environment fit into a page. -/
def Builds (elf : Elf) (w : Work) (filename : CString) (argv envp : Option (List ArgString)) :
    Prop :=
  (elf.elf_load_buffer filename w.m).isSome ∧
    Fits (argStrings filename (argv.getD []).length argv ++ envStrings envp)

/-- If the new image cannot be built, the call returns -1 and the process is as before. -/
def Atomic (H : Header) (al : Allocators) (cfg : Config) (elf : Elf) (w : Work)
    (filename : CString) (argv envp : Option (List ArgString)) : Prop :=
  ¬Builds elf w filename argv envp →
    ∃ errno w', do_execve H al cfg elf w filename argv envp = .ok (.returns (-1) errno w') ∧
      SameImage H cfg w w'

/-- The failure of `preserve_args_and_env` is not passed on. -/
theorem setup_proc_image_replace_ret (elf_img_info : ElfImage) (argc : Nat) :
    wp (setup_proc_image_replace H al cfg w elf_img_info argc argv envp) (fun x => x.1 = 0)
      (fun _ => True) := by
  unfold setup_proc_image_replace
  refine wp.bind wp.trivial fun x _ => ?_
  simp only [Nat.not_lt_zero, if_false]
  refine wp.bind wp.trivial fun m _ => wp.bind wp.trivial fun w' _ => ?_
  split
  · exact wp.bind wp.trivial fun _ _ => wp_pure.mpr rfl
  · exact wp_pure.mpr rfl

/-- Once the file has been found, the call does not return. -/
theorem do_execve_ne_returns {x : ElfImage × Machine}
    (hfile : elf.elf_load_buffer filename w.m = some x) (ret : Int) (errno : Option Errno)
    (w' : Work) : do_execve H al cfg elf w filename argv envp ≠ .ok (.returns ret errno w') := by
  have hwp : wp (do_execve H al cfg elf w filename argv envp) (fun o => ∃ w', o = .exits w')
      (fun _ => True) := by
    unfold do_execve
    cases ProcName.ofString filename with
    | none => exact wp_throw.mpr trivial
    | some name =>
      simp only [hfile]
      refine wp.bind (setup_proc_image_replace_ret _ _) ?_
      rintro ⟨ret, w1⟩ rfl
      simp only [Int.lt_irrefl, if_false]
      cases load_process (translate H w1.m.current_pgtable) w1.m.mem x.1 with
      | none => exact wp_throw.mpr trivial
      | some mem => exact wp_pure.mpr ⟨_, rfl⟩
  intro h
  obtain ⟨w1, hw1⟩ := hwp.of_ok h
  exact Outcome.noConfusion hw1

theorem do_execve_not_found (hfile : elf.elf_load_buffer filename w.m = none) {name : ProcName}
    (hname : ProcName.ofString filename = some name) :
    do_execve H al cfg elf w filename argv envp =
      .ok (.returns (-1) (some .ENOENT) { w with pcb := { w.pcb with name } }) := by
  unfold do_execve
  simp only [hname, hfile]
  rfl

/-- A failing `do_execve` is atomic only if the file is missing and has the name of the process. -/
theorem atomic_iff (H : Header) (al : Allocators) (cfg : Config) (elf : Elf) (w : Work)
    (filename : CString) (argv envp : Option (List ArgString)) :
    Atomic H al cfg elf w filename argv envp ↔
      Builds elf w filename argv envp ∨
        (elf.elf_load_buffer filename w.m = none ∧ filename.val = w.pcb.name.val) := by
  constructor
  · intro h
    refine or_iff_not_imp_left.mpr fun hb => ?_
    obtain ⟨errno, w', hrun, hsame⟩ := h hb
    cases hfile : elf.elf_load_buffer filename w.m with
    | some x => exact absurd hrun (do_execve_ne_returns hfile _ _ _)
    | none =>
      refine ⟨rfl, ?_⟩
      cases hname : ProcName.ofString filename with
      | none =>
        rw [do_execve, hname] at hrun
        exact absurd hrun nofun
      | some name =>
        rw [do_execve_not_found hfile hname] at hrun
        obtain ⟨-, -, rfl⟩ := Outcome.returns.inj (Except.ok.inj hrun)
        rw [← ofString_eq_some hname, ← hsame.name]
  · rintro (hb | ⟨hfile, hname⟩) hnb
    · exact absurd hb hnb
    · refine ⟨_, _, do_execve_not_found hfile (ofString_of_val hname), ?_⟩
      exact ⟨rfl, rfl, rfl, rfl, rfl, rfl, rfl, rfl, fun _ _ => ⟨rfl, fun _ _ _ => rfl⟩⟩

/-! ## Two calls that fail -/

/-- A file system with one file, `ls`. -/
def lsElf : Elf where
  elf_load_buffer filename m :=
    if filename.val = bytes "ls" then some (⟨0x1000, 1, [], [], 0⟩, m) else none
  elf_clean_image _ m := m

def lsName : CString := ⟨bytes "ls", by decide⟩
def catName : CString := ⟨bytes "cat", by decide⟩

/-- A missing file, and arguments that are too long: the new image is there, without them. -/
theorem not_atomic :
    ¬Atomic Arm.header Arm.allocators smallConfig lsElf emptyProcess catName none none ∧
    (∃ w, do_execve Arm.header Arm.allocators smallConfig lsElf emptyProcess lsName
      (some [longArg]) none = .ok (.exits w)) ∧
    ¬Atomic Arm.header Arm.allocators smallConfig lsElf emptyProcess lsName (some [longArg])
      none := by
  refine ⟨fun h => ?_, ?_, fun h => ?_⟩
  · obtain ⟨errno, w', hrun, hsame⟩ := h fun hb => absurd hb.1 (by decide)
    have hname : ProcName.ofString catName = some ⟨bytes "cat", by decide⟩ := rfl
    rw [do_execve_not_found (by decide) hname] at hrun
    obtain ⟨-, -, rfl⟩ := Outcome.returns.inj (Except.ok.inj hrun)
    exact absurd hsame.name (by decide)
  · have hrun : (do_execve Arm.header Arm.allocators smallConfig lsElf emptyProcess lsName
        (some [longArg]) none).isOk = true := by decide +kernel
    obtain ⟨o, ho⟩ := exists_of_isOk hrun
    cases o with
    | exits w => exact ⟨w, ho⟩
    | returns ret errno w =>
      have hload : lsElf.elf_load_buffer lsName emptyProcess.m =
          some (⟨0x1000, 1, [], [], 0⟩, emptyProcess.m) := rfl
      exact absurd ho (do_execve_ne_returns hload _ _ _)
  · have hb : ¬Builds lsElf emptyProcess lsName (some [longArg]) none := by
      rintro ⟨-, hfit⟩
      have hone : argStrings lsName.val 1 (some [longArg]) = [List.replicate 5000 97] := rfl
      have henv : envStrings none = [] := rfl
      have hlen : ((some [longArg]).getD []).length = 1 := rfl
      rw [hlen, hone, henv, List.append_nil, Fits, stringsSize_cons, List.length_replicate] at hfit
      exact absurd hfit (by decide)
    obtain ⟨errno, w', hrun, -⟩ := h hb
    exact do_execve_ne_returns (x := (⟨0x1000, 1, [], [], 0⟩, emptyProcess.m)) rfl _ _ _ hrun

end SyeLabs.Kernel
