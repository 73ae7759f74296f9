import SyeLabs.Kernel.Waitpid

/-!
# The names of processes

`do_fork` appends to the name of the parent and `do_execve` copies the name of a file, both without
a bound. Here a name is the string that has been copied to the field `name`, however long it is. It
is the name of the last file that has been executed with the pids of all forks since then.
-/

namespace SyeLabs.Kernel
open ProcTable

structure NamedPcb where
  pid : Nat
  name : CString
  deriving DecidableEq

structure NameTable where
  proc_list : List NamedPcb := []
  pid_current : Nat := 1
  deriving DecidableEq

/-- `"_child_%d"`. -/
def childSuffix (pid : Nat) : List Byte := [95, 99, 104, 105, 108, 100, 95] ++ decimal pid

theorem zero_notMem_childSuffix (pid : Nat) : (0 : Byte) ∉ childSuffix pid := by
  have hdigit : (0 : Byte) ∉ decimal pid := fun h => absurd (isDigit_decimal h) (by decide)
  simpa [childSuffix] using hdigit

/-- `sprintf(newp->name, "%s_child_%d", parent->name, newp->pid)`. -/
def childString (name : CString) (pid : Nat) : CString :=
  ⟨name.val ++ childSuffix pid, by
    simpa using ⟨name.property, zero_notMem_childSuffix pid⟩⟩

def emptyName : CString := ⟨[], by decide⟩

namespace NameTable

def find_proc_by_pid (t : NameTable) (pid : Nat) : Option NamedPcb :=
  t.proc_list.find? fun pcb => pcb.pid = pid

/-- The PCB is cleared, so its name is empty. -/
def new_process (t : NameTable) : Nat × NameTable :=
  (t.pid_current,
    { proc_list := t.proc_list ++ [⟨t.pid_current, emptyName⟩]
      pid_current := t.pid_current + 1 })

def setName (t : NameTable) (pid : Nat) (name : CString) : NameTable :=
  { t with
    proc_list := t.proc_list.map fun pcb => if pcb.pid = pid then { pcb with name } else pcb }

def create_root_process : NameTable := (new_process {}).2

/-- `main` tells whether the main thread of the parent makes the call. -/
def do_fork (t : NameTable) (parent : NamedPcb) (main : Bool) : NameTable :=
  if main then
    let (pid, t) := t.new_process
    t.setName pid (childString parent.name pid)
  else t

def do_fork2 (t : NameTable) (parent : NamedPcb) (main : Bool) : NameTable :=
  t.do_fork parent main

/-- The name is copied before the file is looked for. -/
def do_execve (t : NameTable) (pcb : NamedPcb) (filename : CString) : NameTable :=
  t.setName pcb.pid filename

end NameTable

inductive NameCall where
  | do_fork (caller : Nat) (main : Bool)
  | do_fork2 (caller : Nat) (main : Bool)
  | do_execve (caller : Nat) (filename : CString)

def NameTable.exec (t : NameTable) : NameCall → Option NameTable
  | .do_fork caller main => (t.find_proc_by_pid caller).map fun pcb => t.do_fork pcb main
  | .do_fork2 caller main => (t.find_proc_by_pid caller).map fun pcb => t.do_fork2 pcb main
  | .do_execve caller filename =>
    (t.find_proc_by_pid caller).map fun pcb => t.do_execve pcb filename

/-- No name runs over its field. -/
def NameTable.Fits (t : NameTable) : Prop :=
  ∀ p ∈ t.proc_list, p.name.val.length + 1 ≤ PROC_NAME_LEN

instance : DecidablePred NameTable.Fits := fun t =>
  inferInstanceAs (Decidable (∀ p ∈ t.proc_list, p.name.val.length + 1 ≤ PROC_NAME_LEN))

/-- The states with the calls that lead there, the last one first. What happens after a name has
run over its field is not described. -/
inductive Named : List NameCall → NameTable → Prop
  | root : Named [] .create_root_process
  | call {calls : List NameCall} {t t' : NameTable} {c : NameCall} (h : Named calls t)
    (hfits : t.Fits) (hexec : t.exec c = some t') : Named (c :: calls) t'

/-! ## What a name is made of -/

/-- The last file that the process or an ancestor has executed, and the forks since then. -/
structure Lineage where
  filename : CString := emptyName
  forks : List Nat := []

/-- The size of the name with its terminator. -/
def Lineage.size (l : Lineage) : Nat :=
  l.filename.val.length + (l.forks.map fun pid => 7 + (decimal pid).length).sum + 1

def Lineage.fork (l : Lineage) (pid : Nat) : Lineage := { l with forks := l.forks ++ [pid] }

/-- The pid that the next process gets. -/
def nextPid : List NameCall → Nat
  | [] => 2
  | .do_fork _ true :: calls => nextPid calls + 1
  | .do_fork2 _ true :: calls => nextPid calls + 1
  | _ :: calls => nextPid calls

def lineage : List NameCall → Nat → Lineage
  | [], _ => {}
  | .do_fork caller true :: calls, pid =>
    if pid = nextPid calls then (lineage calls caller).fork pid else lineage calls pid
  | .do_fork2 caller true :: calls, pid =>
    if pid = nextPid calls then (lineage calls caller).fork pid else lineage calls pid
  | .do_execve caller filename :: calls, pid =>
    if pid = caller then { filename } else lineage calls pid
  | _ :: calls, pid => lineage calls pid

def Lineage.name (l : Lineage) : List Byte := l.filename.val ++ l.forks.flatMap childSuffix

theorem Lineage.length_name (l : Lineage) : l.name.length + 1 = l.size := by
  have hsuffix : (fun pid => (childSuffix pid).length) = fun pid => 7 + (decimal pid).length := by
    funext pid
    rw [childSuffix, List.length_append]
    rfl
  simp only [name, size, List.length_append, List.length_flatMap, hsuffix]

theorem Lineage.name_fork (l : Lineage) (pid : Nat) :
    (l.fork pid).name = l.name ++ childSuffix pid := by
  simp [name, fork]

/-- The names are those of the lineages. -/
structure Lineages (calls : List NameCall) (t : NameTable) : Prop where
  pid_current : t.pid_current = nextPid calls
  fresh : ∀ p ∈ t.proc_list, p.pid < t.pid_current
  names : ∀ p ∈ t.proc_list, p.name.val = (lineage calls p.pid).name

section
variable {calls : List NameCall} {t t' : NameTable} {parent p : NamedPcb} {caller : Nat}

theorem NameTable.find_proc_by_pid_eq_some (h : t.find_proc_by_pid caller = some p) :
    p ∈ t.proc_list ∧ p.pid = caller :=
  ⟨List.mem_of_find?_eq_some h, by simpa using List.find?_some h⟩

/-- The child is at the end of the list. -/
theorem NameTable.do_fork_true (parent : NamedPcb)
    (hfresh : ∀ p ∈ t.proc_list, p.pid < t.pid_current) :
    t.do_fork parent true =
      { proc_list :=
          t.proc_list ++ [⟨t.pid_current, childString parent.name t.pid_current⟩]
        pid_current := t.pid_current + 1 } := by
  have hold : (t.proc_list.map fun pcb => if pcb.pid = t.pid_current then
      { pcb with name := childString parent.name t.pid_current } else pcb) = t.proc_list := by
    rw [List.map_congr_left fun q hq => if_neg (ne_of_lt (hfresh q hq)), List.map_id']
  have hnew : ((t.proc_list ++ [(⟨t.pid_current, emptyName⟩ : NamedPcb)]).map fun pcb =>
      if pcb.pid = t.pid_current then
        { pcb with name := childString parent.name t.pid_current } else pcb) =
      t.proc_list ++ [⟨t.pid_current, childString parent.name t.pid_current⟩] := by
    rw [List.map_append, hold, List.map_singleton, if_pos rfl]
  exact congrArg (NameTable.mk · (t.pid_current + 1)) hnew

theorem Lineages.fork (L : Lineages calls t) (hp : parent ∈ t.proc_list) {c : NameCall}
    (hnext : nextPid (c :: calls) = nextPid calls + 1)
    (hlineage : ∀ pid, lineage (c :: calls) pid =
      if pid = nextPid calls then (lineage calls parent.pid).fork pid else lineage calls pid) :
    Lineages (c :: calls) (t.do_fork parent true) := by
  have hchild := NameTable.do_fork_true parent L.fresh
  rw [hchild]
  constructor
  case pid_current => rw [hnext, L.pid_current]
  case fresh =>
    intro q hq
    rcases List.mem_append.mp hq with hq | hq
    · exact Nat.lt_succ_of_lt (L.fresh q hq)
    · cases List.mem_singleton.mp hq
      exact Nat.lt_succ_self _
  case names =>
    intro q hq
    rw [hlineage]
    rcases List.mem_append.mp hq with hq | hq
    · rw [if_neg (L.pid_current ▸ ne_of_lt (L.fresh q hq))]
      exact L.names q hq
    · cases List.mem_singleton.mp hq
      rw [if_pos L.pid_current, Lineage.name_fork, ← L.names parent hp]
      rfl

theorem Lineages.execve (L : Lineages calls t) (filename : CString) :
    Lineages (.do_execve p.pid filename :: calls) (t.do_execve p filename) := by
  have hmem : ∀ q ∈ (t.do_execve p filename).proc_list,
      ∃ r ∈ t.proc_list, q = if r.pid = p.pid then { r with name := filename } else r := by
    intro q hq
    obtain ⟨r, hr, rfl⟩ := List.mem_map.mp hq
    exact ⟨r, hr, rfl⟩
  constructor
  case pid_current => exact L.pid_current
  case fresh =>
    intro q hq
    obtain ⟨r, hr, rfl⟩ := hmem q hq
    split
    · exact L.fresh r hr
    · exact L.fresh r hr
  case names =>
    intro q hq
    obtain ⟨r, hr, rfl⟩ := hmem q hq
    by_cases h : r.pid = p.pid
    · rw [if_pos h]
      simp [lineage, h, Lineage.name]
    · rw [if_neg h]
      simpa [lineage, h] using L.names r hr

theorem Named.lineages (h : Named calls t) : Lineages calls t := by
  induction h with
  | root =>
    refine ⟨rfl, fun p hp => ?_, fun p hp => ?_⟩
    · cases List.mem_singleton.mp hp
      decide
    · cases List.mem_singleton.mp hp
      rfl
  | @call calls t t' c h hfits hexec L =>
    cases c with
    | do_fork caller main =>
      obtain ⟨parent, hfind, rfl⟩ := Option.map_eq_some_iff.mp hexec
      obtain ⟨hp, rfl⟩ := NameTable.find_proc_by_pid_eq_some hfind
      cases main with
      | false => exact ⟨L.pid_current, L.fresh, L.names⟩
      | true => exact L.fork hp rfl fun pid => rfl
    | do_fork2 caller main =>
      obtain ⟨parent, hfind, rfl⟩ := Option.map_eq_some_iff.mp hexec
      obtain ⟨hp, rfl⟩ := NameTable.find_proc_by_pid_eq_some hfind
      cases main with
      | false => exact ⟨L.pid_current, L.fresh, L.names⟩
      | true => exact L.fork hp rfl fun pid => rfl
    | do_execve caller filename =>
      obtain ⟨p, hfind, rfl⟩ := Option.map_eq_some_iff.mp hexec
      obtain ⟨-, rfl⟩ := NameTable.find_proc_by_pid_eq_some hfind
      exact L.execve filename

end

/-- In every state that is reached, all names fit exactly if for every process the name of the last
file executed, and the suffixes of the forks since then, do. -/
theorem named_fits_iff (calls : List NameCall) (t : NameTable) (h : Named calls t) :
    t.Fits ↔ ∀ p ∈ t.proc_list, (lineage calls p.pid).size ≤ PROC_NAME_LEN := by
  refine forall₂_congr fun p hp => ?_
  rw [h.lineages.names p hp, Lineage.length_name]

theorem named_fits_iff_fork :
    ((NameTable.create_root_process.do_fork ⟨1, emptyName⟩ true).Fits ↔
      ∀ p ∈ (NameTable.create_root_process.do_fork ⟨1, emptyName⟩ true).proc_list,
        (lineage [.do_fork 1 true] p.pid).size ≤ PROC_NAME_LEN) :=
  named_fits_iff [.do_fork 1 true] _
    (.call .root (by decide) rfl)

/-- The name of a file of 80 characters. -/
def longName : CString := ⟨List.replicate 80 97, by decide⟩

/-- The root process executes a file with a long name; or each process forks one. -/
theorem not_fits :
    (∃ t, Named [.do_execve 1 longName] t ∧ ¬t.Fits) ∧
      ∃ t, Named [.do_fork 10 true, .do_fork2 9 true, .do_fork 8 true, .do_fork 7 true,
        .do_fork 6 true, .do_fork 5 true, .do_fork 4 true, .do_fork 3 true, .do_fork 2 true,
        .do_fork 1 true] t ∧ ¬t.Fits := by
  constructor
  · exact ⟨_, .call .root (by decide) rfl, by decide⟩
  · refine ⟨_, .call (.call (.call (.call (.call (.call (.call (.call (.call (.call .root
      ?_ rfl) ?_ rfl) ?_ rfl) ?_ rfl) ?_ rfl) ?_ rfl) ?_ rfl) ?_ rfl) ?_ rfl) ?_ rfl, ?_⟩
    all_goals decide

/-! ## The calls of the process list -/

def ProcName.toCString (name : ProcName) : CString := ⟨name.val, name.property.1⟩

/-- The names of the PCBs. -/
def ProcTable.names (t : ProcTable) : NameTable where
  proc_list := t.proc_list.map fun pcb => ⟨pcb.pid, pcb.name.toCString⟩
  pid_current := t.pid_current

theorem childString_val (name : ProcName) (pid : Nat) :
    (childString name.toCString pid).val = childName name pid :=
  (List.append_assoc ..).symm

/-- `do_fork` of the process list writes the name that it has here, and stops if that is too
long. -/
theorem do_fork_names {s : System} (parent : Pcb) (pgtable : Word) (pages : List Word)
    (hfresh : ∀ p ∈ s.procs.proc_list, p.pid < s.procs.pid_current) :
    (do_fork s parent pgtable pages).map (fun s' => s'.procs.names) =
      if (childName parent.name s.procs.pid_current).length < PROC_NAME_LEN then
        some (s.procs.names.do_fork ⟨parent.pid, parent.name.toCString⟩ true)
      else none := by
  have hnames : ∀ p ∈ s.procs.names.proc_list, p.pid < s.procs.names.pid_current := by
    intro p hp
    obtain ⟨q, hq, rfl⟩ := List.mem_map.mp hp
    exact hfresh q hq
  by_cases hlen : (childName parent.name s.procs.pid_current).length < PROC_NAME_LEN
  · have hname : ProcName.ofString (parent.childName s.procs.pid_current) =
        some ⟨childName parent.name s.procs.pid_current, zero_notMem_childName _ _, hlen⟩ :=
      dif_pos hlen
    rw [if_pos hlen, NameTable.do_fork_true _ hnames]
    simp only [do_fork, new_process, hname, Option.bind_eq_bind, Option.bind_some, Option.pure_def,
      Option.map_some]
    rw [modify_append fun q hq => ne_of_lt (hfresh q hq)]
    have hchild :
        (⟨childName parent.name s.procs.pid_current, zero_notMem_childName _ _⟩ : CString) =
          childString parent.name.toCString s.procs.pid_current :=
      Subtype.ext (childString_val ..).symm
    simp [ProcTable.names, Pcb.start, Pcb.inherit, ProcName.toCString, hchild]
  · have hname : ProcName.ofString (parent.childName s.procs.pid_current) = none := dif_neg hlen
    rw [if_neg hlen]
    simp [do_fork, new_process, hname]

/-- From names that have been reached, `do_fork` of the process list goes on to names that are
reached, exactly if the name of the child fits. -/
theorem do_fork_named {calls : List NameCall} {s : System} {parent : Pcb} {pgtable : Word}
    {pages : List Word} (h : Named calls s.procs.names)
    (hp : s.procs.names.find_proc_by_pid parent.pid =
      some ⟨parent.pid, parent.name.toCString⟩) :
    (∀ s', do_fork s parent pgtable pages = some s' →
      Named (.do_fork parent.pid true :: calls) s'.procs.names) ∧
    ((do_fork s parent pgtable pages).isSome ↔
      ((lineage calls parent.pid).fork s.procs.pid_current).size ≤ PROC_NAME_LEN) := by
  have L := h.lineages
  have hfresh : ∀ p ∈ s.procs.proc_list, p.pid < s.procs.pid_current := fun p hp =>
    L.fresh ⟨p.pid, p.name.toCString⟩ (List.mem_map_of_mem hp)
  have hnames := do_fork_names parent pgtable pages hfresh
  have hfits : s.procs.names.Fits := by
    intro p hp
    obtain ⟨q, -, rfl⟩ := List.mem_map.mp hp
    exact q.name.property.2
  have hname := L.names _ (NameTable.find_proc_by_pid_eq_some hp).1
  have hlen : (childName parent.name s.procs.pid_current).length + 1 =
      ((lineage calls parent.pid).fork s.procs.pid_current).size := by
    rw [← Lineage.length_name, Lineage.name_fork, ← hname, ← childString_val]
    rfl
  refine ⟨fun s' hs' => ?_, ?_⟩
  · rw [hs', Option.map_some] at hnames
    obtain ⟨-, heq⟩ := Option.ite_none_right_eq_some.mp hnames.symm
    refine h.call hfits ?_
    rw [NameTable.exec, hp, Option.map_some]
    exact heq
  · rw [← Option.isSome_map, hnames, ← hlen]
    split
    · next hlt => exact iff_of_true rfl hlt
    · next hlt => exact iff_of_false Bool.false_ne_true hlt

end SyeLabs.Kernel
