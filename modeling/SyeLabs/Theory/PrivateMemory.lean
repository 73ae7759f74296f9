import Mathlib.Logic.Function.Basic
import Mathlib.Tactic.Common

/-!
# Processes with private memories

What a system of processes is for, as far as memory goes: each process has a memory of its own,
and an act of one process changes no memory but that of its subject. A copy is the only way for
values to get from one memory to another.
-/

namespace SyeLabs

/-- The memories of the processes that there are. An address may be without a value. -/
abbrev Memories (Pid Addr Val : Type) := Pid → Option (Addr → Option Val)

inductive MemoryAct (Pid Addr Val : Type) where
  /-- The values of `l` are written to its addresses, one after the other. -/
  | write (i : Pid) (l : List (Addr × Val))
  /-- A new process, with any memory. -/
  | create (i : Pid)
  /-- A new process `j`, with the memory of `i`. -/
  | copy (i j : Pid)
  /-- Another memory for the process. -/
  | replace (i : Pid)
  | drop (i : Pid)
  | idle (i : Pid)

variable {Pid Addr Val : Type}

namespace MemoryAct

/-- The process whose memory is another one afterwards. -/
def subject : MemoryAct Pid Addr Val → Option Pid
  | write i _ => some i
  | create i => some i
  | copy _ j => some j
  | replace i => some i
  | drop i => some i
  | idle _ => none

/-- The act may change a value that process `i` has. -/
def Touches (i : Pid) (a : Addr) : MemoryAct Pid Addr Val → Prop
  | write j l => j = i ∧ a ∈ l.map Prod.fst
  | replace j => j = i
  | drop j => j = i
  | _ => False

end MemoryAct

section
variable [DecidableEq Addr]

/-- A memory after the writes of `l`. -/
def writeAll (f : Addr → Option Val) (l : List (Addr × Val)) : Addr → Option Val :=
  l.foldl (fun f x => Function.update f x.1 (some x.2)) f

theorem writeAll_of_notMem {l : List (Addr × Val)} {a : Addr} (ha : a ∉ l.map Prod.fst)
    (f : Addr → Option Val) : writeAll f l a = f a := by
  induction l generalizing f with
  | nil => rfl
  | cons x l ih =>
    rw [List.map_cons, List.mem_cons, not_or] at ha
    obtain ⟨hne, ha⟩ := ha
    exact (ih ha _).trans (Function.update_of_ne hne _ _)

end

namespace Memories
variable [DecidableEq Pid] [DecidableEq Addr]

inductive Step (M : Memories Pid Addr Val) :
    MemoryAct Pid Addr Val → Memories Pid Addr Val → Prop
  | write {i : Pid} {l : List (Addr × Val)} {f : Addr → Option Val} (h : M i = some f)
    (hl : ∀ a ∈ l.map Prod.fst, (f a).isSome) :
    Step M (.write i l) (Function.update M i (some (writeAll f l)))
  | create {i : Pid} (h : M i = none) (f : Addr → Option Val) :
    Step M (.create i) (Function.update M i (some f))
  | copy {i j : Pid} {f : Addr → Option Val} (hi : M i = some f) (hj : M j = none) :
    Step M (.copy i j) (Function.update M j (some f))
  | replace {i : Pid} {f : Addr → Option Val} (h : M i = some f) (g : Addr → Option Val) :
    Step M (.replace i) (Function.update M i (some g))
  | drop {i : Pid} {f : Addr → Option Val} (h : M i = some f) :
    Step M (.drop i) (Function.update M i none)
  | idle {i : Pid} {f : Addr → Option Val} (h : M i = some f) : Step M (.idle i) M

inductive Run : Memories Pid Addr Val → List (MemoryAct Pid Addr Val) →
    Memories Pid Addr Val → Prop
  | nil (M : Memories Pid Addr Val) : Run M [] M
  | cons {M M' M'' : Memories Pid Addr Val} {e : MemoryAct Pid Addr Val}
    {es : List (MemoryAct Pid Addr Val)} (h : Step M e M') (hs : Run M' es M'') :
    Run M (e :: es) M''

variable {M M' M'' : Memories Pid Addr Val} {e : MemoryAct Pid Addr Val}
  {es : List (MemoryAct Pid Addr Val)} {f : Addr → Option Val} {i : Pid} {a : Addr}

/-- A process that is not the subject keeps its memory. -/
theorem Step.other (h : Step M e M') (hi : e.subject ≠ some i) : M' i = M i := by
  have hne : ∀ {j}, some j ≠ some i → i ≠ j := fun h heq => h (congrArg some heq.symm)
  cases h with
  | write | create | copy | replace | drop => exact Function.update_of_ne (hne hi) _ _
  | idle => rfl

/-- A value stays as long as no act touches it. -/
theorem Step.keeps (h : Step M e M') (hf : M i = some f) (ha : ¬e.Touches i a) :
    ∃ f', M' i = some f' ∧ f' a = f a := by
  by_cases hi : e.subject = some i
  · cases h with
    | @write j l g hg =>
      obtain rfl := Option.some.inj hi
      obtain rfl := Option.some.inj (hg.symm.trans hf)
      have hl : a ∉ l.map Prod.fst := fun hmem => ha ⟨rfl, hmem⟩
      exact ⟨_, Function.update_self .., writeAll_of_notMem hl g⟩
    | create hnone | copy _ hnone =>
      -- a new process is another one
      rw [Option.some.inj hi, hf] at hnone
      exact absurd hnone (Option.some_ne_none f)
    | replace | drop => exact absurd (Option.some.inj hi) ha
    | idle => exact absurd hi nofun
  · exact ⟨f, (h.other hi).trans hf, rfl⟩

theorem Run.keeps (h : Run M es M') (hf : M i = some f) (ha : ∀ e ∈ es, ¬e.Touches i a) :
    ∃ f', M' i = some f' ∧ f' a = f a := by
  induction h generalizing f with
  | nil => exact ⟨f, hf, rfl⟩
  | cons h _ ih =>
    obtain ⟨he, hes⟩ := List.forall_mem_cons.mp ha
    obtain ⟨g, hg, hga⟩ := h.keeps hf he
    obtain ⟨f', hf', hfa⟩ := ih hg hes
    exact ⟨f', hf', hfa.trans hga⟩

end Memories
end SyeLabs
