import Mathlib.Data.List.FinRange
import Mathlib.Data.Fintype.Basic
import Mathlib.Tactic.Common

/-!
# Tables of descriptors, and pipes

A process reaches shared objects through the descriptors of its table. It gets a descriptor by
opening an object or by copying another one of its own; a table is handed on as a whole. What no
table holds can therefore be got at by nobody. A `Pipe` keeps the history of its two ends.
-/

namespace SyeLabs.Descriptors

variable {F β : Type*} {n : ℕ}

/-- `none` is a descriptor that is not in use. -/
abbrev Table (F : Type*) (n : ℕ) := Fin n → Option F

namespace Table
variable {t t' : Table F n} {f g : F} {fd : Fin n}

def Holds (t : Table F n) (f : F) : Prop := ∃ fd, t fd = some f

instance [DecidableEq F] (t : Table F n) : DecidablePred t.Holds :=
  fun _ => inferInstanceAs (Decidable (∃ _, _))

/-- The lowest descriptor that is not in use. -/
def unused (t : Table F n) : Option (Fin n) := (List.finRange n).find? fun fd => (t fd).isNone

def register (t : Table F n) (f : F) : Option (Fin n × Table F n) :=
  t.unused.map fun fd => (fd, Function.update t fd (some f))

def close (t : Table F n) (fd : Fin n) : Table F n := Function.update t fd none

/-- `newfd` refers to what `oldfd` refers to, if that is in use. -/
def dup2 (t : Table F n) (oldfd newfd : Fin n) : Table F n :=
  if t oldfd = none then t else Function.update t newfd (t oldfd)

theorem Holds.of_update {x : Option F} (h : Holds (Function.update t fd x) f) :
    x = some f ∨ t.Holds f := by
  obtain ⟨i, hi⟩ := h
  rw [Function.update_apply] at hi
  split at hi
  · exact .inl hi
  · exact .inr ⟨i, hi⟩

theorem Holds.of_close (h : (t.close fd).Holds f) : t.Holds f :=
  h.of_update.resolve_left nofun

theorem Holds.of_dup2 {oldfd newfd : Fin n} (h : (t.dup2 oldfd newfd).Holds f) : t.Holds f := by
  rw [dup2] at h
  split at h
  · exact h
  · exact h.of_update.elim (fun hold => ⟨_, hold⟩) id

theorem not_holds_empty : ¬Holds (fun _ : Fin n => none) f := fun ⟨_, h⟩ => absurd h nofun

theorem register_eq_some (h : t.register f = some (fd, t')) :
    t.unused = some fd ∧ t' = Function.update t fd (some f) := by
  obtain ⟨i, hi, heq⟩ := Option.map_eq_some_iff.mp h
  cases heq
  exact ⟨hi, rfl⟩

theorem Holds.of_register (hr : t.register f = some (fd, t')) (h : t'.Holds g) :
    f = g ∨ t.Holds g := by
  rw [(register_eq_some hr).2] at h
  exact h.of_update.imp_left Option.some.inj

/-- The table when all descriptors have been closed, one after the other. -/
theorem foldl_close (t : Table F n) : (List.finRange n).foldl close t = fun _ => none := by
  have hlist : ∀ (l : List (Fin n)) (t : Table F n) (i : Fin n), i ∈ l ∨ t i = none →
      l.foldl close t i = none := by
    intro l
    induction l with
    | nil => exact fun t i h => h.resolve_left List.not_mem_nil
    | cons j l ih =>
      refine fun t i h => ih _ _ ?_
      rw [close, Function.update_apply]
      rcases h with h | h
      · rcases List.mem_cons.mp h with rfl | h
        · exact .inr (if_pos rfl)
        · exact .inl h
      · exact .inr (ite_eq_left_iff.mpr fun _ => h)
  exact funext fun i => hlist _ t i (.inl (List.mem_finRange i))

end Table

/-! ## Pipes -/

/-- A pipe, with all that has been written and read; `ended` if a reader has been told that there
is no more. -/
structure Pipe (β : Type*) where
  buffer : List β := []
  written : List β := []
  read : List β := []
  ended : Bool := false
  deriving DecidableEq

namespace Pipe
variable {p : Pipe β}

def write (p : Pipe β) (bytes : List β) : Pipe β :=
  { p with buffer := p.buffer ++ bytes, written := p.written ++ bytes }

/-- A read of at most `k` bytes. -/
def take (p : Pipe β) (k : ℕ) : Pipe β :=
  { p with buffer := p.buffer.drop k, read := p.read ++ p.buffer.take k }

def finish (p : Pipe β) : Pipe β := { p with ended := true }

/-- Bytes come out in the order they went in. -/
def Fifo (p : Pipe β) : Prop := p.written = p.read ++ p.buffer

theorem Fifo.write (H : p.Fifo) (bytes : List β) : (p.write bytes).Fifo := by
  have h : p.written = p.read ++ p.buffer := H
  change p.written ++ bytes = p.read ++ (p.buffer ++ bytes)
  rw [h, List.append_assoc]

theorem Fifo.take (H : p.Fifo) (k : ℕ) : (p.take k).Fifo := by
  have h : p.written = p.read ++ p.buffer := H
  change p.written = p.read ++ p.buffer.take k ++ p.buffer.drop k
  rw [h, List.append_assoc, List.take_append_drop]

end Pipe
end SyeLabs.Descriptors
