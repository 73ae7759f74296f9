import Mathlib.Tactic.Common

/-!
# Processes that send and receive

A sequential process in front of its next action. What it receives and when is up to the system
it is part of.
-/

namespace SyeLabs.Process

/-- What a process does next. -/
inductive Next (Out In State : Type) where
  | send (cmd : Out) (s : State)
  | get (k : In → State)
  | goto (s : State)
  /-- An access outside of an array. -/
  | undefined
  | exit

inductive Label (Out In : Type) where
  | send (cmd : Out)
  | get (cmd : In)
  | tau
  deriving DecidableEq, Repr

def Next.take {Out In State : Type} [DecidableEq Out] :
    Next Out In State → Label Out In → Option State
  | .send cmd s, .send cmd' => if cmd = cmd' then some s else none
  | .get k, .get cmd => some (k cmd)
  | .goto s, .tau => some s
  | _, _ => none

namespace Next
variable {Out In State : Type} [DecidableEq Out] {l : Label Out In} {s s' : State}

@[simp] theorem take_send {cmd : Out} :
    (send cmd s).take l = some s' ↔ l = .send cmd ∧ s' = s := by
  cases l <;> simp [take, eq_comm]

@[simp] theorem take_get {k : In → State} :
    (get k : Next Out In State).take l = some s' ↔ ∃ cmd, l = .get cmd ∧ s' = k cmd := by
  cases l <;> simp [take, eq_comm]

@[simp] theorem take_goto :
    (goto s : Next Out In State).take l = some s' ↔ l = .tau ∧ s' = s := by
  cases l <;> simp [take, eq_comm]

@[simp] theorem take_exit : (exit : Next Out In State).take l = none := by
  cases l <;> rfl

end Next

end SyeLabs.Process
