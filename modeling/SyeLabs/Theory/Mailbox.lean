import Mathlib.Logic.Function.Basic
import Mathlib.Tactic.Common

/-!
# Slots that are filled once and emptied once

Each key has a slot. A value is put into it, and is taken out of it later. In a run of such events
no value is taken twice or before it has been put, and what is taken is what has been put.
-/

namespace SyeLabs

inductive Slot (V : Type) where
  | empty
  | full (v : V)
  | taken
  deriving DecidableEq

/-- Whoever takes a value may leave it unread. -/
inductive SlotEvent (K V : Type) where
  | put (k : K) (v : V)
  | take (k : K) (got : Option V)
  deriving DecidableEq

variable {K V : Type}

def SlotEvent.key : SlotEvent K V → K
  | put k _ => k
  | take k _ => k

/-- What has happened to a slot. -/
inductive Slot.History (k : K) : Slot V → List (SlotEvent K V) → Prop
  | empty : History k .empty []
  | full (v : V) : History k (.full v) [.put k v]
  | taken (v : V) {got : Option V} (hgot : ∀ w ∈ got, w = v) :
    History k .taken [.put k v, .take k got]

abbrev Mailbox (K V : Type) := K → Slot V

namespace Mailbox
variable [DecidableEq K]

inductive Step (b : Mailbox K V) : SlotEvent K V → Mailbox K V → Prop
  | put {k : K} (h : b k = .empty) (v : V) : Step b (.put k v) (Function.update b k (.full v))
  | take {k : K} {v : V} {got : Option V} (h : b k = .full v) (hgot : ∀ w ∈ got, w = v) :
    Step b (.take k got) (Function.update b k .taken)

inductive Run : Mailbox K V → List (SlotEvent K V) → Mailbox K V → Prop
  | nil (b : Mailbox K V) : Run b [] b
  | cons {b b' b'' : Mailbox K V} {e : SlotEvent K V} {es : List (SlotEvent K V)}
    (h : Step b e b') (hs : Run b' es b'') : Run b (e :: es) b''

variable {b b' : Mailbox K V} {e : SlotEvent K V} {es l : List (SlotEvent K V)}

theorem Step.of_put {k : K} {v : V} (h : b k = .empty) (hk : b' k = .full v)
    (hother : ∀ j, j ≠ k → b' j = b j) : Step b (.put k v) b' := by
  obtain rfl : b' = Function.update b k (.full v) := Function.eq_update_iff.mpr ⟨hk, hother⟩
  exact .put h v

theorem Step.of_take {k : K} {v : V} {got : Option V} (h : b k = .full v) (hgot : ∀ w ∈ got, w = v)
    (hk : b' k = .taken) (hother : ∀ j, j ≠ k → b' j = b j) : Step b (.take k got) b' := by
  obtain rfl : b' = Function.update b k .taken := Function.eq_update_iff.mpr ⟨hk, hother⟩
  exact .take h hgot

theorem Step.history (h : Step b e b') (k : K) (hk : (b k).History k l) :
    (b' k).History k (l ++ [e].filter (·.key = k)) := by
  by_cases heq : e.key = k
  · subst heq
    rw [List.filter_cons_of_pos (by simp), List.filter_nil]
    cases h with
    | @put k hempty v =>
      change (b k).History k l at hk
      rw [hempty] at hk
      cases hk
      change (Function.update b k _ k).History k _
      rw [Function.update_self]
      exact .full v
    | @take k v got hfull hgot =>
      change (b k).History k l at hk
      rw [hfull] at hk
      cases hk
      change (Function.update b k _ k).History k _
      rw [Function.update_self]
      exact .taken v hgot
  · rw [List.filter_cons_of_neg (by simpa using heq), List.filter_nil, List.append_nil]
    have hother : b' k = b k := by
      cases h with
      | put => exact Function.update_of_ne (Ne.symm heq) _ _
      | take => exact Function.update_of_ne (Ne.symm heq) _ _
    rwa [hother]

theorem Run.history (h : Run b es b') (k : K) (hk : (b k).History k l) :
    (b' k).History k (l ++ es.filter (·.key = k)) := by
  induction h generalizing l with
  | nil b =>
    rw [List.filter_nil, List.append_nil]
    exact hk
  | @cons b b' b'' e es h _ ih =>
    have hrest := ih (h.history k hk)
    rwa [List.append_assoc, ← List.filter_append] at hrest

/-- The events of each key, in a run that starts with empty slots. -/
theorem Run.history_of_empty (h : Run (fun _ => .empty) es b') (k : K) :
    (b' k).History k (es.filter (·.key = k)) := h.history k .empty

theorem Run.append {b'' : Mailbox K V} (h : Run b es b') (h' : Run b' l b'') :
    Run b (es ++ l) b'' := by
  induction h with
  | nil => exact h'
  | cons h _ ih => exact .cons h (ih h')

end Mailbox
end SyeLabs
