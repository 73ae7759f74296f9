import Mathlib.Data.List.Basic
import Mathlib.Data.List.Infix
import Mathlib.Tactic.Common

/-!
# Messages over an ordered stream

A stream of units (bytes) that come out in the order they went in carries messages of a fixed
positive size. A `Channel` is such a stream with the history of its two ends; sending and
receiving whole messages keeps `Channel.Ordered`, so that what was received is a prefix of what
was sent.
-/

namespace SyeLabs.Fifo

/-- An encoding of messages in `size` units each. -/
structure Codec (α β : Type*) where
  size : Nat
  encode : α → List β
  decode : List β → α
  size_pos : 0 < size
  length_encode : ∀ a, (encode a).length = size
  decode_encode : ∀ a, decode (encode a) = a

variable {α β : Type*}

/-- Contents of the stream, messages sent so far, messages received so far. -/
structure Channel (α β : Type*) where
  stream : List β := []
  sent : List α := []
  received : List α := []

namespace Channel

variable (C : Codec α β)

def send (c : Channel α β) (a : α) : Channel α β :=
  { c with stream := c.stream ++ C.encode a, sent := c.sent ++ [a] }

/-- Take one message off the stream; `none` while the stream is empty. -/
def receive (c : Channel α β) : Option (α × Channel α β) :=
  if c.stream = [] then none
  else
    let a := C.decode (c.stream.take C.size)
    some (a, { c with stream := c.stream.drop C.size, received := c.received ++ [a] })

/-- The stream holds the messages in flight, and these follow the received ones. -/
def Ordered (c : Channel α β) : Prop :=
  ∃ flight : List α, c.stream = flight.flatMap C.encode ∧ c.sent = c.received ++ flight

variable {C} {c c' : Channel α β} {a : α}

theorem ordered_empty : Ordered C {} := ⟨[], rfl, rfl⟩

theorem Ordered.send (H : c.Ordered C) (a : α) : (c.send C a).Ordered C := by
  obtain ⟨flight, hstream, hsent⟩ := H
  exact ⟨flight ++ [a], by simp [Channel.send, hstream], by simp [Channel.send, hsent]⟩

theorem Ordered.receive (H : c.Ordered C) (h : c.receive C = some (a, c')) :
    c'.Ordered C := by
  obtain ⟨flight, hstream, hsent⟩ := H
  unfold Channel.receive at h
  split at h
  · cases h
  · next hne =>
    cases h
    cases flight with
    | nil => exact absurd hstream hne
    | cons b flight =>
      have hlen := C.length_encode b
      rw [List.flatMap_cons] at hstream
      refine ⟨flight, ?_, ?_⟩
      · rw [hstream, ← hlen, List.drop_left]
      · simp only [hstream, ← hlen, List.take_left, C.decode_encode, hsent, List.append_assoc,
          List.singleton_append]

theorem Ordered.received_isPrefix (H : c.Ordered C) : c.received <+: c.sent := by
  obtain ⟨flight, -, hsent⟩ := H
  exact ⟨flight, hsent.symm⟩

end Channel
end SyeLabs.Fifo
