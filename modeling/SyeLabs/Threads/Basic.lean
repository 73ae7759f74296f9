import SyeLabs.Theory.Bytes

/-!
# Counting letters with threads: `threads.c`

Each thread counts the letters of its chunk of the text into counters of its own, one character
at a step; `main` starts the threads one after the other, joins them, and adds up. Sizes and
counters do not exceed the size of the text, so they are natural numbers here. A read behind the
terminator of the text has no outcome.
-/

namespace SyeLabs.Threads

def LETTERS_NB : Nat := 26
def A_LOWER_OFFSET : Int := 97
def CHILDREN_LIMIT : Int := 15

/-- A `char` as an `int`; whether `char` is signed depends on the compiler. -/
def charValue (signed : Bool) (c : Byte) : Int := if signed then c.toInt else c.toNat

/-- In the C locale. -/
def tolower (c : Int) : Int := if 65 ≤ c ∧ c ≤ 90 then c + 32 else c

/-- The `size_t` that the difference is converted to. -/
def letterIndex (signed : Bool) (c : Byte) : Word :=
  BitVec.ofInt 32 (tolower (charValue signed c) - A_LOWER_OFFSET)

/-- The `count_param_t` of a thread, with the loop variable `i` of `count_letters`. -/
structure Thread where
  text_pointer : Nat
  size : Nat
  counters : Fin LETTERS_NB → Nat := fun _ => 0
  i : Nat := 0

/-- One round of the loop of `count_letters`. -/
def Thread.count (t : Thread) (signed : Bool) (c : Byte) : Thread :=
  let index := (letterIndex signed c).toNat
  { t with
    counters :=
      if h : index < LETTERS_NB then
        Function.update t.counters ⟨index, h⟩ (t.counters ⟨index, h⟩ + 1)
      else t.counters
    i := t.i + 1 }

def strlen (s : List Byte) : Nat := (s.takeWhile (· ≠ 0)).length

/-- The number of threads that `main` starts. -/
def threadNum (thread_num : Int) : Nat :=
  (if thread_num > CHILDREN_LIMIT then CHILDREN_LIMIT else thread_num).toNat

section
variable (signed : Bool) (text : List Byte) (thread_num : Nat)

/-- The file in memory. -/
def buffer_from_file : List Byte := text ++ [0]

def chunk_size : Nat := strlen (buffer_from_file text) / thread_num
def leftovers : Nat := strlen (buffer_from_file text) % thread_num

/-- `params[i]` as `main` sets it. -/
def params (i : Nat) : Thread where
  text_pointer := i * chunk_size text thread_num
  size := chunk_size text thread_num + if i = thread_num - 1 then leftovers text thread_num else 0

inductive Event where
  /-- The next `pthread_create`. -/
  | create
  /-- Thread `k` reads and counts a character. -/
  | count (k : Nat)

def step (threads : List Thread) : Event → Option (List Thread)
  | .create =>
    if threads.length < thread_num then some (threads ++ [params text thread_num threads.length])
    else none
  | .count k => do
    let t ← threads[k]?
    if t.i < t.size then
      let c ← (buffer_from_file text)[t.text_pointer + t.i]?
      return threads.set k (t.count signed c)
    else none

def run (events : List Event) : Option (List Thread) :=
  events.foldlM (step signed text thread_num) []

/-- All threads have been created and joined. -/
def Joined (threads : List Thread) : Prop :=
  threads.length = thread_num ∧ ∀ t ∈ threads, ¬t.i < t.size

/-- `result_counters` after the merge. -/
def result_counters (threads : List Thread) (l : Fin LETTERS_NB) : Nat :=
  threads.foldl (fun r t => r + t.counters l) 0

end
end SyeLabs.Threads
