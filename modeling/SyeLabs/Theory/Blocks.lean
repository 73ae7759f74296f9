import SyeLabs.Theory.Memory

/-!
# Allocation histories

Allocators are known by what they have given out and got back. A history is the list of these
events, the newest first; an allocator is a function of the history and of the request, and its
answer lies apart from every block that is live. Blocks come from several pools.
-/

namespace SyeLabs

inductive Event (Pool : Type) where
  | alloc (pool : Pool) (r : Region)
  | free (pool : Pool) (p : Word)
  deriving DecidableEq

def Event.pool {Pool : Type} : Event Pool → Pool
  | .alloc pool _ => pool
  | .free pool _ => pool

variable {Pool : Type} [DecidableEq Pool]

/-- The blocks given out and not given back. -/
def live : List (Event Pool) → List (Pool × Region)
  | [] => []
  | .alloc pool r :: h => (pool, r) :: live h
  | .free pool p :: h => (live h).filter fun b => ¬(b.1 = pool ∧ b.2.base = p)

@[simp] theorem live_alloc (pool : Pool) (r : Region) (h : List (Event Pool)) :
    live (.alloc pool r :: h) = (pool, r) :: live h := rfl

@[simp] theorem mem_live_free {pool : Pool} {p : Word} {h : List (Event Pool)}
    {b : Pool × Region} :
    b ∈ live (.free pool p :: h) ↔ b ∈ live h ∧ ¬(b.1 = pool ∧ b.2.base = p) := by
  rw [live, List.mem_filter, decide_eq_true_iff]

/-- The part of a history that concerns one pool. -/
def onPool (pool : Pool) (h : List (Event Pool)) : List (Event Pool) :=
  h.filter fun e => e.pool = pool

@[simp] theorem onPool_cons (pool : Pool) (e : Event Pool) (h : List (Event Pool)) :
    onPool pool (e :: h) = if e.pool = pool then e :: onPool pool h else onPool pool h := by
  by_cases he : e.pool = pool <;> simp [onPool, he]

theorem onPool_cons_of_ne {pool : Pool} {e : Event Pool} (h : List (Event Pool))
    (he : e.pool ≠ pool) : onPool pool (e :: h) = onPool pool h :=
  (onPool_cons pool e h).trans (if_neg he)

@[simp] theorem onPool_append (pool : Pool) (h h' : List (Event Pool)) :
    onPool pool (h ++ h') = onPool pool h ++ onPool pool h' := List.filter_append h h'

theorem live_onPool (pool : Pool) (h : List (Event Pool)) :
    live (onPool pool h) = (live h).filter fun b => b.1 = pool := by
  induction h with
  | nil => rfl
  | cons e h ih =>
    cases e with
    | alloc pool' r =>
      by_cases hp : (Event.alloc pool' r).pool = pool
      · have hp' : decide (pool' = pool) = true := decide_eq_true hp
        rw [onPool_cons, if_pos hp, live, live, ih, List.filter_cons, if_pos hp']
      · have hp' : ¬decide (pool' = pool) = true := of_decide_eq_true.mt hp
        rw [onPool_cons, if_neg hp, ih, live, List.filter_cons, if_neg hp']
    | free pool' p =>
      by_cases hp : (Event.free pool' p).pool = pool
      · rw [onPool_cons, if_pos hp, live, live, ih, List.filter_filter, List.filter_filter]
        simp only [Bool.and_comm]
      · rw [onPool_cons, if_neg hp, ih, live, List.filter_filter]
        refine List.filter_congr fun b _ => ?_
        by_cases hb : b.1 = pool
        · have hne : ¬pool = pool' := fun h => hp h.symm
          simp [hb, hne]
        · simp [hb]

/-- The blocks of a history are not empty, do not go around, and lie apart. -/
structure BlocksOk (l : List (Pool × Region)) : Prop where
  pos : ∀ b ∈ l, 0 < b.2.size
  inside : ∀ b ∈ l, b.2.base.toNat + b.2.size ≤ 2 ^ 32
  apart : l.Pairwise fun b c => b.2.Disjoint c.2

/-- The answer to a request for `size` bytes: a multiple of `align`, not NULL, apart from `l`. -/
structure Fresh (l : List (Pool × Region)) (p : Word) (size align : Nat) : Prop where
  ne_zero : p ≠ 0
  aligned : align ∣ p.toNat
  inside : p.toNat + size ≤ 2 ^ 32
  apart : ∀ b ∈ l, (⟨p, size⟩ : Region).Disjoint b.2

theorem Region.base_mem {r : Region} (h : 0 < r.size) : r.base ∈ r := by
  cases r
  rw [Region.mem_def]
  simpa using h

section
variable {l l' : List (Pool × Region)} {b c : Pool × Region} {p : Word} {size align : Nat}

omit [DecidableEq Pool]

theorem BlocksOk.nil : BlocksOk ([] : List (Pool × Region)) :=
  ⟨nofun, nofun, List.Pairwise.nil⟩

theorem BlocksOk.cons (H : BlocksOk l) (h : Fresh l p size align) (hsize : 0 < size)
    (pool : Pool) : BlocksOk ((pool, ⟨p, size⟩) :: l) where
  pos b hb := by
    rcases List.mem_cons.mp hb with rfl | hb
    · exact hsize
    · exact H.pos b hb
  inside b hb := by
    rcases List.mem_cons.mp hb with rfl | hb
    · exact h.inside
    · exact H.inside b hb
  apart := List.pairwise_cons.mpr ⟨fun b hb => h.apart b hb, H.apart⟩

theorem BlocksOk.sublist (H : BlocksOk l) (h : l'.Sublist l) : BlocksOk l' where
  pos b hb := H.pos b (h.subset hb)
  inside b hb := H.inside b (h.subset hb)
  apart := H.apart.sublist h

/-- Two live blocks that share an address are one. -/
theorem BlocksOk.eq_of_mem (H : BlocksOk l) (hb : b ∈ l) (hc : c ∈ l) {x : Word}
    (hx : x ∈ b.2) (hx' : x ∈ c.2) : b = c := by
  by_contra hne
  have : Std.Symm fun b c : Pool × Region => b.2.Disjoint c.2 := ⟨fun _ _ h => h.symm⟩
  exact H.apart.forall hb hc hne x hx hx'

theorem BlocksOk.disjoint (H : BlocksOk l) {q q' : Pool} {r s : Region} (hr : (q, r) ∈ l)
    (hs : (q', s) ∈ l) (hne : (q, r) ≠ (q', s)) : r.Disjoint s :=
  fun _ hx hx' => hne (H.eq_of_mem hr hs hx hx')

theorem Fresh.notMem (h : Fresh l p size align) (hsize : 0 < size) (pool : Pool) :
    (pool, (⟨p, size⟩ : Region)) ∉ l := fun hb =>
  h.apart _ hb p (Region.base_mem hsize) (Region.base_mem hsize)

end

/-- A block that is given back is the only one that goes. -/
theorem BlocksOk.mem_live_free {h : List (Event Pool)} {pool : Pool} {r : Region}
    {b : Pool × Region} (B : BlocksOk (live h)) (hr : (pool, r) ∈ live h) :
    b ∈ live (.free pool r.base :: h) ↔ b ∈ live h ∧ b ≠ (pool, r) := by
  rw [SyeLabs.mem_live_free]
  refine and_congr_right fun hb => not_congr ⟨fun h => ?_, ?_⟩
  · have hbase := Region.base_mem (B.pos b hb)
    rw [h.2] at hbase
    exact B.eq_of_mem hb hr hbase (Region.base_mem (B.pos _ hr))
  · rintro rfl
    exact ⟨rfl, rfl⟩

end SyeLabs
