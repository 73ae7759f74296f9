import Mathlib.Data.List.Induction
import Mathlib.Tactic.Common

/-!
# Preconditions of computations that may fail

`wp x Q E` says that `x` returns a value with `Q` or fails with an error in `E`. It is computed
along the structure of `x`; a `do … while` loop and a counting loop have an invariant each.
-/

namespace SyeLabs

variable {ε α β σ : Type}

def wp (x : Except ε α) (Q : α → Prop) (E : ε → Prop) : Prop :=
  match x with
  | .ok a => Q a
  | .error e => E e

section
variable {x : Except ε α} {f : α → Except ε β} {Q Q' : α → Prop} {R : β → Prop} {E : ε → Prop}
  {a : α} {e : ε}

@[simp] theorem wp_ok : wp (.ok a : Except ε α) Q E ↔ Q a := Iff.rfl

@[simp] theorem wp_error : wp (.error e : Except ε α) Q E ↔ E e := Iff.rfl

@[simp] theorem wp_pure : wp (pure a : Except ε α) Q E ↔ Q a := Iff.rfl

@[simp] theorem wp_throw : wp (throw e : Except ε α) Q E ↔ E e := Iff.rfl

@[simp] theorem wp_bind : wp (x >>= f) R E ↔ wp x (fun a => wp (f a) R E) E := by
  cases x <;> rfl

theorem wp.mono (h : wp x Q E) (hQ : ∀ a, Q a → Q' a) : wp x Q' E := by
  cases x with
  | ok a => exact hQ a h
  | error e => exact h

theorem wp.weaken {E' : ε → Prop} (h : wp x Q E) (hE : ∀ e, E e → E' e) : wp x Q E' := by
  cases x with
  | ok a => exact h
  | error e => exact hE e h

/-- A computation followed by another. -/
theorem wp.bind (h : wp x Q E) (hf : ∀ a, Q a → wp (f a) R E) : wp (x >>= f) R E :=
  wp_bind.mpr (h.mono hf)

theorem wp.trivial : wp x (fun _ => True) (fun _ => True) := by
  cases x <;> exact True.intro

/-- A computation that succeeds does so with its own result. -/
theorem wp.self : wp x (fun a => x = .ok a) (fun _ => True) := by
  cases x with
  | ok a => exact rfl
  | error e => exact True.intro

theorem wp.of_ok (h : wp x Q E) (hx : x = .ok a) : Q a := by
  rwa [hx] at h

theorem wp.and (h : wp x Q E) (h' : wp x Q' E) : wp x (fun a => Q a ∧ Q' a) E := by
  cases x with
  | ok a => exact ⟨h, h'⟩
  | error e => exact h

/-- The second fact is about results only. -/
theorem wp.and_ok (h : wp x Q E) (h' : wp x Q' fun _ => True) :
    wp x (fun a => Q a ∧ Q' a) E := by
  cases x with
  | ok a => exact ⟨h, h'⟩
  | error e => exact h

/-- No error is left that both facts allow. -/
theorem wp.and_not (h : wp x Q E) (h' : wp x Q' fun e => ¬E e) :
    wp x (fun a => Q a ∧ Q' a) fun _ => False := by
  cases x with
  | ok a => exact ⟨h, h'⟩
  | error e => exact h' h

theorem wp.exists_ok (h : wp x Q E) (hE : ∀ e, ¬E e) : ∃ a, x = .ok a ∧ Q a := by
  cases x with
  | ok a => exact ⟨a, rfl, h⟩
  | error e => exact absurd h (hE e)

/-- What holds of the result of a computation may be used for what is to be shown. -/
theorem wp.imp {R : α → Prop} (h : wp x Q E) (hR : wp x (fun a => Q a → R a) E) : wp x R E :=
  (h.and hR).mono fun _ ha => ha.2 ha.1

/-- A computation whose result is known. -/
theorem wp.eq_ok (h : wp x (· = a) (fun _ => False)) : x = .ok a := by
  cases x with
  | ok b => exact congrArg Except.ok h
  | error e => exact h.elim

theorem exists_of_map_ok {f : α → β} {b : β} (h : x.map f = .ok b) : ∃ a, x = .ok a ∧ f a = b := by
  cases x with
  | ok a => exact ⟨a, rfl, Except.ok.inj h⟩
  | error e => exact nomatch h

theorem exists_of_bind_ok {b : β} (h : x >>= f = .ok b) : ∃ a, x = .ok a ∧ f a = .ok b := by
  cases x with
  | ok a => exact ⟨a, rfl, h⟩
  | error e => exact nomatch h

/-- Two computations that begin alike. -/
theorem bind_eq_bind {f' : α → Except ε β} (h : ∀ a, x = .ok a → f a = f' a) :
    x >>= f = x >>= f' := by
  cases x with
  | ok a => exact h a rfl
  | error e => rfl

theorem exists_of_isOk (h : x.isOk = true) : ∃ a, x = .ok a := by
  cases x with
  | ok a => exact ⟨a, rfl⟩
  | error e => exact Bool.noConfusion h

/-- A computation whose value is known as far as `g` tells. -/
theorem exists_of_map_eq {g : α → β} {b : β} (h : (x.map g).toOption = some b) :
    ∃ a, x = .ok a ∧ g a = b := by
  cases x with
  | ok a => exact ⟨a, rfl, Option.some.inj h⟩
  | error e => exact nomatch h

/-- The same for two computations. -/
theorem exists_of_bind_eq {γ : Type} {g : α → β → γ} {b : γ}
    (h : (x.bind fun a => (f a).map (g a)).toOption = some b) :
    ∃ a a', x = .ok a ∧ f a = .ok a' ∧ g a a' = b := by
  cases x with
  | ok a =>
    obtain ⟨a', ha, hb⟩ := exists_of_map_eq h
    exact ⟨a, a', rfl, ha, hb⟩
  | error e => exact nomatch h

end

-- a goal is never to be unfolded into the runs of its loops
attribute [irreducible] wp

/-! ## Loops -/

/-- `do { body } while (again)`, cut off by `timeout` if it takes more rounds than `fuel`. -/
def doWhile (timeout : ε) (body : σ → Except ε σ) (again : σ → Bool) : Nat → σ → Except ε σ
  | 0, _ => .error timeout
  | fuel + 1, s => do
    let s ← body s
    if again s then doWhile timeout body again fuel s else pure s

/-- A loop of one round. -/
theorem doWhile_once {timeout : ε} {body : σ → Except ε σ} {again : σ → Bool} {fuel : Nat}
    (hfuel : 0 < fuel) {s s' : σ} (hbody : body s = .ok s') (hstop : again s' = false) :
    doWhile timeout body again fuel s = .ok s' := by
  obtain ⟨fuel, rfl⟩ := Nat.exists_eq_succ_of_ne_zero (Nat.ne_of_gt hfuel)
  rw [doWhile, hbody]
  simp only [bind, Except.bind, hstop, Bool.false_eq_true, if_false]
  rfl

/-- The rule for a loop that has `n + 1` rounds to go. -/
theorem wp_doWhile {timeout : ε} {body : σ → Except ε σ} {again : σ → Bool} {E : ε → Prop}
    (I : Nat → σ → Prop)
    (hbody : ∀ n s, I (n + 1) s → wp (body s) (fun s' => again s' = decide (0 < n) ∧ I n s') E)
    {n fuel : Nat} (hn : n < fuel) {s : σ} (hs : I (n + 1) s) :
    wp (doWhile timeout body again fuel s) (I 0) E := by
  induction n generalizing fuel s with
  | zero =>
    obtain ⟨fuel, rfl⟩ := Nat.exists_eq_succ_of_ne_zero (Nat.ne_of_gt hn)
    refine wp.bind (hbody 0 s hs) fun s' ⟨hstop, hs'⟩ => ?_
    simpa [hstop] using hs'
  | succ n ih =>
    obtain ⟨fuel, rfl⟩ := Nat.exists_eq_succ_of_ne_zero (Nat.ne_of_gt (Nat.zero_lt_of_lt hn))
    refine wp.bind (hbody (n + 1) s hs) fun s' ⟨hgo, hs'⟩ => ?_
    simpa [hgo] using ih (Nat.lt_of_succ_lt_succ hn) hs'

/-- The rule for a loop of which it does not matter how often it goes round. -/
theorem wp_doWhile_inv {timeout : ε} {body : σ → Except ε σ} {again : σ → Bool}
    {E : ε → Prop} {I : σ → Prop} (hbody : ∀ s, I s → wp (body s) I E) (htimeout : E timeout)
    {fuel : Nat} {s : σ} (hs : I s) : wp (doWhile timeout body again fuel s) I E := by
  induction fuel generalizing s with
  | zero => exact wp_error.mpr htimeout
  | succ fuel ih =>
    refine wp.bind (hbody s hs) fun s' hs' => ?_
    by_cases hgo : again s' = true
    · rw [if_pos hgo]
      exact ih hs'
    · rw [if_neg hgo]
      exact wp_pure.mpr hs'

/-- `for (i = 0; i < n; i++) body(i)`. -/
def forLoop (n : Nat) (body : Nat → σ → Except ε σ) (s : σ) : Except ε σ :=
  (List.range n).foldlM (fun s i => body i s) s

theorem forLoop_succ (n : Nat) (body : Nat → σ → Except ε σ) (s : σ) :
    forLoop (n + 1) body s = forLoop n body s >>= body n := by
  rw [forLoop, List.range_succ, List.foldlM_append]
  simp only [List.foldlM_cons, List.foldlM_nil, bind_pure]
  rfl

/-- A change of the state that each round carries along. -/
theorem forLoop_map {body : Nat → σ → Except ε σ} {f : σ → σ}
    (hbody : ∀ i s, body i (f s) = (body i s).map f) (n : Nat) (s : σ) :
    forLoop n body (f s) = (forLoop n body s).map f := by
  induction n with
  | zero => rfl
  | succ n ih =>
    rw [forLoop_succ, forLoop_succ, ih]
    cases forLoop n body s with
    | ok s' => exact hbody n s'
    | error e => rfl

/-- Two loops whose rounds are the same in the states that the first one goes through. -/
theorem forLoop_congr {body body' : Nat → σ → Except ε σ} {E : ε → Prop} (I : Nat → σ → Prop)
    {n : Nat} (heq : ∀ i s, i < n → I i s → body i s = body' i s)
    (hbody : ∀ i s, i < n → I i s → wp (body i s) (I (i + 1)) E) {s : σ} (hs : I 0 s) :
    forLoop n body s = forLoop n body' s := by
  have h : ∀ k ≤ n, forLoop k body s = forLoop k body' s ∧ wp (forLoop k body s) (I k) E := by
    intro k
    induction k with
    | zero => exact fun _ => ⟨rfl, wp_ok.mpr hs⟩
    | succ k ih =>
      intro hk
      obtain ⟨hsame, hwp⟩ := ih (by omega)
      rw [forLoop_succ, forLoop_succ, ← hsame]
      exact ⟨bind_eq_bind fun s' hrun => heq k s' (by omega) (hwp.of_ok hrun),
        wp.bind hwp fun s' hs' => hbody k s' (by omega) hs'⟩
  exact (h n (Nat.le_refl n)).1

theorem wp_forLoop {body : Nat → σ → Except ε σ} {E : ε → Prop} (I : Nat → σ → Prop) {n : Nat}
    (hbody : ∀ i s, i < n → I i s → wp (body i s) (I (i + 1)) E) {s : σ} (hs : I 0 s) :
    wp (forLoop n body s) (I n) E := by
  have h : ∀ k ≤ n, wp (forLoop k body s) (I k) E := by
    intro k
    induction k with
    | zero => exact fun _ => wp_ok.mpr hs
    | succ k ih =>
      intro hk
      rw [forLoop_succ]
      exact wp.bind (ih (by omega)) fun s' hs' => hbody k s' (by omega) hs'
  exact h n (Nat.le_refl n)

end SyeLabs
