import Mathlib.Data.List.Basic

/-!
# Schedules of processes that commute

A system of processes of which each step is an event. If two steps that are both possible can be
made in either order, a run that cannot go on without input is determined by its input, however
the steps are interleaved.
-/

namespace SyeLabs.Schedules

variable {S E : Type}

def run (step : S → E → Option S) (s : S) (events : List E) : Option S := events.foldlM step s

/-- No step is possible that takes no input. -/
def Quiet (step : S → E → Option S) (input : E → Bool) (s : S) : Prop :=
  ∀ e, input e = false → step s e = none

/-- Steps can be made in either order, unless they take the same input. -/
def Diamond (step : S → E → Option S) (input : E → Bool) : Prop :=
  ∀ ⦃s t t' : S⦄ ⦃e e' : E⦄, e ≠ e' → ¬(input e = true ∧ input e' = true) →
    step s e = some t → step s e' = some t' → ∃ u, step t e' = some u ∧ step t' e = some u

section
variable {step : S → E → Option S} {input : E → Bool} {s t t' s₁ : S} {e : E} {events : List E}

theorem run_cons : run step s (e :: events) = some t ↔
    ∃ s', step s e = some s' ∧ run step s' events = some t := by
  rw [run, List.foldlM_cons]
  exact Option.bind_eq_some_iff

/-- A step that a run leaves out is still possible at its end. -/
theorem Diamond.strip (D : Diamond step input) (h : run step s events = some t)
    (he : step s e = some s₁) (hmem : e ∉ events)
    (hinput : input e = true → ∀ d ∈ events, input d = false) : ∃ u, step t e = some u := by
  induction events generalizing s s₁ with
  | nil =>
    cases h
    exact ⟨s₁, he⟩
  | cons d events ih =>
    obtain ⟨s', hd, h⟩ := run_cons.mp h
    obtain ⟨hne, hmem⟩ := List.ne_and_not_mem_of_not_mem_cons hmem
    have hboth : ¬(input e = true ∧ input d = true) := fun ⟨hi, hj⟩ =>
      absurd (hinput hi d List.mem_cons_self) (by simp [hj])
    obtain ⟨u, -, hu⟩ := D hne hboth he hd
    exact ih h hu hmem fun hi c hc => hinput hi c (List.mem_cons_of_mem d hc)

variable [DecidableEq E]

/-- A step that a run makes later on can be made first. -/
theorem Diamond.pull (D : Diamond step input) (h : run step s events = some t)
    (he : step s e = some s₁) (hmem : e ∈ events)
    (hinput : input e = true → (events.filter input).head? = some e) :
    run step s₁ (events.erase e) = some t := by
  induction events generalizing s s₁ with
  | nil => exact absurd hmem List.not_mem_nil
  | cons d events ih =>
    obtain ⟨s', hd, h⟩ := run_cons.mp h
    by_cases heq : d = e
    · subst heq
      rw [List.erase_cons_head]
      rwa [← Option.some.inj (he.symm.trans hd)] at h
    · have hd' : input e = true → input d = false := by
        intro hi
        have hhead := hinput hi
        cases hdi : input d with
        | false => rfl
        | true =>
          rw [List.filter_cons_of_pos hdi] at hhead
          exact absurd (Option.some.inj hhead) heq
      have hboth : ¬(input e = true ∧ input d = true) := fun ⟨hi, hj⟩ =>
        absurd (hd' hi) (by simp [hj])
      obtain ⟨u, hu, hu'⟩ := D (Ne.symm heq) hboth he hd
      rw [List.erase_cons_tail (by simpa using heq)]
      refine run_cons.mpr ⟨u, hu, ih h hu' ?_ fun hi => ?_⟩
      · exact (List.mem_cons.mp hmem).resolve_left (Ne.symm heq)
      · have hhead := hinput hi
        rwa [List.filter_cons_of_neg (by simp [hd' hi])] at hhead

omit [DecidableEq E] in
theorem Quiet.run_eq (hs : Quiet step input s) (h : run step s events = some t)
    (hevents : events.filter input = []) : events = [] ∧ t = s := by
  cases events with
  | nil => exact ⟨rfl, (Option.some.inj h).symm⟩
  | cons d events =>
    obtain ⟨s', hd, -⟩ := run_cons.mp h
    have hinput := List.filter_eq_nil_iff.mp hevents d List.mem_cons_self
    exact absurd ((hs d (by simpa using hinput)).symm.trans hd) nofun

/-- Runs with the same input that end in quiet states make the same steps, in one order or
another, and end in the same state. -/
theorem Diamond.unique (D : Diamond step input) {events' : List E}
    (h : run step s events = some t) (h' : run step s events' = some t')
    (hinput : events.filter input = events'.filter input) (ht : Quiet step input t)
    (ht' : Quiet step input t') : events.Perm events' ∧ t = t' := by
  induction events' generalizing s events with
  | nil =>
    cases h'
    obtain ⟨rfl, rfl⟩ := ht'.run_eq h hinput
    exact ⟨.nil, rfl⟩
  | cons e events' ih =>
    obtain ⟨s₁, he, h'⟩ := run_cons.mp h'
    have hhead : input e = true → (events.filter input).head? = some e := fun hi => by
      rw [hinput, List.filter_cons_of_pos hi, List.head?_cons]
    have hmem : e ∈ events := by
      by_contra hmem
      cases hi : input e with
      | true => exact hmem (List.mem_of_mem_filter (List.mem_of_head? (hhead hi)))
      | false =>
        obtain ⟨u, hu⟩ := D.strip h he hmem fun hj => absurd (hi.symm.trans hj) nofun
        exact absurd ((ht e hi).symm.trans hu) nofun
    have hrest : (events.erase e).filter input = events'.filter input := by
      rw [← List.erase_filter, hinput]
      cases hi : input e with
      | true => rw [List.filter_cons_of_pos hi, List.erase_cons_head]
      | false =>
        rw [List.filter_cons_of_neg (by simp [hi])]
        exact List.erase_of_not_mem fun hm => by simp [hi] at hm
    obtain ⟨hperm, rfl⟩ := ih (D.pull h he hmem hhead) h' hrest
    exact ⟨(List.perm_cons_erase hmem).trans (hperm.cons e), rfl⟩

end
end SyeLabs.Schedules
