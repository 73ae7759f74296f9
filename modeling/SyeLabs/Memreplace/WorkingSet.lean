import SyeLabs.Memreplace.Residency

/-!
# WSC mode against the working set

The run is counted by an unbounded clock that also records when each page was last in use; the
program itself keeps `TVC`, the clock modulo 256, and the stamps `TDU`, which `updateTDU` never
writes. What the scan of `replaceWSC` sees of the ages is therefore only `DELTA < TVC`.
-/

namespace SyeLabs.Memreplace
open SyeLabs.Scan

/-- A run with its clock and, for each page, the latest time at which it was resident with its
reference bit set at the end of an access (0 if never). -/
structure Clocked where
  state : State NB_PAGES
  clock : Nat
  lastUse : Fin NB_PAGES → Nat

def Clocked.access (c : Clocked) (p : Fin NB_PAGES) : Clocked :=
  let s := accessWSC c.state p
  { state := s
    clock := c.clock + 1
    lastUse := fun q => if s.valid q && s.referenced q then c.clock + 1 else c.lastUse q }

def runWSC (h : List (Fin NB_PAGES)) : Clocked :=
  h.foldl Clocked.access ⟨init_page_table, 0, fun _ => 0⟩

@[simp] theorem runWSC_snoc (h : List (Fin NB_PAGES)) (p : Fin NB_PAGES) :
    runWSC (h ++ [p]) = (runWSC h).access p := by
  simp [runWSC]

theorem run_WSC (h : List (Fin NB_PAGES)) : run .WSC h = some (runWSC h).state := by
  induction h using List.reverseRecOn with
  | nil => rfl
  | append_singleton h p ih => rw [run_snoc, ih, runWSC_snoc]; rfl

/-- Resident, not referenced, and last used more than `DELTA` accesses ago. -/
def OutsideWorkingSet (c : Clocked) (q : Fin NB_PAGES) : Prop :=
  c.state.valid q = true ∧ c.state.referenced q = false ∧ DELTA < (c.clock : Int) - c.lastUse q

/-- `replaceWSC` evicts `v` and nothing else. -/
def Evicts {n : Nat} (s : State n) (v : Fin n) : Prop :=
  ∀ q, s.valid q = true ∧ (replaceWSC s).valid q = false ↔ q = v

/-- Whenever a fault of the run `l` finds a page outside the working set, the lowest such page
is evicted. -/
def RespectsWorkingSet (l : List (Fin NB_PAGES)) : Prop :=
  ∀ h p rest, l = h ++ p :: rest → (runWSC h).state.valid p = false →
    ∀ v, IsFirst (OutsideWorkingSet (runWSC h)) v → Evicts (runWSC h).state v

/-- The page that comes first for a scan without stamps, the first unreferenced resident page if
the clock modulo 256 exceeds `DELTA` and the first resident page otherwise, is outside the
working set if any page is. -/
def FirstIsOutside (c : Clocked) : Prop :=
  (∃ q, OutsideWorkingSet c q) →
    ∃ v, OutsideWorkingSet c v ∧
      IsFirst (fun i => c.state.valid i = true ∧
        (DELTA < (c.clock % 256 : Nat) → c.state.referenced i = false)) v

/-! ## What the program knows of the clock -/

theorem accessWSC_TDU {n : Nat} (s : State n) (p : Fin n) : (accessWSC s p).TDU = s.TDU := by
  have hTDU : (replaceWSC s).TDU = s.TDU := by
    unfold replaceWSC
    rw [scanWSC_eq _ (List.nodup_finRange n)]
    split <;> next h => obtain ⟨rfl, -⟩ := Prod.mk.inj h; rfl
  cases hp : s.valid p with
  | true => rw [accessWSC_hit hp]; rfl
  | false => rw [accessWSC_fault hp]; exact hTDU

theorem accessWSC_TVC {n : Nat} (s : State n) (p : Fin n) :
    (accessWSC s p).TVC = s.TVC + 1 := by
  cases hp : s.valid p with
  | true => rw [accessWSC_hit hp]; rfl
  | false =>
    rw [accessWSC_fault hp]
    exact congrArg (· + 1) (replaceWSC_TVC s)

theorem runWSC_TVC (h : List (Fin NB_PAGES)) :
    (runWSC h).state.TVC.toNat = (runWSC h).clock % 256 := by
  induction h using List.reverseRecOn with
  | nil => rfl
  | append_singleton h p ih =>
    rw [runWSC_snoc]
    simp only [Clocked.access, accessWSC_TVC, BitVec.toNat_add, ih]
    simp

/-- The stamps keep their initial value for ever. -/
theorem runWSC_TDU (h : List (Fin NB_PAGES)) (q : Fin NB_PAGES) : (runWSC h).state.TDU q = 0 := by
  induction h using List.reverseRecOn with
  | nil => rfl
  | append_singleton h p ih =>
    rw [runWSC_snoc]
    simpa only [Clocked.access, accessWSC_TDU] using ih

theorem runWSC_aged (h : List (Fin NB_PAGES)) (q : Fin NB_PAGES) :
    aged (runWSC h).state q = decide (DELTA < ((runWSC h).clock % 256 : Nat)) := by
  simp [aged, runWSC_TDU, runWSC_TVC]

/-! ## One fault -/

theorem evicts_of_isFirst {n : Nat} {s : State n} {v : Fin n}
    (hv : IsFirst (fun i => evictable s i = true) v) : Evicts s v := by
  have hvalid : s.valid v = true := by
    have := hv.1
    simp only [evictable, Bool.and_eq_true] at this
    exact this.1.1
  intro q
  rw [replaceWSC_of_evictable hv]
  by_cases hq : q = v <;> simp [hq, hvalid]

theorem evicts_of_isFirst_valid {n : Nat} {s : State n} {v : Fin n}
    (hs : ∀ i, evictable s i = false) (hv : IsFirst (fun i => s.valid i = true) v) :
    Evicts s v := by
  have hvalid := hv.1
  intro q
  rw [replaceWSC_of_not_evictable hs hv]
  by_cases hq : q = v <;> simp [hq, hvalid]

theorem Evicts.unique {n : Nat} {s : State n} {v w : Fin n} (hv : Evicts s v)
    (hw : Evicts s w) : v = w :=
  (hw v).mp ((hv v).mpr rfl)

/-- The page evicted at a fault comes first among the resident pages, the referenced ones being
passed over only while `TVC` exceeds `DELTA`. -/
theorem runWSC_evicts (h : List (Fin NB_PAGES))
    (hex : ∃ q, OutsideWorkingSet (runWSC h) q) :
    ∃ w, Evicts (runWSC h).state w ∧
      IsFirst (fun i => (runWSC h).state.valid i = true ∧
        (DELTA < ((runWSC h).clock % 256 : Nat) → (runWSC h).state.referenced i = false)) w := by
  obtain ⟨q, hq, href, -⟩ := hex
  by_cases hc : DELTA < ((runWSC h).clock % 256 : Nat)
  · have hev : ∀ i, evictable (runWSC h).state i = true ↔ (runWSC h).state.valid i = true ∧
        (DELTA < ((runWSC h).clock % 256 : Nat) → (runWSC h).state.referenced i = false) := by
      intro i
      have hage : aged (runWSC h).state i = true := by rw [runWSC_aged, decide_eq_true hc]
      simp only [evictable, hage, Bool.and_true, Bool.and_eq_true, Bool.not_eq_true', hc,
        forall_const]
    obtain ⟨w, hw⟩ := exists_isFirst (P := fun i => evictable (runWSC h).state i = true)
      ⟨q, (hev q).mpr ⟨hq, fun _ => href⟩⟩
    exact ⟨w, evicts_of_isFirst hw, (IsFirst.congr hev).mp hw⟩
  · have hnone : ∀ i, evictable (runWSC h).state i = false := by
      intro i
      have hage : aged (runWSC h).state i = false := by rw [runWSC_aged, decide_eq_false hc]
      simp only [evictable, hage, Bool.and_false]
    obtain ⟨w, hw⟩ := exists_isFirst (P := fun i => (runWSC h).state.valid i = true) ⟨q, hq⟩
    exact ⟨w, evicts_of_isFirst_valid hnone hw,
      (IsFirst.congr fun i => ⟨fun hi => ⟨hi, fun hlt => absurd hlt hc⟩, And.left⟩).mp hw⟩

theorem fault_respects_iff (h : List (Fin NB_PAGES)) :
    (∀ v, IsFirst (OutsideWorkingSet (runWSC h)) v → Evicts (runWSC h).state v) ↔
      FirstIsOutside (runWSC h) := by
  constructor
  · intro H hex
    obtain ⟨w, hw, hfirst⟩ := runWSC_evicts h hex
    obtain ⟨v, hv⟩ := exists_isFirst hex
    have hvw : v = w := (H v hv).unique hw
    exact ⟨w, hvw ▸ hv.1, hfirst⟩
  · intro H v hv
    obtain ⟨w, hw, hfirst⟩ := runWSC_evicts h ⟨v, hv.1⟩
    obtain ⟨w', hw', hfirst'⟩ := H ⟨v, hv.1⟩
    cases hfirst.unique hfirst'
    have hsub : ∀ i, OutsideWorkingSet (runWSC h) i → (runWSC h).state.valid i = true ∧
        (DELTA < ((runWSC h).clock % 256 : Nat) → (runWSC h).state.referenced i = false) :=
      fun i hi => ⟨hi.1, fun _ => hi.2.1⟩
    exact (hfirst.eq_iff hv hsub).mpr hw' ▸ hw

/-! ## Runs -/

/-- A run respects the working set exactly if at every fault the page that comes first for a
scan without stamps is outside the working set whenever some page is. -/
theorem respectsWorkingSet_iff (l : List (Fin NB_PAGES)) :
    RespectsWorkingSet l ↔
      ∀ h p rest, l = h ++ p :: rest → (runWSC h).state.valid p = false →
        FirstIsOutside (runWSC h) := by
  constructor
  · exact fun H h p rest hsplit hp => (fault_respects_iff h).mp (H h p rest hsplit hp)
  · exact fun H h p rest hsplit hp => (fault_respects_iff h).mpr (H h p rest hsplit hp)

/-- Page 1, used at time 2, is evicted at time 3 while page 2, never used, is resident. -/
theorem not_respectsWorkingSet_stamps :
    (∃ s, run .WSC [0, 1, 3, 0] = some s ∧ s.valid 1 = false ∧ s.valid 2 = true) ∧
      ¬RespectsWorkingSet [0, 1, 3, 0] := by
  refine ⟨⟨_, run_WSC _, by decide, by decide⟩, fun H => ?_⟩
  have h2 : IsFirst (OutsideWorkingSet (runWSC [0, 1, 3])) 2 := by
    simp only [IsFirst, OutsideWorkingSet]
    decide
  have hev := H [0, 1, 3] 0 [] rfl (by decide) 2 h2
  exact absurd ((hev 1).mp (by decide)) (by decide)

end SyeLabs.Memreplace
