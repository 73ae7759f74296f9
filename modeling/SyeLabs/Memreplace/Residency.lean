import Mathlib.Data.Fintype.Card
import Mathlib.Data.Finset.Card
import Mathlib.Data.Fin.VecNotation
import SyeLabs.Memreplace.SecondChance

/-!
# Residency over whole runs

Each access keeps the resident pages or exchanges one of them for the accessed page: `Moved`
says so once for both modes, and the invariant of the table (`WellFormed`) follows from it.
-/

namespace SyeLabs.Memreplace
open SyeLabs.Scan

variable {n : Nat}

/-- What an access of `p` does to the bits of the table. -/
inductive Moved (s : State n) (p : Fin n) (s' : State n) : Prop
  | hit (hp : s.valid p = true) (valid : ∀ i, s'.valid i = s.valid i)
      (swapped : ∀ i, s'.swapped i = s.swapped i)
      (referenced : ∀ i, s'.referenced i = true → i = p ∨ s.referenced i = true)
  | fault (v : Fin n) (hp : s.valid p = false) (hv : s.valid v = true)
      (valid : ∀ i, s'.valid i = true ↔ i = p ∨ i ≠ v ∧ s.valid i = true)
      (swapped : ∀ i, s'.swapped i = true ↔ i ≠ p ∧ (i = v ∨ s.swapped i = true))
      (referenced : ∀ i, s'.referenced i = true → i = p ∨ i ≠ v ∧ s.referenced i = true)

/-! ## The LRU branch -/

theorem lowestPage_eq_some {s : State n} {v : Fin n} :
    lowestPage s = some v ↔ IsLeast s.valid (fun i => (s.TDU i).toNat) v :=
  foldl_selectMin_eq_some

theorem lowestPage_valid {s : State n} {v : Fin n} (h : lowestPage s = some v) :
    s.valid v = true := (lowestPage_eq_some.mp h).1

/-- The search of `replaceLRU` fails only on a table without a resident page. -/
theorem lowestPage_exists {s : State n} (h : ∃ i, s.valid i = true) :
    ∃ v, lowestPage s = some v := by
  have hmin := foldl_selectMin_finRange s.valid fun i => (s.TDU i).toNat
  cases hv : lowestPage s with
  | some v => exact ⟨v, rfl⟩
  | none =>
    rw [lowestPage] at hv
    rw [hv] at hmin
    obtain ⟨i, hi⟩ := h
    simp [hmin i] at hi

theorem accessLRU_hit {s : State n} {p : Fin n} (hp : s.valid p = true) :
    accessLRU s p = some (inc_compteur s p) := by
  simp [accessLRU, hp]

theorem accessLRU_fault {s : State n} {p : Fin n} (hp : s.valid p = false) :
    accessLRU s p =
      (lowestPage s).map fun v => inc_compteur ((s.modify v swapOut).modify p swapIn) p := by
  cases hv : lowestPage s <;> simp [accessLRU, replaceLRU, hp, hv]

theorem accessLRU_exists {s : State n} {p : Fin n} (h : ∃ i, s.valid i = true) :
    ∃ s', accessLRU s p = some s' := by
  cases hp : s.valid p with
  | true => exact ⟨_, accessLRU_hit hp⟩
  | false =>
    obtain ⟨v, hv⟩ := lowestPage_exists h
    exact ⟨_, by rw [accessLRU_fault hp, hv]; rfl⟩

theorem accessLRU_moved {s s' : State n} {p : Fin n} (h : accessLRU s p = some s')
    (hs : ∀ i, s.referenced i = false) :
    Moved s p s' ∧ (∀ i, s'.referenced i = false) ∧
      ∀ i, tag (s'.page_table i) = tag (s.page_table i) := by
  cases hp : s.valid p with
  | true =>
    rw [accessLRU_hit hp] at h
    cases h
    exact ⟨.hit hp (fun _ => rfl) (fun _ => rfl) fun _ => .inr, hs, fun _ => rfl⟩
  | false =>
    rw [accessLRU_fault hp, Option.map_eq_some_iff] at h
    obtain ⟨v, hv, rfl⟩ := h
    have hvalid := lowestPage_valid hv
    have href : ∀ i, (inc_compteur ((s.modify v swapOut).modify p swapIn) p).referenced i =
        s.referenced i := fun i =>
      (State.referenced_modify_of _ _ _ isReferenced_swapIn).trans
        (State.referenced_modify_of _ _ _ isReferenced_swapOut)
    refine ⟨.fault v hp hvalid (fun i => ?_) (fun i => ?_) (fun i hi => ?_), ?_, fun i => ?_⟩
    · change ((s.modify v swapOut).modify p swapIn).valid i = true ↔ _
      by_cases hip : i = p <;> by_cases hiv : i = v <;> simp [hip, hiv]
    · change ((s.modify v swapOut).modify p swapIn).swapped i = true ↔ _
      by_cases hip : i = p <;> by_cases hiv : i = v <;> simp [hip, hiv]
    · rw [href i, hs i] at hi
      cases hi
    · exact fun i => (href i).trans (hs i)
    · exact (State.tag_modify _ _ _ tag_swapIn).trans (State.tag_modify _ _ _ tag_swapOut)

/-! ## The WSC branch -/

/-- The page that `replaceWSC` evicts is resident and its reference bit is clear by then. -/
theorem replaceWSC_evicts {s : State n} (h : ∃ i, s.valid i = true) :
    ∃ v, s.valid v = true ∧ (∀ i, (replaceWSC s).valid i = if i = v then false else s.valid i) ∧
      (∀ i, (replaceWSC s).swapped i = if i = v then true else s.swapped i) ∧
      (∀ i, (replaceWSC s).referenced i = true → i ≠ v ∧ s.referenced i = true) ∧
      ∀ i, tag ((replaceWSC s).page_table i) = tag (s.page_table i) := by
  by_cases he : ∃ i, evictable s i = true
  · obtain ⟨v, hv⟩ := exists_isFirst he
    have hev := hv.1
    simp only [evictable, Bool.and_eq_true, Bool.not_eq_true'] at hev
    refine ⟨v, hev.1.1, ?_⟩
    rw [replaceWSC_of_evictable hv]
    refine ⟨fun i => by simp, fun i => by simp, fun i hi => ?_, fun i => ?_⟩
    · rw [State.referenced_modify, isReferenced_swapOut] at hi
      split at hi
      · have hclear := State.clearRefs_referenced s (fun i => i < v ∧ s.valid i = true) v
        simp only [State.referenced, lt_irrefl, false_and, if_false] at hclear hi hev
        rw [hclear, hev.1.2] at hi
        cases hi
      · next hne =>
        rw [State.clearRefs_referenced] at hi
        split at hi
        · cases hi
        · exact ⟨hne, hi⟩
    · exact (State.tag_modify _ _ _ tag_swapOut).trans (State.clearRefs_tag ..)
  · have hnone : ∀ i, evictable s i = false := fun i => by
      simpa using fun hi => he ⟨i, hi⟩
    obtain ⟨v, hv⟩ := exists_isFirst h
    refine ⟨v, hv.1, ?_⟩
    rw [replaceWSC_of_not_evictable hnone hv]
    refine ⟨fun i => by simp, fun i => by simp, fun i hi => ?_, fun i => ?_⟩
    · rw [State.referenced_modify, isReferenced_swapOut] at hi
      split at hi
      · have hclear := State.clearRefs_referenced s (fun i => s.valid i = true) v
        simp only [State.referenced, hv.1, if_true] at hclear hi
        rw [hclear] at hi
        cases hi
      · next hne =>
        rw [State.clearRefs_referenced] at hi
        split at hi
        · cases hi
        · exact ⟨hne, hi⟩
    · exact (State.tag_modify _ _ _ tag_swapOut).trans (State.clearRefs_tag ..)

/-- The scan of `replaceWSC` ends without a candidate only on a table without a resident page. -/
theorem scanWSC_exists {s : State n} (h : ∃ i, s.valid i = true) :
    ∃ v, (scanWSC (List.finRange n) s none).2 = some v := by
  obtain ⟨v, hv⟩ := exists_isFirst h
  rw [scanWSC_eq _ (List.nodup_finRange n), find?_finRange.mpr hv]
  cases (List.finRange n).find? (evictable s) with
  | none => exact ⟨v, rfl⟩
  | some w => exact ⟨w, rfl⟩

/-- `REF_BIT_MASK & VALID_BIT_MASK` is 0: the condition of `updateTDU` never holds. -/
theorem updateTDU_eq (s : State n) : updateTDU s = s := by
  have h : ∀ e : BitVec 8, (e &&& REF_BIT_MASK &&& VALID_BIT_MASK != 0) = false := by decide
  simp only [updateTDU, h, Bool.false_eq_true, if_false]

theorem replaceWSC_TVC (s : State n) : (replaceWSC s).TVC = s.TVC := by
  unfold replaceWSC
  rw [scanWSC_eq _ (List.nodup_finRange n)]
  split <;> next h => obtain ⟨rfl, -⟩ := Prod.mk.inj h; rfl

theorem accessWSC_hit {s : State n} {p : Fin n} (hp : s.valid p = true) :
    accessWSC s p = (s.modify p reference).tick := by
  simp [accessWSC, updateTDU_eq, hp]

theorem accessWSC_fault {s : State n} {p : Fin n} (hp : s.valid p = false) :
    accessWSC s p = (((replaceWSC s).modify p clearSwap).modify p reference).tick := by
  simp [accessWSC, updateTDU_eq, hp]

theorem accessWSC_moved {s : State n} {p : Fin n} (h : ∃ i, s.valid i = true) :
    Moved s p (accessWSC s p) ∧
      ∀ i, tag ((accessWSC s p).page_table i) = tag (s.page_table i) := by
  cases hp : s.valid p with
  | true =>
    rw [accessWSC_hit hp]
    refine ⟨.hit hp (fun i => ?_) (fun i => ?_) (fun i hi => ?_), fun i => ?_⟩
    · rw [State.valid_tick, State.valid_modify]
      split
      · next e => rw [isValid_reference, e, hp]
      · rfl
    · exact s.swapped_modify_of p i isSwapped_reference
    · rw [State.referenced_tick, State.referenced_modify] at hi
      split at hi
      · next e => exact .inl e
      · exact .inr hi
    · exact State.tag_modify _ _ _ tag_reference
  | false =>
    rw [accessWSC_fault hp]
    obtain ⟨v, hv, hvalid, hswapped, href, htag⟩ := replaceWSC_evicts h
    have hpv : p ≠ v := by rintro rfl; simp [hp] at hv
    refine ⟨.fault v hp hv (fun i => ?_) (fun i => ?_) (fun i hi => ?_), fun i => ?_⟩
    · rw [State.valid_tick, State.valid_modify, State.valid_modify_of _ _ _ isValid_clearSwap,
        hvalid]
      by_cases hip : i = p <;> by_cases hiv : i = v <;> simp [hip, hiv]
    · rw [State.swapped_tick, State.swapped_modify_of _ _ _ isSwapped_reference,
        State.swapped_modify, hswapped]
      by_cases hip : i = p <;> by_cases hiv : i = v <;> simp [hip, hiv]
    · rw [State.referenced_tick, State.referenced_modify] at hi
      split at hi
      · next e => exact .inl e
      · rw [State.referenced_modify_of _ _ _ isReferenced_clearSwap] at hi
        exact .inr (href i hi)
    · exact (State.tag_modify _ _ _ tag_reference).trans
        ((State.tag_modify _ _ _ tag_clearSwap).trans (htag i))

/-! ## The invariant -/

/-- Three frames are in use, no entry is both in memory and in swap, only resident pages are
referenced, and the upper bits of an entry are its page number. -/
structure WellFormed (s : State NB_PAGES) : Prop where
  residents : (Finset.univ.filter fun i => s.valid i = true).card = 3
  exclusive : ∀ i, s.valid i = true → s.swapped i = false
  referenced : ∀ i, s.referenced i = true → s.valid i = true
  page_number : ∀ i, (s.page_table i >>> 4).toNat = i.val
  unused : ∀ i, (s.page_table i).getLsbD 3 = false

namespace WellFormed

variable {s s' : State NB_PAGES} {p : Fin NB_PAGES}

theorem exists_valid (H : WellFormed s) : ∃ i, s.valid i = true := by
  have hpos : 0 < (Finset.univ.filter fun i => s.valid i = true).card := by
    rw [H.residents]; decide
  obtain ⟨i, hi⟩ := Finset.card_pos.mp hpos
  exact ⟨i, (Finset.mem_filter.mp hi).2⟩

theorem init : WellFormed init_page_table where
  residents := by decide
  exclusive := by decide
  referenced := by decide
  page_number := by decide
  unused := by decide

private theorem bits_of_tag {e e' : BitVec 8} (h : tag e' = tag e) :
    e' >>> 4 = e >>> 4 ∧ e'.getLsbD 3 = e.getLsbD 3 := by
  have hshift : ∀ e : BitVec 8, e >>> 4 = tag e >>> 4 := by decide
  have hbit : ∀ e : BitVec 8, e.getLsbD 3 = (tag e).getLsbD 3 := by decide
  exact ⟨by rw [hshift e', h, ← hshift], by rw [hbit e', h, ← hbit]⟩

theorem moved (H : WellFormed s) (M : Moved s p s')
    (htag : ∀ i, tag (s'.page_table i) = tag (s.page_table i)) : WellFormed s' := by
  have hnum : ∀ i, (s'.page_table i >>> 4).toNat = i.val := fun i => by
    rw [(bits_of_tag (htag i)).1, H.page_number]
  have hunused : ∀ i, (s'.page_table i).getLsbD 3 = false := fun i => by
    rw [(bits_of_tag (htag i)).2, H.unused]
  cases M with
  | hit hp hv hs hr =>
    refine ⟨by simpa only [hv] using H.residents, fun i hi => ?_, fun i hi => ?_, hnum, hunused⟩
    · rw [hs, H.exclusive i (hv i ▸ hi)]
    · rw [hv]
      rcases hr i hi with rfl | hi
      · exact hp
      · exact H.referenced i hi
  | fault v hp hv hvalid hswapped hr =>
    refine ⟨?_, fun i hi => ?_, fun i hi => ?_, hnum, hunused⟩
    · -- the new set of residents is the old one with `v` exchanged for `p`
      have hset : (Finset.univ.filter fun i => s'.valid i = true) =
          insert p ((Finset.univ.filter fun i => s.valid i = true).erase v) := by
        ext i
        simp [hvalid]
      have hnot : p ∉ (Finset.univ.filter fun i => s.valid i = true).erase v := by simp [hp]
      rw [hset, Finset.card_insert_of_notMem hnot, Finset.card_erase_of_mem (by simpa using hv),
        H.residents]
    · refine Bool.eq_false_iff.mpr fun hsw => ?_
      obtain ⟨hne, h⟩ := (hswapped i).mp hsw
      obtain ⟨hiv, hi⟩ := ((hvalid i).mp hi).resolve_left hne
      rw [H.exclusive i hi] at h
      exact Bool.false_ne_true (h.resolve_left hiv)
    · refine (hvalid i).mpr ?_
      rcases hr i hi with h | ⟨hne, h⟩
      · exact .inl h
      · exact .inr ⟨hne, H.referenced i h⟩

end WellFormed

/-- A page that is resident or in swap stays in one of the two. -/
theorem Moved.known {s s' : State n} {p q : Fin n} (M : Moved s p s')
    (hq : s.valid q = true ∨ s.swapped q = true) : s'.valid q = true ∨ s'.swapped q = true := by
  cases M with
  | hit _ hv hs _ => rwa [hv, hs]
  | fault v hp hv hvalid hswapped _ =>
    rw [hvalid, hswapped]
    by_cases hqp : q = p <;> by_cases hqv : q = v <;> simp_all

theorem Moved.valid_self {s s' : State n} {p : Fin n} (M : Moved s p s') :
    s'.valid p = true := by
  cases M with
  | hit hp hv _ _ => rw [hv, hp]
  | fault v hp hv hvalid _ _ => exact (hvalid p).mpr (.inl rfl)

/-! ## Runs -/

/-- The invariant of a run: in LRU mode no reference bit is ever set. -/
def Invariant (mode : Mode) (s : State NB_PAGES) : Prop :=
  WellFormed s ∧ (mode = .LRU → ∀ i, s.referenced i = false)

theorem Invariant.access {mode : Mode} {s : State NB_PAGES} (H : Invariant mode s)
    (p : Fin NB_PAGES) : ∃ s', access mode s p = some s' ∧ Invariant mode s' ∧ Moved s p s' := by
  obtain ⟨hwf, href⟩ := H
  cases mode with
  | LRU =>
    obtain ⟨s', hs'⟩ := accessLRU_exists (p := p) hwf.exists_valid
    obtain ⟨hm, hr, ht⟩ := accessLRU_moved hs' (href rfl)
    exact ⟨s', hs', ⟨hwf.moved hm ht, fun _ => hr⟩, hm⟩
  | WSC =>
    obtain ⟨hm, ht⟩ := accessWSC_moved (p := p) hwf.exists_valid
    exact ⟨_, rfl, ⟨hwf.moved hm ht, nofun⟩, hm⟩

theorem run_invariant (mode : Mode) (h : List (Fin NB_PAGES)) :
    ∃ s, run mode h = some s ∧ Invariant mode s := by
  induction h using List.reverseRecOn with
  | nil => exact ⟨_, rfl, .init, fun _ => by decide⟩
  | append_singleton h p ih =>
    obtain ⟨s, hs, H⟩ := ih
    obtain ⟨s', hs', H', -⟩ := H.access p
    exact ⟨s', by rw [run_snoc, hs]; exact hs', H'⟩

theorem run_snoc_moved {mode : Mode} {h : List (Fin NB_PAGES)} {p : Fin NB_PAGES}
    {s s' : State NB_PAGES} (hs : run mode h = some s) (hs' : run mode (h ++ [p]) = some s') :
    Moved s p s' := by
  obtain ⟨t, ht, H⟩ := run_invariant mode h
  obtain ⟨t', ht', -, M⟩ := H.access p
  rw [hs] at ht
  cases ht
  rw [run_snoc, hs, Option.bind_some, ht'] at hs'
  cases hs'
  exact M

theorem run_known {mode : Mode} {h rest : List (Fin NB_PAGES)} {s s' : State NB_PAGES}
    (hs : run mode h = some s) (hs' : run mode (h ++ rest) = some s') {q : Fin NB_PAGES}
    (hq : s.valid q = true ∨ s.swapped q = true) : s'.valid q = true ∨ s'.swapped q = true := by
  induction rest using List.reverseRecOn generalizing s' with
  | nil =>
    rw [List.append_nil, hs] at hs'
    cases hs'
    exact hq
  | append_singleton rest p ih =>
    obtain ⟨t, ht, -⟩ := run_invariant mode (h ++ rest)
    rw [← List.append_assoc] at hs'
    exact (run_snoc_moved ht hs').known (ih ht)

/-- Every run, in either mode, keeps the table well formed, ends with the accessed page
resident, keeps each page once in memory or in swap in exactly one of them, and gives both
replacement functions a resident page to evict. -/
theorem run_residency (mode : Mode) (h : List (Fin NB_PAGES)) :
    ∃ s, run mode h = some s ∧ WellFormed s ∧
      (∀ h' p, h = h' ++ [p] → s.valid p = true) ∧
      (∀ h' rest s' q, h = h' ++ rest → run mode h' = some s' →
        s'.valid q = true ∨ s'.swapped q = true →
        Xor (s.valid q = true) (s.swapped q = true)) ∧
      ∀ h' p rest, h = h' ++ p :: rest → ∃ s', run mode h' = some s' ∧
        (∃ v, s'.valid v = true ∧ lowestPage s' = some v) ∧
        ∃ v, (scanWSC (List.finRange NB_PAGES) s' none).2 = some v := by
  obtain ⟨s, hs, hwf, -⟩ := run_invariant mode h
  refine ⟨s, hs, hwf, ?_, ?_, ?_⟩
  · rintro h' p rfl
    obtain ⟨t, ht, -⟩ := run_invariant mode h'
    exact (run_snoc_moved ht hs).valid_self
  · rintro h' rest s' q rfl hs' hq
    rcases run_known hs' hs hq with hv | hsw
    · exact .inl ⟨hv, by simp [hwf.exclusive q hv]⟩
    · refine .inr ⟨hsw, fun hv => ?_⟩
      rw [hwf.exclusive q hv] at hsw
      cases hsw
  · rintro h' p rest rfl
    obtain ⟨t, ht, hwf', -⟩ := run_invariant mode h'
    obtain ⟨v, hv⟩ := lowestPage_exists hwf'.exists_valid
    exact ⟨t, ht, ⟨v, lowestPage_valid hv, hv⟩, scanWSC_exists hwf'.exists_valid⟩

end SyeLabs.Memreplace
