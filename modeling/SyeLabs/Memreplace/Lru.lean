import SyeLabs.Theory.Recency
import SyeLabs.Memreplace.Residency

/-!
# LRU mode against true least recently used replacement

`recencyList h` is the recency list of the policy the program is meant to follow. The stamps
written by `inc_compteur` are access numbers modulo 256 (`Stamped`), so a fault evicts the head
of the list exactly when the truncated numbers still put it first (`StampsOrdered`).
-/

namespace SyeLabs.Memreplace
open SyeLabs.Scan SyeLabs.Recency

/-- The recency list after the accesses `h`: pages 0, 1, 2 are resident at the start. -/
def recencyList (h : List (Fin NB_PAGES)) : List (Fin NB_PAGES) := recency 3 [0, 1, 2] h

/-- The number of the last access of `q`, as a `uint8_t` holds it. -/
def stamp (h : List (Fin NB_PAGES)) (q : Fin NB_PAGES) : Nat := lastUse h q % 256

/-- After every access of the run `l` the resident pages are those of the recency list, and
every evicted page is a resident page whose last access lies furthest in the past. -/
def SimulatesLRU (l : List (Fin NB_PAGES)) : Prop :=
  ∀ h p rest, l = h ++ p :: rest → ∃ s s', run .LRU h = some s ∧ run .LRU (h ++ [p]) = some s' ∧
    (∀ q, s'.valid q = true ↔ q ∈ recencyList (h ++ [p])) ∧
    ∀ v, s.valid v = true → s'.valid v = false →
      ∀ q, s.valid q = true → lastUse h v ≤ lastUse h q

/-- After the accesses `h`, the oldest page of the recency list has the least stamp; an equal
stamp is only on a page of higher number. -/
def StampsOrdered (h : List (Fin NB_PAGES)) : Prop :=
  ∀ o rest, recencyList h = o :: rest →
    ∀ q ∈ rest, stamp h o < stamp h q ∨ stamp h o = stamp h q ∧ o < q

theorem recencyList_snoc (h : List (Fin NB_PAGES)) (p : Fin NB_PAGES) :
    recencyList (h ++ [p]) = touch 3 (recencyList h) p := recency_snoc ..

theorem recencyList_nodup (h : List (Fin NB_PAGES)) : (recencyList h).Nodup :=
  recency_nodup (by decide) h

theorem recencyList_cons (h : List (Fin NB_PAGES)) : ∃ o rest, recencyList h = o :: rest := by
  have hlen : (recencyList h).length = 3 := recency_length (c := 3) rfl (by decide) h
  cases hr : recencyList h with
  | nil => simp [hr] at hlen
  | cons o rest => exact ⟨o, rest, rfl⟩

theorem recencyList_fault {h rest : List (Fin NB_PAGES)} {o p : Fin NB_PAGES}
    (hr : recencyList h = o :: rest) (hp : p ∉ recencyList h) :
    recencyList (h ++ [p]) = rest ++ [p] := by
  have hlen : (recencyList h).length = 3 := recency_length (c := 3) rfl (by decide) h
  rw [recencyList_snoc, touch, if_neg hp, if_neg (by omega), hr, List.tail_cons]

/-! ## Stamps -/

/-- The counter and the stamps are the numbers of the accesses, modulo 256. -/
structure Stamped (s : State NB_PAGES) (h : List (Fin NB_PAGES)) : Prop where
  counter : s.compteur_global.toNat = h.length % 256
  stamps : ∀ q, (s.TDU q).toNat = stamp h q

theorem Stamped.access {s s' : State NB_PAGES} {h : List (Fin NB_PAGES)} {p : Fin NB_PAGES}
    (H : Stamped s h) (hs : accessLRU s p = some s') : Stamped s' (h ++ [p]) := by
  have inc {t : State NB_PAGES} (hc : t.compteur_global = s.compteur_global)
      (ht : t.TDU = s.TDU) : Stamped (inc_compteur t p) (h ++ [p]) := by
    have hnext : (s.compteur_global + 1).toNat = (h.length + 1) % 256 := by
      rw [BitVec.toNat_add, H.counter]
      simp
    refine ⟨by simpa [inc_compteur, hc] using hnext, fun q => ?_⟩
    simp only [inc_compteur, hc, ht, Function.update_apply, stamp, lastUse_snoc]
    split
    · exact hnext
    · exact H.stamps q
  cases hp : s.valid p with
  | true =>
    rw [accessLRU_hit hp] at hs
    cases hs
    exact inc rfl rfl
  | false =>
    rw [accessLRU_fault hp, Option.map_eq_some_iff] at hs
    obtain ⟨v, -, rfl⟩ := hs
    exact inc rfl rfl

theorem run_stamped {h : List (Fin NB_PAGES)} {s : State NB_PAGES} (hs : run .LRU h = some s) :
    Stamped s h := by
  induction h using List.reverseRecOn generalizing s with
  | nil =>
    cases hs
    exact ⟨rfl, fun q => rfl⟩
  | append_singleton h p ih =>
    rw [run_snoc, Option.bind_eq_some_iff] at hs
    obtain ⟨t, ht, hs⟩ := hs
    exact (ih ht).access hs

/-! ## One access -/

/-- The resident pages are those of the recency list. -/
def Agree (s : State NB_PAGES) (h : List (Fin NB_PAGES)) : Prop :=
  ∀ q, s.valid q = true ↔ q ∈ recencyList h

theorem agree_nil : Agree init_page_table [] := by
  intro q
  revert q
  decide

section
variable {s s' : State NB_PAGES} {h : List (Fin NB_PAGES)} {p : Fin NB_PAGES}

theorem Agree.hit (A : Agree s h) (hp : p ∈ recencyList h) (hs : accessLRU s p = some s') :
    Agree s' (h ++ [p]) := by
  rw [accessLRU_hit ((A p).mpr hp)] at hs
  cases hs
  intro q
  rw [recencyList_snoc, mem_touch_hit hp]
  exact A q

/-- On a fault the head of the recency list is the victim exactly if its stamp is least. -/
theorem Agree.victim_iff (A : Agree s h) (T : Stamped s h) {o v : Fin NB_PAGES}
    {rest : List (Fin NB_PAGES)} (hr : recencyList h = o :: rest) (hv : lowestPage s = some v) :
    v = o ↔ StampsOrdered h := by
  have hleast : IsLeast s.valid (stamp h) v := by
    have hkey : (fun i => (s.TDU i).toNat) = stamp h := funext T.stamps
    exact hkey ▸ lowestPage_eq_some.mp hv
  have hnodup := hr ▸ recencyList_nodup h
  constructor
  · rintro rfl o' rest' hr' q hq
    rw [hr] at hr'
    cases hr'
    have hmem : q ∈ recencyList h := hr ▸ List.mem_cons_of_mem _ hq
    exact hleast.2 q ((A q).mpr hmem) fun e => (List.nodup_cons.mp hnodup).1 (e ▸ hq)
  · intro S
    refine hleast.unique ⟨(A o).mpr (hr ▸ List.mem_cons_self), ?_⟩
    intro q hq hne
    have hmem := (A q).mp hq
    rw [hr] at hmem
    exact S o rest hr q ((List.mem_cons.mp hmem).resolve_left hne)

theorem Agree.fault_iff (A : Agree s h) (T : Stamped s h) (hp : p ∉ recencyList h)
    (hs : accessLRU s p = some s') :
    Agree s' (h ++ [p]) ↔ StampsOrdered h := by
  have hpv : s.valid p = false := Bool.eq_false_iff.mpr fun hv => hp ((A p).mp hv)
  obtain ⟨o, rest, hr⟩ := recencyList_cons h
  have hnodup := List.nodup_cons.mp (hr ▸ recencyList_nodup h)
  rw [accessLRU_fault hpv, Option.map_eq_some_iff] at hs
  obtain ⟨v, hv, rfl⟩ := hs
  rw [← A.victim_iff T hr hv]
  have hvalid : ∀ q, (inc_compteur ((s.modify v swapOut).modify p swapIn) p).valid q = true ↔
      q = p ∨ q ≠ v ∧ s.valid q = true := by
    intro q
    change ((s.modify v swapOut).modify p swapIn).valid q = true ↔ _
    by_cases hqp : q = p <;> by_cases hqv : q = v <;> simp [hqp, hqv]
  have hop : o ≠ p := by
    rintro rfl
    exact hp (hr ▸ List.mem_cons_self)
  simp only [Agree, hvalid, recencyList_fault hr hp, List.mem_append, List.mem_cons,
    List.not_mem_nil, or_false, A _, hr]
  constructor
  · intro H
    by_contra hne
    rcases (H o).mp (.inr ⟨fun e => hne e.symm, .inl rfl⟩) with h | h
    · exact hnodup.1 h
    · exact hop h
  · rintro rfl q
    constructor
    · rintro (h | ⟨hne, h | h⟩)
      · exact .inr h
      · exact absurd h hne
      · exact .inl h
    · rintro (h | h)
      · exact .inr ⟨fun e => hnodup.1 (e ▸ h), .inr h⟩
      · exact .inl h

end

/-! ## Runs -/

theorem agree_of_stampsOrdered {l : List (Fin NB_PAGES)}
    (hl : ∀ h p rest, l = h ++ p :: rest → p ∉ recencyList h → StampsOrdered h)
    {h rest : List (Fin NB_PAGES)} (hsplit : l = h ++ rest) {s : State NB_PAGES}
    (hs : run .LRU h = some s) : Agree s h := by
  induction h using List.reverseRecOn generalizing s rest with
  | nil =>
    cases hs
    exact agree_nil
  | append_singleton h p ih =>
    have hsplit' : l = h ++ p :: rest := by rw [hsplit]; simp
    rw [run_snoc, Option.bind_eq_some_iff] at hs
    obtain ⟨t, ht, hs⟩ := hs
    have A := ih hsplit' ht
    by_cases hp : p ∈ recencyList h
    · exact A.hit hp hs
    · exact (A.fault_iff (run_stamped ht) hp hs).mpr (hl h p rest hsplit' hp)

theorem SimulatesLRU.agree {l h rest : List (Fin NB_PAGES)} (H : SimulatesLRU l)
    (hsplit : l = h ++ rest) {s : State NB_PAGES} (hs : run .LRU h = some s) : Agree s h := by
  rcases List.eq_nil_or_concat h with rfl | ⟨h, p, rfl⟩
  · cases hs
    exact agree_nil
  · rw [List.concat_eq_append] at hsplit hs ⊢
    obtain ⟨-, s', -, hs', hagree, -⟩ := H h p rest (by rw [hsplit]; simp)
    rw [hs] at hs'
    cases hs'
    exact hagree

theorem Agree.victim_oldest {s s' : State NB_PAGES} {h : List (Fin NB_PAGES)}
    {p v q : Fin NB_PAGES} (A : Agree s h) (A' : Agree s' (h ++ [p])) (hv : s.valid v = true)
    (hv' : s'.valid v = false) (hq : s.valid q = true) : lastUse h v ≤ lastUse h q := by
  obtain ⟨o, rest, hr⟩ := recencyList_cons h
  have hgone : v ∉ recencyList (h ++ [p]) := fun hm => by
    rw [(A' v).mpr hm] at hv'
    cases hv'
  by_cases hp : p ∈ recencyList h
  · rw [recencyList_snoc, mem_touch_hit hp] at hgone
    exact absurd ((A v).mp hv) hgone
  · rw [recencyList_fault hr hp] at hgone
    have hmem := (A v).mp hv
    rw [hr] at hmem
    rcases List.mem_cons.mp hmem with rfl | hmem
    · exact lastUse_head_le (by decide) hr ((A q).mp hq)
    · exact absurd (List.mem_append_left _ hmem) hgone

theorem SimulatesLRU.stampsOrdered {l h rest : List (Fin NB_PAGES)} {p : Fin NB_PAGES}
    (H : SimulatesLRU l) (hsplit : l = h ++ p :: rest) (hp : p ∉ recencyList h) :
    StampsOrdered h := by
  obtain ⟨s, s', hs, hs', hagree, -⟩ := H h p rest hsplit
  have hstep := hs'
  rw [run_snoc, hs, Option.bind_some] at hstep
  exact ((H.agree hsplit hs).fault_iff (run_stamped hs) hp hstep).mp hagree

theorem SimulatesLRU.of_stampsOrdered {l : List (Fin NB_PAGES)}
    (hl : ∀ h p rest, l = h ++ p :: rest → p ∉ recencyList h → StampsOrdered h) :
    SimulatesLRU l := by
  intro h p rest hsplit
  obtain ⟨s, hs, -⟩ := run_invariant .LRU h
  obtain ⟨s', hs', -⟩ := run_invariant .LRU (h ++ [p])
  have A := agree_of_stampsOrdered hl hsplit hs
  have hsplit' : l = (h ++ [p]) ++ rest := by rw [hsplit, List.append_assoc]; rfl
  have A' := agree_of_stampsOrdered hl hsplit' hs'
  exact ⟨s, s', hs, hs', A', fun v hv hv' q hq => A.victim_oldest A' hv hv' hq⟩

/-- A run follows true LRU replacement exactly if, at every fault of the reference policy, the
oldest page still has the least stamp after truncation to eight bits. -/
theorem simulatesLRU_iff (l : List (Fin NB_PAGES)) :
    SimulatesLRU l ↔
      ∀ h p rest, l = h ++ p :: rest → p ∉ recencyList h → StampsOrdered h :=
  ⟨fun H _ _ _ => H.stampsOrdered, .of_stampsOrdered⟩

/-- The 256th access, of page 0, is stamped 0; the fault on page 3 then evicts the page used
last instead of page 1. -/
theorem not_simulatesLRU_wrap : ¬SimulatesLRU (List.replicate 253 0 ++ [1, 2, 0, 3]) := by
  intro H
  have hsplit : List.replicate 253 (0 : Fin NB_PAGES) ++ [1, 2, 0, 3] =
      (List.replicate 253 0 ++ [1, 2, 0]) ++ 3 :: [] := by rw [List.append_assoc]; rfl
  obtain ⟨s, s', hs, hs', hagree, -⟩ := H _ _ _ hsplit
  have hlist : recencyList (List.replicate 253 0 ++ [1, 2, 0]) = [1, 2, 0] := by decide +kernel
  rw [run_snoc, hs, Option.bind_some] at hs'
  have hordered := ((H.agree hsplit hs).fault_iff (run_stamped hs) (by rw [hlist]; decide) hs').mp
    hagree
  have h0 : stamp (List.replicate 253 0 ++ [1, 2, 0]) 0 = 0 := by decide +kernel
  have h1 : stamp (List.replicate 253 0 ++ [1, 2, 0]) 1 = 254 := by decide +kernel
  have := hordered 1 [2, 0] hlist 0 (by decide)
  omega

/-- Before the counter wraps the stamps are the access numbers themselves. -/
theorem stampsOrdered_of_length_lt {h : List (Fin NB_PAGES)} (hlen : h.length < 256) :
    StampsOrdered h := by
  intro o rest hr q hq
  have hstamp : ∀ q, stamp h q = lastUse h q := fun q =>
    Nat.mod_eq_of_lt (Nat.lt_of_le_of_lt (lastUse_le h q) hlen)
  have hsorted := recency_sorted (c := 3) (r := ([0, 1, 2] : List (Fin NB_PAGES))) (by decide) h
  rw [← recencyList, hr] at hsorted
  rw [hstamp, hstamp]
  rcases (List.pairwise_cons.mp hsorted).1 q hq with hlt | ⟨h0, h0', hidx⟩
  · exact .inl hlt
  · have hlt : ∀ o q : Fin NB_PAGES, [0, 1, 2].idxOf o < [0, 1, 2].idxOf q → o < q := by decide
    exact .inr ⟨h0.trans h0'.symm, hlt o q hidx⟩

theorem simulatesLRU_of_length_le {l : List (Fin NB_PAGES)} (hlen : l.length ≤ 256) :
    SimulatesLRU l :=
  .of_stampsOrdered fun h p rest hsplit _ => stampsOrdered_of_length_lt (by
    rw [hsplit] at hlen
    simp only [List.length_append, List.length_cons] at hlen
    omega)

end SyeLabs.Memreplace
