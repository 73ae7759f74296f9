import SyeLabs.Theory.Blocks

/-!
# Blocks with owners and reference counts

A ledger lists the blocks of one pool that somebody owns. All of them are of one size. It agrees
with the history of the pool and with the reference counts if every block that is live is listed
once, with a count of 1, and has been given back once for each time before that it was given out.
-/

namespace SyeLabs

variable {Pool : Type} [DecidableEq Pool]

structure Ledger (pool : Pool) (size : Nat) (owned : List Word) (h : List (Event Pool))
    (refcount : Word → Nat) : Prop where
  live : (live h).Perm (owned.map fun p => (pool, ⟨p, size⟩))
  nodup : owned.Nodup
  refcount : ∀ p, refcount p = owned.count p
  balanced : ∀ p, h.count (.alloc pool ⟨p, size⟩) = h.count (.free pool p) + owned.count p

variable {pool : Pool} {size : Nat} {owned owned' : List Word} {h : List (Event Pool)}
  {refcount : Word → Nat} {p : Word}

theorem Ledger.nil : Ledger pool size [] [] fun _ => 0 :=
  ⟨List.Perm.nil, List.nodup_nil, fun _ => rfl, fun _ => rfl⟩

theorem Ledger.mem_live (L : Ledger pool size owned h refcount) :
    (pool, (⟨p, size⟩ : Region)) ∈ SyeLabs.live h ↔ p ∈ owned := by
  rw [L.live.mem_iff, List.mem_map]
  constructor
  · rintro ⟨q, hq, heq⟩
    have hqp : q = p := congrArg (fun b => b.2.base) heq
    exact hqp ▸ hq
  · exact fun hp => ⟨p, hp, rfl⟩

/-- The order of the list does not matter. -/
theorem Ledger.perm (L : Ledger pool size owned h refcount) (hp : owned.Perm owned') :
    Ledger pool size owned' h refcount where
  live := L.live.trans (hp.map _)
  nodup := hp.nodup_iff.mp L.nodup
  refcount q := (L.refcount q).trans (hp.count_eq q)
  balanced q := by
    rw [← hp.count_eq q]
    exact L.balanced q

theorem Ledger.count_le (L : Ledger pool size owned h refcount) (p : Word) : refcount p ≤ 1 := by
  rw [L.refcount]
  exact List.nodup_iff_count_le_one.mp L.nodup p

theorem Ledger.alloc (L : Ledger pool size owned h refcount) (hp : p ∉ owned) :
    Ledger pool size (p :: owned) (.alloc pool ⟨p, size⟩ :: h)
      (Function.update refcount p (refcount p + 1)) where
  live := L.live.cons _
  nodup := List.nodup_cons.mpr ⟨hp, L.nodup⟩
  refcount q := by
    rcases eq_or_ne q p with rfl | hne
    · rw [Function.update_self, List.count_cons_self, L.refcount]
    · rw [Function.update_of_ne hne, List.count_cons_of_ne hne.symm, L.refcount]
  balanced q := by
    have hfree : (Event.alloc pool ⟨p, size⟩ : Event Pool) ≠ .free pool q := nofun
    rw [List.count_cons_of_ne hfree]
    rcases eq_or_ne q p with rfl | hne
    · rw [List.count_cons_self, List.count_cons_self, L.balanced, Nat.add_assoc]
    · have halloc : (Event.alloc pool ⟨p, size⟩ : Event Pool) ≠ .alloc pool ⟨q, size⟩ := by
        intro heq
        exact hne (congrArg Region.base (Event.alloc.inj heq).2).symm
      rw [List.count_cons_of_ne halloc, List.count_cons_of_ne hne.symm, L.balanced]

/-- Several blocks are given out, one after the other. -/
theorem Ledger.allocs {F : List Word} (L : Ledger pool size owned h refcount) (hF : F.Nodup)
    (hnew : ∀ f ∈ F, f ∉ owned) {refcount' : Word → Nat}
    (hcount : ∀ p, refcount' p = refcount p + F.count p) :
    Ledger pool size (F ++ owned) ((F.map fun f => .alloc pool ⟨f, size⟩).reverse ++ h)
      refcount' := by
  induction F generalizing owned h refcount with
  | nil =>
    obtain rfl : refcount' = refcount := funext hcount
    exact L
  | cons f F ih =>
    obtain ⟨hf, hF⟩ := List.nodup_cons.mp hF
    have hnew' : ∀ g ∈ F, g ∉ f :: owned := by
      intro g hg hmem
      rcases List.mem_cons.mp hmem with rfl | hmem
      · exact hf hg
      · exact hnew g (List.mem_cons_of_mem _ hg) hmem
    have hcount' : ∀ p, refcount' p =
        Function.update refcount f (refcount f + 1) p + F.count p := by
      intro p
      rw [hcount]
      rcases eq_or_ne p f with rfl | hne
      · rw [Function.update_self, List.count_cons_self]
        omega
      · rw [Function.update_of_ne hne, List.count_cons_of_ne hne.symm]
    have h := ih (L.alloc (hnew f List.mem_cons_self)) hF hnew' hcount'
    rw [List.map_cons, List.reverse_cons, List.append_assoc]
    exact h.perm List.perm_middle

theorem Ledger.free (L : Ledger pool size (p :: owned) h refcount) :
    Ledger pool size owned (.free pool p :: h) (Function.update refcount p (refcount p - 1)) where
  live := by
    have hp := (List.nodup_cons.mp L.nodup).1
    have hperm := L.live.filter fun b => ¬(b.1 = pool ∧ b.2.base = p)
    have hkept : (owned.filter fun q => ¬(pool = pool ∧ q = p)) = owned := by
      refine List.filter_eq_self.mpr fun q hq => decide_eq_true fun heq => hp ?_
      exact heq.2 ▸ hq
    rw [List.filter_map, List.filter_cons_of_neg (by simp)] at hperm
    exact hperm.trans (List.Perm.of_eq (congrArg _ hkept))
  nodup := (List.nodup_cons.mp L.nodup).2
  refcount q := by
    rcases eq_or_ne q p with rfl | hne
    · rw [Function.update_self, L.refcount, List.count_cons_self, Nat.add_sub_cancel]
    · rw [Function.update_of_ne hne, L.refcount, List.count_cons_of_ne hne.symm]
  balanced q := by
    have halloc : (Event.free pool p : Event Pool) ≠ .alloc pool ⟨q, size⟩ := nofun
    have hbal := L.balanced q
    rw [List.count_cons_of_ne halloc]
    rcases eq_or_ne q p with rfl | hne
    · rw [List.count_cons_self] at hbal ⊢
      omega
    · have hfree : (Event.free pool p : Event Pool) ≠ .free pool q := fun heq =>
        hne (Event.free.inj heq).2.symm
      rw [List.count_cons_of_ne hne.symm] at hbal
      rw [List.count_cons_of_ne hfree, hbal]

end SyeLabs
