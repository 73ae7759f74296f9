import SyeLabs.Mmu.CreateMapping

/-!
# Requests for memory

`create_mapping` fails for want of memory only if an allocator has none: where the next requests
are answered, it takes a table for a slot that is empty, and none for a slot that has one.
-/

namespace SyeLabs.Mmu

/-- The next `n` requests for a second-level table or a page are answered, in whatever order they
come. -/
def Allocators.Serves (al : Allocators) : Nat → List (Event Pool) → Prop
  | 0, _ => True
  | n + 1, h =>
    (∃ t ∈ al.memalign h (4 * TTB_L2_ENTRIES) SZ_1K,
      al.Serves n (.alloc .heap ⟨t, 4 * TTB_L2_ENTRIES⟩ :: h)) ∧
    ∃ f ∈ al.get_free_page h, al.Serves n (.alloc .frames ⟨f, PAGE_SIZE⟩ :: h)

instance decidableServes (al : Allocators) :
    ∀ n (h : List (Event Pool)), Decidable (al.Serves n h)
  | 0, _ => isTrue True.intro
  | n + 1, h =>
    have := fun e => decidableServes al n (e :: h)
    have htable := Option.decidableExistsMem (p := fun t =>
      al.Serves n (.alloc .heap ⟨t, 4 * TTB_L2_ENTRIES⟩ :: h))
    have hpage := Option.decidableExistsMem (p := fun f =>
      al.Serves n (.alloc .frames ⟨f, PAGE_SIZE⟩ :: h))
    @instDecidableAnd _ _ (htable _) (hpage _)

variable {H : Header} {al : Allocators} {m : Machine} {root : Word} {r : Request} {c : Bool}
  {h : List (Event Pool)} {n k : Nat}

theorem Allocators.Serves.of_succ (S : al.Serves (n + 1) h) : al.Serves n h := by
  induction n generalizing h with
  | zero => exact True.intro
  | succ n ih =>
    obtain ⟨⟨t, ht, St⟩, f, hf, Sf⟩ := S
    exact ⟨⟨t, ht, ih St⟩, f, hf, ih Sf⟩

theorem Allocators.Serves.mono (hle : k ≤ n) (S : al.Serves n h) : al.Serves k h := by
  induction hle with
  | refl => exact S
  | step _ ih => exact ih S.of_succ

theorem Machine.exists_of_memalign {size align : Nat} {x : Word × Machine}
    (hx : m.memalign al size align = .ok x) : ∃ t, al.memalign m.trace size align = some t ∧
      x = (t, { m with trace := .alloc .heap ⟨t, size⟩ :: m.trace }) := by
  unfold Machine.memalign at hx
  split at hx
  · cases hx
  · next t ht => exact ⟨t, ht, (Except.ok.inj hx).symm⟩

theorem Machine.exists_of_get_free_page {x : Word × Machine} (hx : m.get_free_page al = .ok x) :
    ∃ f, al.get_free_page m.trace = some f ∧
      x = (f, { m with trace := .alloc .frames ⟨f, PAGE_SIZE⟩ :: m.trace }) := by
  unfold Machine.get_free_page at hx
  split at hx
  · cases hx
  · next f hf => exact ⟨f, hf, (Except.ok.inj hx).symm⟩

/-- The requests for the entry at an address: one for a table if the entry is empty. -/
def tableRequests (mem : Memory) (l1pte : Word) : Nat := if mem.load l1pte = 0 then 1 else 0

theorem allocTable_serves {l1pte : Word} (S : al.Serves (n + tableRequests m.mem l1pte) m.trace) :
    wp (allocTable H al m l1pte c) (fun m' => al.Serves n m'.trace) (· ≠ .noMemory) := by
  unfold tableRequests at S
  unfold allocTable
  by_cases hz : m.mem.load l1pte = 0
  · rw [if_pos hz] at S
    obtain ⟨⟨t, ht, St⟩, -⟩ := S
    rw [if_pos hz, Machine.memalign, Option.mem_def.mp ht]
    exact wp_pure.mpr St
  · rw [if_neg hz] at S ⊢
    exact wp_pure.mpr S

theorem alloc_init_pte_serves {l1pte addr end_ pfn : Word}
    (S : al.Serves (n + tableRequests m.mem l1pte) m.trace) :
    wp (alloc_init_pte H al m l1pte addr end_ pfn c) (fun m' => al.Serves n m'.trace)
      (· ≠ .noMemory) := by
  unfold alloc_init_pte
  refine wp.bind (allocTable_serves S) fun m' S' => ?_
  have hloop : ∀ s, True → wp (setPte H c s) (fun _ => True) (· ≠ .noMemory) := fun s _ => by
    rw [setPte_eq]
    exact wp_ok.mpr True.intro
  exact wp.bind (wp_doWhile_inv hloop (by decide) True.intro) fun _ _ => wp_pure.mpr S'

theorem alloc_init_section_serves {l1pte addr end_ phys : Word}
    (S : al.Serves (n + tableRequests m.mem l1pte) m.trace) :
    wp (alloc_init_section H al m l1pte addr end_ phys c) (fun m' => al.Serves n m'.trace)
      (· ≠ .noMemory) := by
  unfold alloc_init_section
  split
  · have hloop : ∀ s, True → wp (setSect H c s) (fun _ => True) (· ≠ .noMemory) := fun s _ => by
      rw [setSect_eq]
      exact wp_ok.mpr True.intro
    refine wp.bind (wp_doWhile_inv hloop (by decide) True.intro) fun _ _ => wp_pure.mpr ?_
    exact S.mono (Nat.le_add_right _ _)
  · exact alloc_init_pte_serves S

/-- A page takes a table if its slot is empty. -/
theorem create_mapping_page_serves {v phys : Word} (hv : 4096 ∣ v.toNat) (hroot : root ≠ 0)
    (S : al.Serves (n + tableRequests m.mem (entry root (l1pte_index v))) m.trace) :
    wp (create_mapping H al m root v phys (BitVec.ofNat 32 PAGE_SIZE) false)
      (fun m' => al.Serves n m'.trace) (· ≠ .noMemory) := by
  have R : (Request.page v phys).Range := Request.page_range hv
  have hslot : ∀ k, (Request.page v phys).slot k ↔ k = l1pte_index v :=
    fun k => Request.page_slot hv
  let P : Nat → Machine → Prop := fun k m' =>
    if k = l1pte_index v then m' = m else al.Serves n m'.trace
  have hfirst : (Request.page v phys).lo / 2 ^ 20 = l1pte_index v := by
    rw [Request.lo_page, l1pte_index_eq]
    omega
  have hlast : ((Request.page v phys).hi - 1) / 2 ^ 20 = l1pte_index v := by
    rw [Request.hi_page, l1pte_index_eq]
    omega
  have hstart : P ((Request.page v phys).lo / 2 ^ 20) m := by
    rw [hfirst]
    exact (if_pos rfl).mpr rfl
  refine (create_mapping_slots R hroot P ?_ hstart).mono fun m' hm' => ?_
  · intro k m' hk hm'
    obtain rfl := (hslot k).mp hk
    obtain rfl : m' = m := (if_pos rfl).mp hm'
    refine (alloc_init_section_serves S).mono fun m'' S' => ?_
    exact (if_neg (Nat.succ_ne_self _)).mpr S'
  · rw [hlast] at hm'
    exact (if_neg (Nat.succ_ne_self _)).mp hm'

end SyeLabs.Mmu
