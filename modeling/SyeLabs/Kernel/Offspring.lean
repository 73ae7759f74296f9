import SyeLabs.Kernel.Frames

/-!
# Fork, seen from all processes

After `duplicate_user_space` the frames of the child are its own, the parent has the pages that it
had, and the trees of all other processes are as before.
-/

namespace SyeLabs.Kernel

open Mmu

variable {H : Header} {al : Allocators} {cfg : Config} {m m' : Machine} {parent : Word}
  {w w' w₀ : Work} {F G : List Word}

/-- The child is a process with frames of its own; `G` are those of all others. -/
structure Offspring (H : Header) (cfg : Config) (G : List Word) (parent : Word) (w₀ w' : Work) :
    Prop where
  space : Space H cfg G w'
  pcb : ∃ F, w'.pcb = { w₀.pcb with page_list := F }
  mapped : ∃ p < cfg.kernel * 256, (lookup H w'.m.mem w₀.pcb.pgtable p).isSome
  parent_tree : Tree H cfg w'.m parent
  parent_slots : SameSlots H cfg.kernel parent w₀.m.mem w'.m.mem
  beside : Beside H cfg.OwnSlot parent w₀.pcb.pgtable w'.m
  third : ∀ c, Beside H cfg.OwnSlot parent c w₀.m → Beside H cfg.OwnSlot w₀.pcb.pgtable c w₀.m →
    Beside H cfg.OwnSlot parent c w'.m ∧ Beside H cfg.OwnSlot w₀.pcb.pgtable c w'.m ∧
      Stays H cfg.OwnSlot c w₀.m.mem w'.m.mem
  root : ∀ b ∈ live w₀.m.trace, b.2.size = 16384 → b ∈ live w'.m.trace
  image : ∀ b ∈ live w₀.m.trace, b.1 = .image → b ∈ live w'.m.trace
  sys_root : w'.m.sys_root_pgtable = w₀.m.sys_root_pgtable

/-- The new frames enter the ledger. -/
theorem Copied.framesOk (D : Copied H cfg w₀ parent (cfg.kernel * 256) F w)
    (L : FramesOk G w₀.m w₀.refcount) : FramesOk (F ++ G) w.m w.refcount := by
  rw [FramesOk, D.history]
  refine Ledger.allocs L D.nodup (fun f hf hG => ?_) D.refcount
  have hmem := Region.base_mem (r := ⟨f, PAGE_SIZE⟩) (show 0 < 4096 by decide)
  exact (D.frames f hf).2.2 _ (L.mem_live.mpr hG) _ hmem hmem

/-- The child at the end of the copying. -/
theorem Copied.space (D : Copied H cfg w₀ parent (cfg.kernel * 256) F w)
    (hfix : cfg.FixmapOk) (hne : w₀.pcb.pgtable ≠ 0) (hpages : w₀.pcb.page_list = [])
    (hwindow : NoSect H w₀.m.mem w₀.pcb.pgtable (l1pte_index cfg.FIXMAP_MAPPING))
    (L : FramesOk G w₀.m w₀.refcount) : Space H cfg G w := by
  have hpcb := D.pcb
  rw [hpages, List.nil_append] at hpcb
  have htable : w.pcb.pgtable = w₀.pcb.pgtable := by rw [hpcb]
  have hlist : w.pcb.page_list = F := by rw [hpcb]
  have T : Tree H cfg w.m w₀.pcb.pgtable := ⟨hne, D.pair.child_tables, D.pair.child_small,
    hwindow.congr (D.pair.child_entries _ hfix.above (l1pte_index_lt _)).symm⟩
  have M : MapsOwn H cfg w.m.mem w₀.pcb.pgtable F := fun p hp q hq => .inl (D.of_child hp hq).2
  have L' := D.framesOk L
  rw [← htable] at T M
  rw [← hlist] at M L'
  exact ⟨T, M, L'⟩

theorem duplicate_user_space_offspring (hfix : cfg.FixmapOk) (P : Parent H cfg w₀.m parent)
    (C : Child H cfg w₀.m parent w₀.pcb.pgtable) (hne : w₀.pcb.pgtable ≠ 0)
    (hpages : w₀.pcb.page_list = [])
    (hwindow : NoSect H w₀.m.mem w₀.pcb.pgtable (l1pte_index cfg.FIXMAP_MAPPING))
    (B : Beside H cfg.OwnSlot parent w₀.pcb.pgtable w₀.m) (L : FramesOk G w₀.m w₀.refcount) :
    wp (duplicate_user_space H al cfg parent w₀) (Offspring H cfg G parent w₀)
      (· = .noMemory) := by
  refine (duplicate_user_space_copied hfix C.ne_parent P C).mono ?_
  rintro w' ⟨F, w, D, hF, ⟨R, -, -⟩, hw'⟩
  have hi := l1pte_index_lt cfg.FIXMAP_MAPPING
  have T := D.pair.parent_tables
  have hn := hfix.kernel_le
  have hconf : Confined H cfg.OwnSlot parent w.m w'.m := R.confined T hi (.inr rfl)
  obtain ⟨B', hstays⟩ := hconf.beside _ (D.pair.beside B)
  have hslots := D.pair.same.trans (R.sameSlots T hi hfix.above)
  have S := D.space hfix hne hpages hwindow L
  have hpcb := D.pcb
  rw [hpages, List.nil_append] at hpcb
  constructor
  case space =>
    rw [hw']
    have htable : w.pcb.pgtable = w₀.pcb.pgtable := by rw [hpcb]
    rw [← htable] at B' hstays
    exact S.stays hn B'.tables hstays (R.onPool_eq (by decide))
  case pcb => exact ⟨F, by rw [hw']; exact hpcb⟩
  case mapped =>
    obtain ⟨p, hp, hmapped⟩ := P.mapped
    obtain ⟨f, -, hf⟩ := D.of_parent hmapped hp
    rw [(hstays.sameSlots hn fun _ => Or.inl).lookup_eq (by omega)] at hf
    exact ⟨p, hp, by rw [hf]; rfl⟩
  case parent_tree =>
    refine ⟨P.ne_zero, hconf.tables, fun i hi' => ?_, R.noSect T hi hi D.pair.window⟩
    rw [← (hslots i hi').1]
    exact P.small i hi'
  case parent_slots => exact hslots
  case beside => exact B'
  case third =>
    intro c hp hc
    obtain ⟨B1, B2, h⟩ := D.pair.third c hp hc
    obtain ⟨B1', h'⟩ := hconf.beside c B1
    refine ⟨B1', B2.of_entries B1'.tables hstays.entries h'.entries, h.trans h'⟩
  case root => exact fun b hb hsize => hconf.root b (D.pair.live_sub hb) hsize
  case image => exact fun b hb himage => hconf.image b (D.pair.live_sub hb) himage
  case sys_root => exact hconf.sys_root.trans D.pair.sys_root

end SyeLabs.Kernel
