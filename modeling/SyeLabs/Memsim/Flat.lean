import SyeLabs.Memsim.Basic

/-!
# Without attributes the memory is flat

The table that `init_page_table` sets up reverses the order of the frames. Through it, reads and
writes behave as on an array of 65536 bytes.
-/

namespace SyeLabs.Memsim

variable {g : Geometry} {s : State g} {calls pre : List Call} {c : Call} {a b : Word}

/-- The frame of a page. -/
def mirror (g : Geometry) (p : Fin g.MEMORY_PAGE_NUM) : Fin g.MEMORY_PAGE_NUM := Fin.rev p

/-- The byte of the latest `store_byte` to the address, or 0. -/
def lastStore : List Call → Word → Byte := fun calls a =>
  calls.foldl (fun byte c =>
    match c with
    | .store_byte vaddr x => if vaddr = a then x else byte
    | .get_byte _ _ => byte) 0

theorem lastStore_get (calls : List Call) (vaddr : Word) (byte : Byte) :
    lastStore (calls ++ [.get_byte vaddr byte]) = lastStore calls := by
  funext a
  rw [lastStore, List.foldl_append]
  rfl

theorem lastStore_store (calls : List Call) (vaddr : Word) (byte : Byte) :
    lastStore (calls ++ [.store_byte vaddr byte]) =
      Function.update (lastStore calls) vaddr byte := by
  funext a
  rw [lastStore, List.foldl_append, Function.update_apply]
  simp only [List.foldl_cons, List.foldl_nil, eq_comm (a := vaddr)]
  rfl

/-- The page of an address as an index. -/
def pageFin (h : a.toNat < 65536) : Fin g.MEMORY_PAGE_NUM := ⟨page g a, page_lt h⟩

/-- The place of an address in a page as an index. -/
def offsetFin (g : Geometry) (a : Word) : Fin g.MEMORY_PAGE_SIZE := ⟨offset g a, offset_lt a⟩

/-- An address is given by its page and its offset. -/
theorem eq_of_page_offset (h : page g a = page g b) (h' : offset g a = offset g b) : a = b := by
  apply BitVec.eq_of_toNat_eq
  rw [← Nat.div_add_mod a.toNat g.MEMORY_PAGE_SIZE, ← Nat.div_add_mod b.toNat g.MEMORY_PAGE_SIZE]
  exact congrArg₂ (fun p o => g.MEMORY_PAGE_SIZE * p + o) h h'

theorem frame_initPte (i : Fin g.MEMORY_PAGE_NUM) : frame g (initPte g false i) = mirror g i := by
  have hi := i.isLt
  apply Fin.ext
  rw [mirror, Fin.val_rev, frame]
  simp only [initPte, Bool.false_eq_true, if_false, BitVec.toNat_ushiftRight, BitVec.toNat_ofNat,
    Nat.shiftRight_eq_div_pow, Nat.shiftLeft_eq]
  cases g <;> simp only [Geometry.MEMORY_PAGE_NUM, Geometry.SHIFT_RIGHT] at hi ⊢ <;> omega

/-- The table is as it was set up, and each address holds the byte that `f` gives it. -/
structure Represents (s : State g) (f : Word → Byte) : Prop where
  page_table : s.page_table = (start g false).page_table
  main_mem : ∀ a (h : a.toNat < 65536), s.main_mem (mirror g (pageFin h)) (offsetFin g a) = f a

theorem start_represents (g : Geometry) : Represents (start g false) fun _ => 0 :=
  ⟨rfl, fun _ _ => rfl⟩

theorem Represents.frame_eq {f : Word → Byte} (R : Represents s f) (h : a.toNat < 65536) :
    frame g (pteOf s.page_table h) = mirror g (pageFin h) := by
  rw [R.page_table]
  exact frame_initPte (pageFin h)

/-- Different addresses have different cells. -/
theorem cell_injective (h : a.toNat < 65536) (h' : b.toNat < 65536)
    (hframe : mirror g (pageFin h) = mirror g (pageFin h'))
    (hoffset : offsetFin g a = offsetFin g b) : a = b := by
  have hpage : page g a = page g b := congrArg Fin.val (Fin.rev_injective hframe)
  exact eq_of_page_offset hpage (congrArg Fin.val hoffset)

theorem Represents.setCell {f : Word → Byte} (R : Represents s f) (h : a.toNat < 65536)
    (byte : Byte) :
    Represents (s.setCell (mirror g (pageFin h)) (offsetFin g a) byte)
      (Function.update f a byte) where
  page_table := R.page_table
  main_mem b hb := by
    have hb' := R.main_mem b hb
    by_cases hframe : mirror g (pageFin hb) = mirror g (pageFin h)
    · rw [hframe] at hb' ⊢
      rw [State.setCell_self]
      by_cases hoffset : offsetFin g b = offsetFin g a
      · rw [hoffset, Function.update_self, cell_injective hb h hframe hoffset, Function.update_self]
      · have hne : b ≠ a := fun hba => hoffset (hba ▸ rfl)
        rw [Function.update_of_ne hoffset, Function.update_of_ne hne, hb']
    · have hne : b ≠ a := by
        rintro rfl
        exact hframe rfl
      rw [State.setCell_of_ne _ _ _ hframe, Function.update_of_ne hne, hb']

/-- What a call returns if the calls before it were `pre`. -/
structure Answers (g : Geometry) (pre : List Call) (c : Call) (r : Result g) : Prop where
  ret : r.ret = 0
  byte : ∀ vaddr byte, c = .get_byte vaddr byte → r.byte = lastStore pre vaddr
  state : Represents r.state (lastStore (pre ++ [c]))

theorem Represents.step (R : Represents s (lastStore pre)) (h : c.vaddr.toNat < 65536) :
    ∃ r, step false s c = some r ∧ Answers g pre c r := by
  cases c with
  | get_byte vaddr byte =>
    refine ⟨_, get_byte_eq h, rfl, fun a b hc => ?_, ?_⟩
    · obtain ⟨rfl, rfl⟩ := Call.get_byte.inj hc
      rw [R.frame_eq h]
      exact R.main_mem vaddr h
    · rw [lastStore_get]
      exact R
  | store_byte vaddr byte =>
    refine ⟨_, store_byte_eq h, rfl, nofun, ?_⟩
    rw [lastStore_store, R.frame_eq h]
    exact R.setCell h byte

theorem Represents.run (R : Represents s (lastStore pre))
    (h : ∀ c ∈ calls, c.vaddr.toNat < 65536) :
    ∃ rs, run false s calls = some rs ∧ rs.length = calls.length ∧
      ∀ i (hc : i < calls.length) (hr : i < rs.length),
        Answers g (pre ++ calls.take i) calls[i] rs[i] := by
  induction calls generalizing s pre with
  | nil => exact ⟨[], rfl, rfl, fun i hc => absurd hc (Nat.not_lt_zero i)⟩
  | cons c calls ih =>
    obtain ⟨r, hr, A⟩ := R.step (h c List.mem_cons_self)
    obtain ⟨rs, hrs, hlen, hall⟩ := ih A.state fun c hc => h c (List.mem_cons_of_mem _ hc)
    refine ⟨r :: rs, ?_, by rw [List.length_cons, List.length_cons, hlen], ?_⟩
    · rw [Memsim.run, hr, Option.bind_eq_bind, Option.bind_some, hrs]
      rfl
    · intro i hc hi
      cases i with
      | zero =>
        rw [List.take_zero, List.append_nil]
        exact A
      | succ i =>
        have hi' := hall i (Nat.lt_of_succ_lt_succ hc) (Nat.lt_of_succ_lt_succ hi)
        rwa [List.append_assoc] at hi'

/-- In both geometries every sequence of calls has an outcome; each call returns 0, a read gives
the latest byte stored at its address, and page `p` is held in frame `NUM - 1 - p`, so that no two
addresses share a cell. -/
theorem run_flat (g : Geometry) (calls : List Call) (h : ∀ c ∈ calls, c.vaddr.toNat < 65536) :
    (∃ rs, run false (start g false) calls = some rs ∧ rs.length = calls.length ∧
      ∀ i (hc : i < calls.length) (hr : i < rs.length),
        rs[i].ret = 0 ∧
        (∀ vaddr byte, calls[i] = .get_byte vaddr byte →
          rs[i].byte = lastStore (calls.take i) vaddr) ∧
        ∀ a (ha : a.toNat < 65536),
          rs[i].state.main_mem (mirror g (pageFin ha)) (offsetFin g a) =
            lastStore (calls.take (i + 1)) a) ∧
    ∀ a b (ha : a.toNat < 65536) (hb : b.toNat < 65536),
      mirror g (pageFin ha) = mirror g (pageFin hb) → offsetFin g a = offsetFin g b → a = b := by
  have hstart : Represents (start g false) (lastStore []) := start_represents g
  obtain ⟨rs, hrs, hlen, hall⟩ := hstart.run h
  refine ⟨⟨rs, hrs, hlen, fun i hc hr => ?_⟩, fun a b ha hb => cell_injective ha hb⟩
  have A := hall i hc hr
  rw [List.nil_append] at A
  refine ⟨A.ret, A.byte, fun a ha => ?_⟩
  rw [List.take_succ_eq_append_getElem hc]
  exact A.state.main_mem a ha

/-- A byte written at `0x1234` and read back, next to one that was not written. -/
theorem run_flat_readBack :
    ∃ rs, run false (start .large false)
        [.store_byte 0x1234 7, .get_byte 0x1234 0, .get_byte 0x1235 1] = some rs ∧
      rs.length = 3 ∧ ∀ (h : 1 < rs.length), rs[1].byte = 7 := by
  obtain ⟨⟨rs, hrs, hlen, hall⟩, -⟩ := run_flat .large
    [.store_byte 0x1234 7, .get_byte 0x1234 0, .get_byte 0x1235 1] (by decide)
  exact ⟨rs, hrs, hlen, fun h => (hall 1 (by decide) h).2.1 _ _ rfl⟩

end SyeLabs.Memsim
