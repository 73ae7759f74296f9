import SyeLabs.Memsim.Flat

/-!
# With attributes the memory is protected

The two functions test the bits of an entry in opposite ways. Together they keep a frame that no
valid and writable entry names as it is, whatever the table holds.
-/

namespace SyeLabs.Memsim

variable {g : Geometry} {s : State g} {calls : List Call} {c : Call} {vaddr : Word} {byte : Byte}

def Valid (pte : Pte) : Prop := pte &&& VALID_BIT = VALID_BIT

def Readable (pte : Pte) : Prop :=
  Valid pte ∧ (accessBits pte = RWX_PATTERN ∨ accessBits pte = R_PATTERN)

def Writable (pte : Pte) : Prop :=
  Valid pte ∧ (accessBits pte = RWX_PATTERN ∨ accessBits pte = W_PATTERN)

instance (pte : Pte) : Decidable (Valid pte) := inferInstanceAs (Decidable (_ = _))
instance (pte : Pte) : Decidable (Readable pte) := inferInstanceAs (Decidable (_ ∧ _))
instance (pte : Pte) : Decidable (Writable pte) := inferInstanceAs (Decidable (_ ∧ _))

/-- The field has two bits. -/
theorem accessBits_cases (pte : Pte) : accessBits pte = RWX_PATTERN ∨ accessBits pte = R_PATTERN ∨
    accessBits pte = W_PATTERN ∨ accessBits pte = X_PATTERN := by
  have hle : (accessBits pte).toNat ≤ 3 := by
    rw [accessBits, BitVec.toNat_ushiftRight, BitVec.toNat_and, Nat.shiftRight_eq_div_pow]
    have h6 : pte.toNat &&& RWX_BITS.toNat ≤ 6 := Nat.and_le_right
    exact Nat.div_le_div_right h6
  have hcases : (accessBits pte).toNat = 0 ∨ (accessBits pte).toNat = 1 ∨
      (accessBits pte).toNat = 2 ∨ (accessBits pte).toNat = 3 := by omega
  rcases hcases with h | h | h | h
  · exact .inl (BitVec.eq_of_toNat_eq h)
  · exact .inr (.inl (BitVec.eq_of_toNat_eq h))
  · exact .inr (.inr (.inl (BitVec.eq_of_toNat_eq h)))
  · exact .inr (.inr (.inr (BitVec.eq_of_toNat_eq h)))

theorem readFault_eq (pte : Pte) : readFault true pte = !decide (Readable pte) := by
  simp only [readFault, Readable, Valid, Bool.true_and]
  by_cases hvalid : pte &&& VALID_BIT = VALID_BIT
  · rcases accessBits_cases pte with h | h | h | h <;> simp [hvalid, h] <;> decide
  · simp [hvalid]

theorem writeFault_eq (pte : Pte) : writeFault true pte = !decide (Writable pte) := by
  simp only [writeFault, Writable, Valid, Bool.true_and]
  by_cases hvalid : pte &&& VALID_BIT = VALID_BIT
  · rcases accessBits_cases pte with h | h | h | h <;> simp [hvalid, h] <;> decide
  · simp [hvalid]

/-- A read succeeds if the entry allows it, and changes nothing; if it fails, neither does it
change the byte of the caller. -/
structure ReadChecked (s : State g) (pte : Pte) (vaddr : Word) (byte : Byte) (r : Result g) :
    Prop where
  success : r.ret = 0 ↔ Readable pte
  found : r.ret = 0 → r.byte = s.main_mem (frame g pte) (offsetFin g vaddr)
  failure : r.ret ≠ 0 → r.ret = -1 ∧ r.byte = byte
  state : r.state = s

structure WriteChecked (s : State g) (pte : Pte) (vaddr : Word) (byte : Byte) (r : Result g) :
    Prop where
  success : r.ret = 0 ↔ Writable pte
  written : r.ret = 0 → r.state = s.setCell (frame g pte) (offsetFin g vaddr) byte
  failure : r.ret ≠ 0 → r.ret = -1 ∧ r.state = s
  page_table : r.state.page_table = s.page_table
  frames : ∀ f, (Writable pte → frame g pte ≠ f) → r.state.main_mem f = s.main_mem f

theorem get_byte_checked (s : State g) (byte : Byte) (h : vaddr.toNat < 65536) :
    ∃ r, get_byte true s vaddr byte = some r ∧
      ReadChecked s (pteOf s.page_table h) vaddr byte r := by
  refine ⟨_, get_byte_eq h, ?_⟩
  rw [readFault_eq]
  by_cases hr : Readable (pteOf s.page_table h)
  · simp only [hr, decide_true, Bool.not_true, Bool.false_eq_true, if_false]
    exact ⟨iff_of_true rfl hr, fun _ => rfl, fun h => absurd rfl h, rfl⟩
  · simp only [hr, decide_false, Bool.not_false, if_true]
    have hfail : (-1 : Int) ≠ 0 := by decide
    exact ⟨iff_of_false hfail hr, fun h => absurd h hfail, fun _ => ⟨rfl, rfl⟩, rfl⟩

theorem store_byte_checked (s : State g) (byte : Byte) (h : vaddr.toNat < 65536) :
    ∃ r, store_byte true s vaddr byte = some r ∧
      WriteChecked s (pteOf s.page_table h) vaddr byte r := by
  refine ⟨_, store_byte_eq h, ?_⟩
  rw [writeFault_eq]
  by_cases hw : Writable (pteOf s.page_table h)
  · simp only [hw, decide_true, Bool.not_true, Bool.false_eq_true, if_false]
    refine ⟨iff_of_true rfl hw, fun _ => rfl, fun h => absurd rfl h, rfl, fun f hf => ?_⟩
    exact State.setCell_of_ne s _ byte (hf hw).symm
  · simp only [hw, decide_false, Bool.not_false, if_true]
    have hfail : (-1 : Int) ≠ 0 := by decide
    exact ⟨iff_of_false hfail hw, fun h => absurd h hfail, fun _ => ⟨rfl, rfl⟩, rfl, fun _ _ => rfl⟩

/-- No valid and writable entry names the frame. -/
def Protected (table : Fin g.MEMORY_PAGE_NUM → Pte) (f : Fin g.MEMORY_PAGE_NUM) : Prop :=
  ∀ p, Writable (table p) → frame g (table p) ≠ f

/-- The table and the protected frames are as before. -/
structure Kept (s s' : State g) : Prop where
  page_table : s'.page_table = s.page_table
  frames : ∀ f, Protected s.page_table f → s'.main_mem f = s.main_mem f

theorem Kept.trans {s' s'' : State g} (h : Kept s s') (h' : Kept s' s'') : Kept s s'' where
  page_table := h'.page_table.trans h.page_table
  frames f hf := (h'.frames f (h.page_table ▸ hf)).trans (h.frames f hf)

theorem step_kept (h : c.vaddr.toNat < 65536) : ∃ r, step true s c = some r ∧ Kept s r.state := by
  cases c with
  | get_byte vaddr byte =>
    obtain ⟨r, hr, R⟩ := get_byte_checked s byte h
    exact ⟨r, hr, by rw [R.state], fun f _ => by rw [R.state]⟩
  | store_byte vaddr byte =>
    obtain ⟨r, hr, W⟩ := store_byte_checked s byte h
    exact ⟨r, hr, W.page_table, fun f hf => W.frames f (hf _)⟩

/-- The state after the last call. -/
def finalState (s : State g) (rs : List (Result g)) : State g :=
  rs.foldl (fun _ r => r.state) s

theorem run_kept (h : ∀ c ∈ calls, c.vaddr.toNat < 65536) :
    ∃ rs, run true s calls = some rs ∧ Kept s (finalState s rs) := by
  induction calls generalizing s with
  | nil => exact ⟨[], rfl, rfl, fun _ _ => rfl⟩
  | cons c calls ih =>
    obtain ⟨r, hr, K⟩ := step_kept (s := s) (h c List.mem_cons_self)
    obtain ⟨rs, hrs, K'⟩ := ih fun c hc => h c (List.mem_cons_of_mem _ hc)
    refine ⟨r :: rs, ?_, K.trans K'⟩
    rw [run, hr, Option.bind_eq_bind, Option.bind_some, hrs]
    rfl

/-! ## The table of `init_page_table` -/

theorem frame_initPte_attributes (i : Fin g.MEMORY_PAGE_NUM) :
    frame g (initPte g true i) = mirror g i := by
  cases g with
  | small => revert i; decide +kernel
  | large => revert i; decide +kernel

/-- The pages that are made read-only or not valid. -/
def Restricted (p : Fin g.MEMORY_PAGE_NUM) : Prop :=
  5 ≤ p.val ∧ p.val ≤ 8 ∨ 10 ≤ p.val ∧ p.val ≤ 12

instance (p : Fin g.MEMORY_PAGE_NUM) : Decidable (Restricted p) :=
  inferInstanceAs (Decidable (_ ∨ _))

theorem not_writable_initPte (p : Fin g.MEMORY_PAGE_NUM) (h : Restricted p) :
    ¬Writable (initPte g true p) := by
  cases g with
  | small => revert p; decide +kernel
  | large => revert p; decide +kernel

theorem not_readable_initPte (p : Fin g.MEMORY_PAGE_NUM) (h : 5 ≤ p.val ∧ p.val ≤ 8) :
    ¬Readable (initPte g true p) := by
  cases g with
  | small => revert p; decide +kernel
  | large => revert p; decide +kernel

theorem protected_initPte (p : Fin g.MEMORY_PAGE_NUM) (h : Restricted p) :
    Protected (start g true).page_table (mirror g p) := by
  intro q hq hframe
  have hqp : mirror g q = mirror g p := (frame_initPte_attributes q).symm.trans hframe
  obtain rfl : q = p := Fin.rev_injective hqp
  exact not_writable_initPte q h hq

/-- After any calls, and whatever the table and the memory hold at first: a read succeeds exactly
where the entry is valid and readable, a write where it is valid and writable, and then the byte is
that of the frame which the entry names; a failing call returns -1 and changes neither the memory
nor the byte of the caller; and protected frames have kept their contents. For the table of
`init_page_table` these are the frames of the pages 5 to 8 and 10 to 12, and the pages 5 to 8 cannot
be read. -/
theorem run_protected (g : Geometry) (s : State g) (calls : List Call)
    (h : ∀ c ∈ calls, c.vaddr.toNat < 65536) :
    ∃ rs, run true s calls = some rs ∧
      (finalState s rs).page_table = s.page_table ∧
      (∀ f, Protected s.page_table f → (finalState s rs).main_mem f = s.main_mem f) ∧
      (∀ vaddr (hv : vaddr.toNat < 65536) byte,
        (∃ r, get_byte true (finalState s rs) vaddr byte = some r ∧
          (r.ret = 0 ↔ Readable (pteOf s.page_table hv)) ∧
          (r.ret = 0 → r.byte = (finalState s rs).main_mem (frame g (pteOf s.page_table hv))
            (offsetFin g vaddr)) ∧
          (r.ret ≠ 0 → r.ret = -1 ∧ r.byte = byte) ∧ r.state = finalState s rs) ∧
        ∃ r, store_byte true (finalState s rs) vaddr byte = some r ∧
          (r.ret = 0 ↔ Writable (pteOf s.page_table hv)) ∧
          (r.ret = 0 → r.state = (finalState s rs).setCell (frame g (pteOf s.page_table hv))
            (offsetFin g vaddr) byte) ∧
          (r.ret ≠ 0 → r.ret = -1 ∧ r.state = finalState s rs)) ∧
      (s.page_table = (start g true).page_table →
        (∀ p, Restricted p → (finalState s rs).main_mem (mirror g p) = s.main_mem (mirror g p)) ∧
        ∀ vaddr byte, vaddr.toNat < 65536 → 5 ≤ page g vaddr ∧ page g vaddr ≤ 8 →
          ∃ r, get_byte true (finalState s rs) vaddr byte = some r ∧ r.ret = -1) := by
  obtain ⟨rs, hrs, K⟩ := run_kept (s := s) h
  refine ⟨rs, hrs, K.page_table, K.frames, fun vaddr hv byte => ⟨?_, ?_⟩, fun hinit => ⟨?_, ?_⟩⟩
  · obtain ⟨r, hr, R⟩ := get_byte_checked (finalState s rs) byte hv
    rw [K.page_table] at R
    exact ⟨r, hr, R.success, R.found, R.failure, R.state⟩
  · obtain ⟨r, hr, W⟩ := store_byte_checked (finalState s rs) byte hv
    rw [K.page_table] at W
    exact ⟨r, hr, W.success, W.written, W.failure⟩
  · intro p hp
    exact K.frames _ (hinit ▸ protected_initPte p hp)
  · intro vaddr byte hv hpage
    obtain ⟨r, hr, R⟩ := get_byte_checked (finalState s rs) byte hv
    rw [K.page_table, hinit] at R
    have hnot : ¬Readable (pteOf (start g true).page_table hv) :=
      not_readable_initPte ⟨page g vaddr, page_lt hv⟩ hpage
    exact ⟨r, hr, (R.failure fun h0 => hnot (R.success.mp h0)).1⟩

/-- A write to the read-only page 10 in the small geometry, after which page 5 is read. -/
theorem run_protected_readOnly :
    ∃ rs, run true (start .small true) [.store_byte 0x0A00 1] = some rs ∧
      (finalState (start .small true) rs).page_table = (start .small true).page_table ∧
      ∃ r, get_byte true (finalState (start .small true) rs) 0x0500 9 = some r ∧ r.ret = -1 := by
  obtain ⟨rs, hrs, htable, -, -, hinit⟩ :=
    run_protected .small (start .small true) [.store_byte 0x0A00 1] (by decide)
  exact ⟨rs, hrs, htable, (hinit rfl).2 0x0500 9 (by decide) (by decide)⟩

end SyeLabs.Memsim
