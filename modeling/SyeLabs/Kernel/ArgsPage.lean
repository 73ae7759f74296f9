import SyeLabs.Kernel.Relocation

/-!
# Writing beyond the page of arguments

`preserve_args_and_env` copies a string and then checks where it has ended. What does not fit is
rejected, but it has been written by then.
-/

namespace SyeLabs.Kernel

open Mmu (PAGE_SIZE)

/-- The bytes that the first word, the pointers with the null pointer, and the strings with their
terminators take. Without arguments, the name of the process is the only one. -/
def argsNeed (name : ProcName) (argc : Nat) (argv envp : Option (List ArgString)) : Nat :=
  let args := if argc = 0 then [name.val] else ((argv.getD []).take argc).map Subtype.val
  let env := (envp.getD []).map Subtype.val
  4 + 4 * args.length + 4 * (env.length + 1) + ((args ++ env).map fun s => s.length + 1).sum

/-- The call writes to its block only, whatever memory holds before. -/
def StaysInPage (args : Word) (name : ProcName) (argc : Nat)
    (argv envp : Option (List ArgString)) : Prop :=
  ∀ m : Memory,
    m.EqOff (preserve_args_and_env m args name argc argv envp).mem ⟨args, PAGE_SIZE⟩

/-- NULL is returned for what takes more than a page, and only for that. -/
def RejectsLong (args : Word) (name : ProcName) (argc : Nat)
    (argv envp : Option (List ArgString)) : Prop :=
  ∀ m : Memory, (preserve_args_and_env m args name argc argv envp).page = 0 ↔
    PAGE_SIZE < argsNeed name argc argv envp

variable {m : Memory} {args slotPtr : Word} {name : ProcName} {n : Nat}
  {argv envp : Option (List ArgString)} {l : List (List Byte)} {st st' : Memory × Word}

/-! ## The arguments that count -/

/-- Only the first `argc` strings are read. -/
theorem preserve_take (hn : n ≤ (argv.getD []).length) :
    preserve_args_and_env m args name n argv envp =
      preserve_args_and_env m args name n (argv.map (List.take n)) envp := by
  cases argv with
  | none => rfl
  | some l => simp [preserve_args_and_env, List.take_take]

theorem length_take (hn : n ≤ (argv.getD []).length) :
    ((argv.map (List.take n)).getD []).length = n := by
  cases argv with
  | none => exact (Nat.le_zero.mp hn).symm
  | some l => simpa using hn

theorem argsNeed_eq (hn : n ≤ (argv.getD []).length) : argsNeed name n argv envp =
    headerSize (argStrings name n (argv.map (List.take n)) ++ envStrings envp).length +
      stringsSize (argStrings name n (argv.map (List.take n)) ++ envStrings envp) := by
  have hargs : argStrings name n (argv.map (List.take n)) =
      if n = 0 then [name.val] else ((argv.getD []).take n).map Subtype.val := by
    cases argv <;> simp [argStrings]
  rw [argsNeed, hargs, List.length_append, headerSize]
  unfold stringsSize envStrings
  omega

theorem fits_iff (hn : n ≤ (argv.getD []).length) :
    Fits (argStrings name n (argv.map (List.take n)) ++ envStrings envp) ↔
      argsNeed name n argv envp ≤ PAGE_SIZE := by
  rw [Fits, argsNeed_eq hn]

/-! ## The string that ends beyond the page -/

/-- A cleared byte outside of the block. -/
def Overrun (args : Word) (m : Memory) : Prop := ∃ x, x ∉ (⟨args, PAGE_SIZE⟩ : Region) ∧ m x = 0

/-- The terminator of a string that ends beyond the page has been written there. -/
theorem placeString_overrun {s : List Byte} (hs : s.length < 0xC0000000)
    (h : PAGE_SIZE < ((placeString slotPtr s st).2 - args).toNat) :
    Overrun args (placeString slotPtr s st).1 := by
  have hholds := Memory.holds_write (st.1.store slotPtr st.2) st.2 (l := s ++ [0])
    (by rw [List.length_append, List.length_singleton]; omega)
  refine ⟨st.2 + BitVec.ofNat 32 s.length, fun hx => ?_, ?_⟩
  · rw [Region.mem_def] at hx
    rw [placeString_snd] at h
    unfold PAGE_SIZE at hx h
    bv_omega
  · have hlast := hholds s.length (by simp)
    rw [placeString_fst, hlast]
    simp

/-- A loop that gives up has just copied such a string. -/
theorem placeStrings_overrun (hl : Short l) (h : placeStrings args slotPtr l st = (false, st')) :
    Overrun args st'.1 := by
  induction l generalizing slotPtr st with
  | nil => exact nomatch h
  | cons s l ih =>
    obtain ⟨hs, hl⟩ := List.forall_mem_cons.mp hl
    rw [placeStrings] at h
    split at h
    · next hcheck =>
      cases h
      exact placeString_overrun hs hcheck
    · exact ih hl h

/-- A call that returns NULL has written beyond the page. -/
theorem preserve_overrun (hlen : (argv.getD []).length = n) (hargs : args ≠ 0)
    (h : (preserve_args_and_env m args name n argv envp).page = 0) :
    Overrun args (preserve_args_and_env m args name n argv envp).mem := by
  have henv : Short (envStrings envp) := short_map _
  rw [preserve_eq hlen] at h ⊢
  generalize hfirst : (if n = 0 then (true, placeString (args + 4) name (argsHeader m args n envp))
    else placeStrings args (args + 4) (argStrings name n argv) (argsHeader m args n envp)) = first
    at h ⊢
  obtain ⟨fits, st⟩ := first
  cases fits with
  | false =>
    have hn : n ≠ 0 := by
      intro hn
      rw [if_pos hn] at hfirst
      exact nomatch hfirst
    rw [if_neg hn] at hfirst
    refine placeStrings_overrun (l := argStrings name n argv) ?_ hfirst
    rw [argStrings, if_neg hn]
    exact short_map _
  | true =>
    rcases hrun : placeStrings args (args + 4 + 4 * st.1.load args) (envStrings envp) st
      with ⟨fits, st'⟩
    simp only [Bool.not_true, Bool.false_eq_true, if_false, hrun] at h ⊢
    cases fits with
    | false => exact placeStrings_overrun henv hrun
    | true => exact absurd h hargs

/-- If everything fits, nothing else is written and the page is returned; otherwise NULL is. -/
theorem preserve_page_iff (hn : n ≤ (argv.getD []).length) (hargs : args ≠ 0) (m : Memory) :
    (preserve_args_and_env m args name n argv envp).page = 0 ↔
      PAGE_SIZE < argsNeed name n argv envp := by
  rw [preserve_take hn, ← not_le, ← fits_iff hn]
  constructor
  · intro h hf
    obtain ⟨m', hm', -⟩ := preserve_layout m args (length_take hn) hf
    rw [hm'] at h
    exact hargs h
  · exact fun hno => not_not.mp fun h => hno (fits_of_preserve (length_take hn) h)

/-- In a memory without zero bytes, an overrun shows. -/
theorem not_staysInPage (hn : n ≤ (argv.getD []).length) (hargs : args ≠ 0)
    (h : PAGE_SIZE < argsNeed name n argv envp) : ¬StaysInPage args name n argv envp := by
  intro hstays
  have hpage := (preserve_page_iff hn hargs (fun _ => 1)).mpr h
  have hsame := hstays fun _ => 1
  rw [preserve_take hn] at hpage hsame
  obtain ⟨x, hx, hzero⟩ := preserve_overrun (length_take hn) hargs hpage
  have hone : (1 : Byte) = 0 := (hsame x hx).trans hzero
  exact absurd hone (by decide)

/-- `preserve_args_and_env` returns NULL exactly for what takes more than a page; and exactly in
this case it has written beyond its page. -/
theorem preserve_args_and_env_stays_iff (hn : n ≤ (argv.getD []).length) (hargs : args ≠ 0) :
    StaysInPage args name n argv envp ∧ RejectsLong args name n argv envp ↔
      argsNeed name n argv envp ≤ PAGE_SIZE := by
  constructor
  · intro h
    exact not_lt.mp fun hlong => not_staysInPage hn hargs hlong h.1
  · intro hfits
    refine ⟨fun m => ?_, preserve_page_iff hn hargs⟩
    obtain ⟨m', hm', hoff, -⟩ := preserve_layout m args (length_take hn) ((fits_iff hn).mpr hfits)
    rw [preserve_take hn, hm']
    exact hoff

theorem preserve_args_and_env_stays_iff_ls :
    (StaysInPage 0x60100000 shName 2 lsArgs none ∧ RejectsLong 0x60100000 shName 2 lsArgs none ↔
      argsNeed shName 2 lsArgs none ≤ PAGE_SIZE) ∧ argsNeed shName 2 lsArgs none = 22 :=
  ⟨preserve_args_and_env_stays_iff (by decide) (by decide), by decide⟩

theorem argsNeed_one (s : ArgString) :
    argsNeed name 1 (some [s]) none = 4 + 4 * 1 + 4 * (0 + 1) + (s.val.length + 1 + 0) := rfl

theorem not_staysInPage_long :
    ¬(StaysInPage 0x60100000 shName 1 (some [longArg]) none ∧
      RejectsLong 0x60100000 shName 1 (some [longArg]) none) := by
  have hlength : longArg.val.length = 5000 := List.length_replicate
  refine fun h => not_staysInPage (by decide) (by decide) ?_ h.1
  rw [argsNeed_one, hlength]
  decide

end SyeLabs.Kernel
