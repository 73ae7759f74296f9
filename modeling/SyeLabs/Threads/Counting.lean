import SyeLabs.Threads.Basic

/-!
# The threads count what a single loop would

The chunks lie one behind the other and cover the text. Whatever the schedule, the counters of a
thread are those of the part of its chunk that it has read.
-/

namespace SyeLabs.Threads

variable {signed : Bool} {text : List Byte} {n : Nat} {threads threads' : List Thread}
  {t : Thread} {c : Byte} {e : Event} {k : Nat} {l : Fin LETTERS_NB}

/-! ## One character -/

/-- The character is the letter `l` in either case. -/
def IsLetter (signed : Bool) (l : Fin LETTERS_NB) (c : Byte) : Prop :=
  tolower (charValue signed c) = A_LOWER_OFFSET + l.val

instance : DecidablePred (IsLetter signed l) := fun _ => inferInstanceAs (Decidable (_ = _))

theorem charValue_bounds (signed : Bool) (c : Byte) :
    -128 ≤ charValue signed c ∧ charValue signed c < 256 := by
  have hlt := c.isLt
  cases signed with
  | false =>
    simp only [charValue, Bool.false_eq_true, if_false]
    omega
  | true =>
    rw [charValue, if_pos rfl, BitVec.toInt_eq_toNat_cond]
    split <;> omega

/-- The unsigned index is that of a letter only if the difference is one. -/
theorem letterIndex_eq_iff (signed : Bool) (c : Byte) (l : Fin LETTERS_NB) :
    (letterIndex signed c).toNat = l.val ↔ IsLetter signed l c := by
  obtain ⟨hlo, hhi⟩ := charValue_bounds signed c
  have hl : l.val < 26 := l.isLt
  have hlower : -128 ≤ tolower (charValue signed c) ∧ tolower (charValue signed c) < 256 := by
    unfold tolower
    split <;> omega
  rw [letterIndex, IsLetter, BitVec.toNat_ofInt, A_LOWER_OFFSET]
  omega

theorem count_counters (t : Thread) (c : Byte) :
    (t.count signed c).counters l = t.counters l + if IsLetter signed l c then 1 else 0 := by
  have hiff := letterIndex_eq_iff signed c l
  unfold Thread.count
  by_cases h : (letterIndex signed c).toNat < LETTERS_NB
  · simp only [h, dif_pos, Function.update_apply, Fin.ext_iff]
    by_cases hl : IsLetter signed l c
    · have heq := hiff.mpr hl
      rw [if_pos heq.symm, if_pos hl]
      congr 2
      exact Fin.ext heq
    · rw [if_neg (fun heq => hl (hiff.mp heq.symm)), if_neg hl, Nat.add_zero]
  · have hl : ¬IsLetter signed l c := fun hl => h (hiff.mpr hl ▸ l.isLt)
    simp only [h, dif_neg, not_false_eq_true, hl, if_false, Nat.add_zero]

/-! ## The chunks -/

theorem strlen_buffer (htext : (0 : Byte) ∉ text) :
    strlen (buffer_from_file text) = text.length := by
  have hall : ∀ c ∈ text, decide (c ≠ 0) = true := fun c hc =>
    decide_eq_true fun h => htext (h ▸ hc)
  rw [strlen, buffer_from_file, List.takeWhile_append_of_pos hall]
  simp

/-- Where chunk `k` starts; `n` is the end of the last one. -/
def bound (text : List Byte) (n k : Nat) : Nat :=
  if k < n then k * chunk_size text n else text.length

section
variable (htext : (0 : Byte) ∉ text) (hn : 0 < n)
include htext hn

omit htext in
theorem bound_zero : bound text n 0 = 0 := by
  rw [bound, if_pos hn, Nat.zero_mul]

omit htext hn in
theorem bound_last : bound text n n = text.length := if_neg (lt_irrefl n)

omit htext hn in
theorem params_pointer (hk : k < n) : (params text n k).text_pointer = bound text n k := by
  rw [bound, if_pos hk]
  rfl

theorem params_size (hk : k < n) :
    bound text n k + (params text n k).size = bound text n (k + 1) := by
  have hdiv : n * chunk_size text n + leftovers text n = text.length := by
    rw [chunk_size, leftovers, strlen_buffer htext]
    exact Nat.div_add_mod _ _
  rw [bound, bound, if_pos hk]
  change _ + (chunk_size text n + if k = n - 1 then leftovers text n else 0) = _
  by_cases hlast : k = n - 1
  · have hmul : k * chunk_size text n + chunk_size text n = n * chunk_size text n := by
      rw [← Nat.succ_mul]
      congr 1
      omega
    rw [if_pos hlast, if_neg (by omega)]
    omega
  · rw [if_neg hlast, if_pos (by omega), Nat.succ_mul, Nat.add_zero]

theorem bound_mono {j : Nat} (h : j ≤ k) (hk : k ≤ n) : bound text n j ≤ bound text n k := by
  induction k, h using Nat.le_induction with
  | base => exact le_rfl
  | succ k _ ih =>
    have := params_size htext hn (k := k) (by omega)
    have := ih (by omega)
    omega

/-- Every position is in exactly one chunk. -/
theorem chunk_unique {pos : Nat} (hpos : pos < text.length) :
    ∃! k, k < n ∧ bound text n k ≤ pos ∧ pos < bound text n (k + 1) := by
  have hex : ∃ k, k ≤ n ∧ pos < bound text n k := ⟨n, le_rfl, bound_last.symm ▸ hpos⟩
  classical
  obtain ⟨hle, hlt⟩ := Nat.find_spec hex
  have hpred : Nat.find hex ≠ 0 := fun h => by
    rw [h, bound_zero hn] at hlt
    exact Nat.not_lt_zero _ hlt
  obtain ⟨k, hk⟩ : ∃ k, Nat.find hex = k + 1 := Nat.exists_eq_succ_of_ne_zero hpred
  rw [hk] at hle hlt
  have hbelow : bound text n k ≤ pos := by
    have hmin := Nat.find_min hex (m := k) (by omega)
    exact Nat.le_of_not_lt fun h => hmin ⟨by omega, h⟩
  refine ⟨k, ⟨by omega, hbelow, hlt⟩, ?_⟩
  rintro j ⟨hj, hjlo, hjhi⟩
  by_contra hne
  rcases lt_or_gt_of_ne hne with hjk | hjk
  · have := bound_mono htext hn (j := j + 1) (k := k) hjk (by omega)
    omega
  · have := bound_mono htext hn (j := k + 1) (k := j) hjk (by omega)
    omega

end

/-! ## Runs -/

/-- Thread `k` has counted the first `i` characters of its chunk. -/
structure ThreadOk (signed : Bool) (text : List Byte) (n k : Nat) (t : Thread) : Prop where
  pointer : t.text_pointer = (params text n k).text_pointer
  size : t.size = (params text n k).size
  progress : t.i ≤ t.size
  counters : ∀ l, t.counters l =
    ((text.drop t.text_pointer).take t.i).countP fun c => IsLetter signed l c

structure Invariant (signed : Bool) (text : List Byte) (n : Nat) (events : List Event)
    (threads : List Thread) : Prop where
  created : threads.length ≤ n
  each : ∀ k t, threads[k]? = some t → ThreadOk signed text n k t
  events : events.length = threads.length + (threads.map Thread.i).sum

section
variable {events : List Event} (htext : (0 : Byte) ∉ text) (hn : 0 < n)

theorem params_ok (k : Nat) : ThreadOk signed text n k (params text n k) :=
  ⟨rfl, rfl, Nat.zero_le _, fun _ => rfl⟩

include htext hn in
/-- A thread that has not finished reads a character of the text. -/
theorem ThreadOk.reads (O : ThreadOk signed text n k t) (hk : k < n) (hi : t.i < t.size) :
    t.text_pointer + t.i < text.length := by
  have hsize := params_size htext hn hk
  have hmono := bound_mono htext hn (j := k + 1) (k := n) hk le_rfl
  rw [bound_last] at hmono
  rw [O.pointer, params_pointer hk]
  rw [O.size] at hi
  omega

include htext hn in
theorem Invariant.reads (I : Invariant signed text n events threads) (ht : threads[k]? = some t)
    (hi : t.i < t.size) : t.text_pointer + t.i < text.length := by
  have hk : k < threads.length := (List.getElem?_eq_some_iff.mp ht).1
  exact (I.each k t ht).reads htext hn (lt_of_lt_of_le hk I.created) hi

theorem ThreadOk.count (O : ThreadOk signed text n k t) (hi : t.i < t.size)
    (hc : text[t.text_pointer + t.i]? = some c) : ThreadOk signed text n k (t.count signed c) where
  pointer := O.pointer
  size := O.size
  progress := hi
  counters l := by
    have hnext : (text.drop t.text_pointer)[t.i]? = some c := by rwa [List.getElem?_drop]
    change _ = ((text.drop t.text_pointer).take (t.i + 1)).countP _
    rw [count_counters, O.counters l, List.take_add_one, hnext, List.countP_append]
    simp

theorem sum_set_i (ht : threads[k]? = some t) :
    ((threads.set k (t.count signed c)).map Thread.i).sum = (threads.map Thread.i).sum + 1 := by
  induction threads generalizing k with
  | nil => cases ht
  | cons u threads ih =>
    cases k with
    | zero =>
      obtain rfl : u = t := Option.some.inj ht
      simp only [List.set_cons_zero, List.map_cons, List.sum_cons, Thread.count]
      omega
    | succ k =>
      have := ih (k := k) ht
      simp only [List.set_cons_succ, List.map_cons, List.sum_cons]
      omega

include htext hn in
theorem Invariant.step (I : Invariant signed text n events threads)
    (h : step signed text n threads e = some threads') :
    Invariant signed text n (events ++ [e]) threads' := by
  cases e with
  | create =>
    simp only [Threads.step, Option.ite_none_right_eq_some] at h
    obtain ⟨hlt, h⟩ := h
    obtain rfl := Option.some.inj h
    constructor
    case created =>
      rw [List.length_append]
      exact hlt
    case each =>
      intro k t ht
      rw [List.getElem?_append] at ht
      split at ht
      · exact I.each k t ht
      · next hk =>
        obtain ⟨hk', ht⟩ := List.getElem?_eq_some_iff.mp ht
        have hkn : k = threads.length := by
          rw [List.length_singleton] at hk'
          omega
        subst hkn
        rw [List.getElem_singleton] at ht
        exact ht ▸ params_ok _
    case events =>
      rw [List.length_append, List.length_append, List.map_append, List.sum_append, I.events]
      simp only [List.length_singleton, List.map_singleton, List.sum_singleton]
      change _ = threads.length + 1 + (_ + 0)
      omega
  | count k =>
    simp only [Threads.step, Option.bind_eq_bind, Option.bind_eq_some_iff,
      Option.ite_none_right_eq_some] at h
    obtain ⟨t, ht, hi, c, hc, h⟩ := h
    obtain rfl := Option.some.inj h
    have hread := I.reads htext hn ht hi
    rw [buffer_from_file, List.getElem?_append_left hread] at hc
    constructor
    case created =>
      rw [List.length_set]
      exact I.created
    case each =>
      intro j u hu
      rw [List.getElem?_set] at hu
      split at hu
      · next hjk =>
        subst hjk
        rw [Option.ite_none_right_eq_some] at hu
        rw [← Option.some.inj hu.2]
        exact (I.each k t ht).count hi hc
      · exact I.each j u hu
    case events =>
      rw [List.length_append, List.length_set, sum_set_i ht, I.events]
      rfl

include htext hn in
theorem run_invariant (h : run signed text n events = some threads) :
    Invariant signed text n events threads := by
  induction events using List.reverseRecOn generalizing threads with
  | nil =>
    cases h
    exact ⟨Nat.zero_le _, nofun, rfl⟩
  | append_singleton events e ih =>
    rw [run, List.foldlM_append, Option.bind_eq_bind, Option.bind_eq_some_iff] at h
    obtain ⟨u, hu, h⟩ := h
    simp only [List.foldlM_cons, List.foldlM_nil, Option.bind_eq_bind, Option.pure_def,
      Option.bind_fun_some] at h
    exact (ih hu).step htext hn h

/-! ## The end of a run -/

include htext hn

theorem Invariant.count_isSome (I : Invariant signed text n events threads)
    (ht : threads[k]? = some t) (hi : t.i < t.size) :
    (Threads.step signed text n threads (.count k)).isSome := by
  have hread := I.reads htext hn ht hi
  have hc : (buffer_from_file text)[t.text_pointer + t.i]? = some text[t.text_pointer + t.i] := by
    rw [buffer_from_file, List.getElem?_append_left hread, List.getElem?_eq_getElem hread]
  simp [Threads.step, ht, hi, hc]

/-- Before the end, `main` or some thread can go on. -/
theorem Invariant.progress (I : Invariant signed text n events threads) (h : ¬Joined n threads) :
    ∃ e, (Threads.step signed text n threads e).isSome := by
  by_cases hlt : threads.length < n
  · exact ⟨.create, by simp [Threads.step, hlt]⟩
  · have hlen : threads.length = n := le_antisymm I.created (Nat.le_of_not_lt hlt)
    rw [Joined, not_and] at h
    obtain ⟨t, ht, hi⟩ : ∃ t ∈ threads, t.i < t.size := by simpa using h hlen
    obtain ⟨k, hk⟩ := List.mem_iff_getElem?.mp ht
    exact ⟨.count k, I.count_isSome htext hn hk hi⟩

/-- The first `j` threads have not read more than the text before chunk `j`. -/
theorem Invariant.sum_le (I : Invariant signed text n events threads) {j : Nat}
    (hj : j ≤ threads.length) : ((threads.take j).map Thread.i).sum ≤ bound text n j := by
  induction j with
  | zero => exact Nat.zero_le _
  | succ j ih =>
    have hjn : j < n := lt_of_lt_of_le hj I.created
    have O := I.each j threads[j] (List.getElem?_eq_getElem hj)
    have hsize := params_size htext hn hjn
    have hprogress := O.progress
    have ih := ih (by omega)
    rw [O.size] at hprogress
    rw [List.take_succ_eq_append_getElem hj, List.map_append, List.sum_append, List.map_singleton,
      List.sum_singleton]
    omega

theorem Invariant.events_le (I : Invariant signed text n events threads) :
    events.length ≤ n + text.length := by
  have hsum := I.sum_le htext hn le_rfl
  have hmono := bound_mono htext hn I.created le_rfl
  have hcreated := I.created
  rw [List.take_length] at hsum
  rw [bound_last] at hmono
  rw [I.events]
  omega

/-- The first `j` threads have counted the text before chunk `j`. -/
theorem Invariant.result_take (I : Invariant signed text n events threads)
    (J : Joined n threads) {j : Nat} (hj : j ≤ n) : result_counters (threads.take j) l =
      (text.take (bound text n j)).countP fun c => IsLetter signed l c := by
  induction j with
  | zero =>
    rw [bound_zero hn]
    rfl
  | succ j ih =>
    have hlt : j < threads.length := J.1 ▸ hj
    have O := I.each j threads[j] (List.getElem?_eq_getElem hlt)
    have hi : threads[j].i = (params text n j).size := by
      have hdone := J.2 _ (List.getElem_mem hlt)
      have hprogress := O.progress
      rw [← O.size]
      omega
    have hcounters := O.counters l
    rw [hi, O.pointer, params_pointer hj] at hcounters
    have hfold : result_counters (threads.take (j + 1)) l =
        result_counters (threads.take j) l + threads[j].counters l := by
      rw [List.take_succ_eq_append_getElem hlt, result_counters, List.foldl_append]
      rfl
    rw [hfold, ih (by omega), hcounters, ← params_size htext hn hj, List.take_add,
      List.countP_append]

end

/-- For every text and number of threads: the chunks partition the text; and in every state of
every run, a thread that has not finished reads a character of the text, the run can only go on
until all threads are joined, and then the merged counters are those of the whole text. -/
theorem run_counts (signed : Bool) (text : List Byte) (htext : (0 : Byte) ∉ text)
    (thread_num : Int) (hnum : 1 ≤ thread_num) :
    (∀ pos < text.length, ∃! k, k < threadNum thread_num ∧
      (params text (threadNum thread_num) k).text_pointer ≤ pos ∧
      pos < (params text (threadNum thread_num) k).text_pointer +
        (params text (threadNum thread_num) k).size) ∧
    (∀ k < threadNum thread_num, (params text (threadNum thread_num) k).text_pointer +
      (params text (threadNum thread_num) k).size ≤ text.length) ∧
    ∀ events threads, run signed text (threadNum thread_num) events = some threads →
      (∀ k t, threads[k]? = some t → t.i < t.size → t.text_pointer + t.i < text.length ∧
        (step signed text (threadNum thread_num) threads (.count k)).isSome) ∧
      events.length ≤ threadNum thread_num + text.length ∧
      (¬Joined (threadNum thread_num) threads →
        ∃ e, (step signed text (threadNum thread_num) threads e).isSome) ∧
      (Joined (threadNum thread_num) threads →
        ∀ l, result_counters threads l = text.countP fun c => IsLetter signed l c) := by
  have hn : 0 < threadNum thread_num := by
    unfold threadNum CHILDREN_LIMIT
    split <;> omega
  generalize threadNum thread_num = n at hn
  refine ⟨fun pos hpos => ?_, fun k hk => ?_, fun events threads hrun => ?_⟩
  · obtain ⟨k, ⟨hk, hlo, hhi⟩, hunique⟩ := chunk_unique htext hn hpos
    refine ⟨k, ⟨hk, ?_, ?_⟩, ?_⟩
    · rwa [params_pointer hk]
    · rwa [params_pointer hk, params_size htext hn hk]
    · rintro j ⟨hj, hjlo, hjhi⟩
      rw [params_pointer hj] at hjlo hjhi
      rw [params_size htext hn hj] at hjhi
      exact hunique j ⟨hj, hjlo, hjhi⟩
  · have hmono := bound_mono htext hn (j := k + 1) (k := n) hk le_rfl
    rwa [bound_last, ← params_size htext hn hk, ← params_pointer hk] at hmono
  · have I := run_invariant htext hn hrun
    refine ⟨fun k t ht hi => ⟨I.reads htext hn ht hi, I.count_isSome htext hn ht hi⟩,
      I.events_le htext hn, fun h => I.progress htext hn h, fun J l => ?_⟩
    have hresult := I.result_take htext hn J (l := l) le_rfl
    rwa [← J.1, List.take_length, J.1, bound_last, List.take_length] at hresult

/-- Two threads on `aB` find one `b`. -/
theorem run_counts_two :
    result_counters ((run true [97, 66] 2 [.create, .count 0, .create, .count 1]).getD [])
      ⟨1, by decide⟩ = 1 := by
  obtain ⟨threads, hrun⟩ : ∃ threads,
      run true [97, 66] 2 [.create, .count 0, .create, .count 1] = some threads :=
    Option.isSome_iff_exists.mp (by decide +kernel)
  have hjoined : Joined 2 threads := by
    have hdone : ((run true [97, 66] 2 [.create, .count 0, .create, .count 1]).any fun threads =>
        threads.length = 2 ∧ ∀ t ∈ threads, ¬t.i < t.size) = true := by decide +kernel
    rw [hrun, Option.any_some, decide_eq_true_iff] at hdone
    exact hdone
  obtain ⟨-, -, h⟩ := run_counts true [97, 66] (by decide) 2 (by decide)
  rw [hrun]
  exact ((h _ threads hrun).2.2.2 hjoined ⟨1, by decide⟩).trans (by decide +kernel)

end SyeLabs.Threads
