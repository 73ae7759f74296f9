import Mathlib.Data.List.Count
import SyeLabs.Libc
import SyeLabs.Theory.Process

/-!
# The server of `socket_server.c`

The buffers keep what they held: a read at the end of the stream leaves the last message in place,
and a message without an answer of its own is answered with the last one. The `int` that counts
wraps around.
-/

namespace SyeLabs.Socket
open SyeLabs.Libc SyeLabs.Process

def BUFFER_LEN : Nat := 80
def INET_ADDRSTRLEN : Nat := 16

def BONJOUR : List Byte := ascii "Bonjour"
def AUREVOIR : List Byte := ascii "Aurevoir"
def COMPTEUR : List Byte := ascii "Compteur"
def QUITTER : List Byte := ascii "Quitter"

/-- One of the arrays of `BUFFER_LEN` characters, or a message. -/
abbrev Buffer := {buf : List Byte // buf.length = BUFFER_LEN}

namespace Buffer

/-- After `memset`. -/
def zero : Buffer := ⟨List.replicate BUFFER_LEN 0, List.length_replicate⟩

def str (buf : Buffer) : List Byte := cstr buf.val

/-- `snprintf(buf, BUFFER_LEN, ...)`, with the characters of the result. -/
def print (buf : Buffer) (s : List Byte) : Buffer :=
  ⟨snprintf buf.val BUFFER_LEN s,
    (length_snprintf (by decide) buf.property.ge).trans buf.property⟩

theorem str_print {buf : Buffer} {s : List Byte} (h0 : (0 : Byte) ∉ s)
    (hlen : s.length < BUFFER_LEN) : (buf.print s).str = s :=
  cstr_snprintf h0 hlen

end Buffer

/-- What `inet_ntop` writes to `clientAdr`. -/
abbrev Address := {s : List Byte // (0 : Byte) ∉ s ∧ s.length < INET_ADDRSTRLEN}

/-! ## The main loop -/

inductive ServerPc where
  | loop
  | read
  | write
  | closed
  deriving DecidableEq, Repr

structure Server where
  running : Bool := true
  counter : Int := 0
  receiveBuff : Buffer := .zero
  sendBuff : Buffer := .zero
  pc : ServerPc := .loop

/-- `"%s client %s"`. -/
def greetingReply (greeting : List Byte) (clientAdr : Address) : List Byte :=
  greeting ++ ascii " client " ++ clientAdr.val

/-- `"Valeur compteur %d"`. -/
def counterReply (counter : Int) : List Byte := ascii "Valeur compteur " ++ sprintfInt counter

/-- From the return of `read` to `write`. -/
def Server.process (clientAdr : Address) (s : Server) : Server :=
  if s.receiveBuff.str = BONJOUR ∨ s.receiveBuff.str = AUREVOIR then
    { s with
      sendBuff := s.sendBuff.print (greetingReply s.receiveBuff.str clientAdr)
      pc := .write }
  else if s.receiveBuff.str = COMPTEUR then
    let counter := (s.counter + 1).bmod (2 ^ 32)
    { s with counter, sendBuff := s.sendBuff.print (counterReply counter), pc := .write }
  else if s.receiveBuff.str = QUITTER then { s with running := false, pc := .write }
  else { s with pc := .write }

/-- The main loop; `read` receives a message, or nothing at the end of the stream. -/
def Server.next (clientAdr : Address) (s : Server) : Next Buffer (Option Buffer) Server :=
  match s.pc with
  | .loop => .goto { s with pc := if s.running then .read else .closed }
  | .read => .get fun message =>
    Server.process clientAdr { s with receiveBuff := message.getD s.receiveBuff }
  | .write => .send s.sendBuff { s with pc := .loop }
  | .closed => .exit

/-! ## A session -/

/-- What the client sends, and whether it closes the connection then. -/
structure Stream where
  messages : List Buffer
  closes : Bool

structure Session where
  server : Server := {}
  received : List Buffer := []
  replies : List Buffer := []
  /-- `read` has returned 0. -/
  ended : Bool := false

/-- The next step of the server; `none` while it waits for a message, or after its end. -/
def Session.step (clientAdr : Address) (stream : Stream) (s : Session) : Option Session :=
  match s.server.next clientAdr with
  | .send reply server => some { s with server, replies := s.replies ++ [reply] }
  | .get k =>
    match stream.messages[s.received.length]? with
    | some m => some { s with server := k (some m), received := s.received ++ [m] }
    | none => if stream.closes then some { s with server := k none, ended := true } else none
  | .goto server => some { s with server }
  | .undefined | .exit => none

def Session.run (clientAdr : Address) (stream : Stream) : Nat → Option Session
  | 0 => some {}
  | n + 1 => (Session.run clientAdr stream n).bind (Session.step clientAdr stream)

/-- Every message is counted and answered once, and the server reads no further than the end. -/
structure Session.Exact (s : Session) : Prop where
  counter : s.server.counter = (s.received.countP fun m => m.str = COMPTEUR : Nat)
  replies : s.replies.length ≤ s.received.length
  answered : s.server.pc = .loop → s.replies.length = s.received.length
  stops : s.server.pc = .read → s.ended = false ∧ ∀ m ∈ s.received, m.str ≠ QUITTER

/-- The messages that come before the client asks to quit. -/
def Stream.beforeQuit (stream : Stream) : List Buffer :=
  stream.messages.takeWhile fun m => m.str ≠ QUITTER

/-- A client that closes the connection has asked to quit, and the counter does not wrap before
it does so. -/
structure Stream.Clean (stream : Stream) : Prop where
  quits : stream.closes = true → ∃ m ∈ stream.messages, m.str = QUITTER
  counts : (stream.beforeQuit.countP fun m => m.str = COMPTEUR) < 2 ^ 31

/-! ## One message -/

section
variable {clientAdr : Address} {s : Server}

@[simp] theorem process_pc : (s.process clientAdr).pc = .write := by
  rw [Server.process]
  split_ifs <;> rfl

@[simp] theorem process_receiveBuff : (s.process clientAdr).receiveBuff = s.receiveBuff := by
  rw [Server.process]
  split_ifs <;> rfl

theorem process_running :
    (s.process clientAdr).running = true ↔ s.running = true ∧ s.receiveBuff.str ≠ QUITTER := by
  rw [Server.process]
  split_ifs with h1 h2 h3
  · have hne : s.receiveBuff.str ≠ QUITTER := by
      rcases h1 with h | h <;> rw [h] <;> decide
    simp [hne]
  · have hne : s.receiveBuff.str ≠ QUITTER := h2 ▸ by decide
    simp [hne]
  · simp [h3]
  · simp [h3]

theorem process_counter :
    (s.process clientAdr).counter =
      if s.receiveBuff.str = COMPTEUR then (s.counter + 1).bmod (2 ^ 32) else s.counter := by
  rw [Server.process]
  split_ifs with h1 h2 h3 h4
  · exact absurd (h2 ▸ h1) (by decide)
  all_goals rfl

end

/-- The counter after a number of messages. -/
def wrapped (n : Nat) : Int := (n : Int).bmod (2 ^ 32)

theorem wrapped_succ (n : Nat) : (wrapped n + 1).bmod (2 ^ 32) = wrapped (n + 1) :=
  Int.bmod_add_bmod

theorem wrapped_eq_iff (n : Nat) : wrapped n = n ↔ n < 2 ^ 31 := by
  constructor
  · intro h
    have hlt : wrapped n < ((2 ^ 32 : Nat) + 1) / 2 := Int.bmod_lt (Nat.two_pow_pos 32)
    rw [h] at hlt
    omega
  · intro h
    exact Int.bmod_eq_of_le (by omega) (by omega)

/-- The number of messages that ask for the counter. -/
def requests (messages : List Buffer) : Nat := messages.countP fun m => m.str = COMPTEUR

theorem requests_append (messages : List Buffer) (m : Buffer) :
    requests (messages ++ [m]) = requests messages + if m.str = COMPTEUR then 1 else 0 := by
  simp [requests, List.countP_append, List.countP_singleton]

/-! ## Sessions that do not reach the end of the stream -/

/-- What holds until the server reads at the end of the stream. -/
structure Session.Ok (stream : Stream) (s : Session) : Prop where
  received : s.received <+: stream.messages
  quit : ∀ m ∈ s.received.dropLast, m.str ≠ QUITTER
  counter : s.server.counter = wrapped (requests s.received)
  running : s.server.running = true ↔ ∀ m ∈ s.received, m.str ≠ QUITTER
  reading : s.server.pc = .read → s.server.running = true
  replies : s.replies.length + (if s.server.pc = .write then 1 else 0) = s.received.length
  ended : s.ended = false

section
variable {clientAdr : Address} {stream : Stream} {s s' : Session} {m : Buffer}

theorem Session.Ok.receive (H : s.Ok stream) (hpc : s.server.pc = .read)
    (hm : stream.messages[s.received.length]? = some m) :
    Ok stream { s with
      server := Server.process clientAdr { s.server with receiveBuff := m }
      received := s.received ++ [m] } where
  received := by
    obtain ⟨rest, hrest⟩ := H.received
    rw [← hrest, List.getElem?_append_right le_rfl, Nat.sub_self] at hm
    cases rest with
    | nil => cases hm
    | cons a rest =>
      obtain rfl := Option.some.inj hm
      exact ⟨rest, by rw [← hrest, List.append_assoc, List.singleton_append]⟩
  quit := by
    rw [List.dropLast_concat]
    exact H.running.mp (H.reading hpc)
  counter := by
    rw [process_counter, requests_append, H.counter]
    split_ifs
    · exact wrapped_succ _
    · rfl
  running := by
    rw [process_running, H.running]
    simp [or_imp, forall_and]
  reading h := absurd h (by simp)
  replies := by
    have h := H.replies
    rw [hpc] at h
    simpa using h
  ended := H.ended

theorem Session.Ok.step (H : s.Ok stream)
    (hquit : stream.closes = true → ∃ m ∈ stream.messages, m.str = QUITTER)
    (h : s.step clientAdr stream = some s') : s'.Ok stream := by
  rw [Session.step, Server.next] at h
  cases hpc : s.server.pc with
  | loop =>
    simp only [hpc, Option.some.injEq] at h
    subst h
    have hreplies := H.replies
    rw [hpc] at hreplies
    refine ⟨H.received, H.quit, H.counter, H.running, fun hread => ?_, ?_, H.ended⟩
    · by_contra hrun
      simp [hrun] at hread
    · cases hrun : s.server.running <;> simpa [hrun] using hreplies
  | read =>
    simp only [hpc] at h
    cases hm : stream.messages[s.received.length]? with
    | some m =>
      simp only [hm, Option.getD_some, Option.some.injEq] at h
      subst h
      exact H.receive hpc hm
    | none =>
      simp only [hm, Option.ite_none_right_eq_some] at h
      obtain ⟨m, hm', hmq⟩ := hquit h.1
      have hall := H.received.eq_of_length_le (List.getElem?_eq_none_iff.mp hm)
      exact absurd hmq (H.running.mp (H.reading hpc) m (hall ▸ hm'))
  | write =>
    simp only [hpc, Option.some.injEq] at h
    subst h
    have hreplies := H.replies
    rw [hpc] at hreplies
    exact ⟨H.received, H.quit, H.counter, H.running, nofun, by simpa using hreplies, H.ended⟩
  | closed => simp [hpc] at h

theorem Session.Ok.init (stream : Stream) : Ok stream {} where
  received := List.nil_prefix
  quit := nofun
  counter := rfl
  running := iff_of_true rfl nofun
  reading := nofun
  replies := rfl
  ended := rfl

/-- No more requests have been received than come before the client asks to quit. -/
theorem Session.Ok.requests_le (H : s.Ok stream) :
    requests s.received ≤ requests stream.beforeQuit := by
  obtain ⟨rest, hrest⟩ := H.received
  rcases List.eq_nil_or_concat' s.received with hnil | ⟨l, m, hl⟩
  · rw [hnil]
    exact Nat.zero_le _
  have hquit := H.quit
  rw [hl, List.dropLast_concat] at hquit
  have hbefore : stream.beforeQuit =
      l ++ (m :: rest).takeWhile fun m => m.str ≠ QUITTER := by
    rw [Stream.beforeQuit, ← hrest, hl, List.append_assoc, List.singleton_append]
    exact List.takeWhile_append_of_pos fun a ha => decide_eq_true (hquit a ha)
  rw [hl, requests_append, hbefore, requests, requests, List.countP_append]
  refine Nat.add_le_add_left ?_ _
  split_ifs with hm
  · have hne : m.str ≠ QUITTER := hm ▸ by decide
    have htake : (m :: rest).takeWhile (fun m => m.str ≠ QUITTER) =
        m :: rest.takeWhile fun m => m.str ≠ QUITTER :=
      List.takeWhile_cons_of_pos (decide_eq_true hne)
    rw [htake, List.countP_cons, decide_eq_true hm]
    exact Nat.le_add_left 1 _
  · exact Nat.zero_le _

theorem Session.Ok.exact (H : s.Ok stream) (hcount : requests stream.beforeQuit < 2 ^ 31) :
    s.Exact where
  counter := by
    rw [H.counter]
    exact (wrapped_eq_iff _).mpr (H.requests_le.trans_lt hcount)
  replies := Nat.le_of_add_right_le H.replies.le
  answered hpc := by simpa [hpc] using H.replies
  stops hpc := ⟨H.ended, H.running.mp (H.reading hpc)⟩

theorem Session.Ok.run {n : Nat}
    (hquit : stream.closes = true → ∃ m ∈ stream.messages, m.str = QUITTER)
    (h : Session.run clientAdr stream n = some s) : s.Ok stream := by
  induction n generalizing s with
  | zero =>
    cases h
    exact .init stream
  | succ n ih =>
    obtain ⟨t, ht, h⟩ := Option.bind_eq_some_iff.mp h
    exact (ih ht).step hquit h

/-! ## The server goes through the messages before it -/

/-- The server is about to read, all that it has received being answered and counted. -/
structure Session.Ready (s : Session) : Prop where
  pc : s.server.pc = .read
  running : s.server.running = true
  counter : s.server.counter = wrapped (requests s.received)
  replies : s.replies.length = s.received.length

theorem Session.run_succ {n : Nat} (h : Session.run clientAdr stream n = some s)
    (h' : s.step clientAdr stream = some s') : Session.run clientAdr stream (n + 1) = some s' := by
  rw [Session.run, h]
  exact h'

/-- Three steps of the server: it reads, answers, and comes back. -/
theorem Session.Ready.message {n : Nat} (h : Session.run clientAdr stream n = some s)
    (H : s.Ready) (hm : stream.messages[s.received.length]? = some m) (hquit : m.str ≠ QUITTER) :
    ∃ t, Session.run clientAdr stream (n + 3) = some t ∧ t.Ready ∧
      t.received = s.received ++ [m] := by
  have hread : s.step clientAdr stream = some { s with
      server := Server.process clientAdr { s.server with receiveBuff := m }
      received := s.received ++ [m] } := by
    simp [Session.step, Server.next, H.pc, hm]
  have hrun : (Server.process clientAdr { s.server with receiveBuff := m }).running = true :=
    process_running.mpr ⟨H.running, hquit⟩
  have hwrite : Session.run clientAdr stream (n + 2) = some { s with
      server := { Server.process clientAdr { s.server with receiveBuff := m } with pc := .loop }
      received := s.received ++ [m]
      replies := s.replies ++
        [(Server.process clientAdr { s.server with receiveBuff := m }).sendBuff] } :=
    Session.run_succ (Session.run_succ h hread) (by simp [Session.step, Server.next])
  have hloop := Session.run_succ hwrite (by simp [Session.step, Server.next]; rfl)
  refine ⟨_, hloop, ⟨?_, hrun, ?_, ?_⟩, rfl⟩
  · simp [hrun]
  · show (Server.process clientAdr { s.server with receiveBuff := m }).counter = _
    rw [process_counter, requests_append, H.counter]
    split_ifs
    · exact wrapped_succ _
    · rfl
  · simp [H.replies]

theorem Session.exists_ready (clientAdr : Address) (stream : Stream) (l rest : List Buffer)
    (hl : stream.messages = l ++ rest) (hquit : ∀ m ∈ l, m.str ≠ QUITTER) :
    ∃ n s, Session.run clientAdr stream n = some s ∧ s.Ready ∧ s.received = l := by
  induction l using List.reverseRecOn generalizing rest with
  | nil => exact ⟨1, _, rfl, ⟨rfl, rfl, rfl, rfl⟩, rfl⟩
  | append_singleton l m ih =>
    obtain ⟨n, s, hs, hready, hreceived⟩ := ih (m :: rest) (by simpa using hl)
      fun a ha => hquit a (List.mem_append_left _ ha)
    have hm : stream.messages[s.received.length]? = some m := by
      rw [hl, hreceived]
      simp
    obtain ⟨t, ht, hready', hreceived'⟩ :=
      hready.message hs hm (hquit m (List.mem_append_right _ (List.mem_singleton_self m)))
    exact ⟨n + 3, t, ht, hready', hreceived ▸ hreceived'⟩

/-- At the end of the stream the server answers once more. -/
theorem Session.Ready.not_exact {n : Nat} (h : Session.run clientAdr stream n = some s)
    (H : s.Ready) (hall : s.received = stream.messages) (hcloses : stream.closes = true) :
    ∃ n t, Session.run clientAdr stream n = some t ∧ ¬t.Exact := by
  have hread : s.step clientAdr stream = some { s with
      server := Server.process clientAdr { s.server with receiveBuff := s.server.receiveBuff }
      ended := true } := by
    simp [Session.step, Server.next, H.pc, hall, hcloses]
  have hwrite := Session.run_succ (Session.run_succ h hread)
    (by simp [Session.step, Server.next]; rfl)
  refine ⟨_, _, hwrite, fun E => ?_⟩
  have hanswered := E.answered rfl
  simp [H.replies] at hanswered

end

/-- The server counts and answers every message once and stops, exactly for the clients that ask
to quit before they close the connection and before the counter wraps. -/
theorem server_exact_iff (clientAdr : Address) (stream : Stream) :
    (∀ n s, Session.run clientAdr stream n = some s → s.Exact) ↔ stream.Clean := by
  constructor
  · intro h
    refine ⟨fun hcloses => ?_, ?_⟩
    · by_contra hquit
      obtain ⟨n, s, hs, hready, hall⟩ := Session.exists_ready clientAdr stream
        stream.messages [] (List.append_nil _).symm fun m hm hmq => hquit ⟨m, hm, hmq⟩
      obtain ⟨n, t, ht, hnot⟩ := hready.not_exact hs hall hcloses
      exact hnot (h n t ht)
    · obtain ⟨n, s, hs, hready, hall⟩ := Session.exists_ready clientAdr stream
        stream.beforeQuit _ (List.takeWhile_append_dropWhile ..).symm
        fun m hm => by
          simpa using List.mem_takeWhile_imp (p := fun m : Buffer => m.str ≠ QUITTER) hm
      have hcounter := (h n s hs).counter
      rw [hready.counter, hall] at hcounter
      exact (wrapped_eq_iff _).mp hcounter
  · intro hclean n s hs
    exact (Session.Ok.run hclean.quits hs).exact hclean.counts

def localhost : Address := ⟨ascii "127.0.0.1", by decide, by decide⟩

/-- A client that closes the connection without a message is answered. -/
theorem not_exact_of_close :
    ∃ n s, Session.run localhost { messages := [], closes := true } n = some s ∧ ¬s.Exact := by
  obtain ⟨n, s, hs, hready, hall⟩ := Session.exists_ready localhost
    { messages := [], closes := true } [] [] rfl nofun
  exact hready.not_exact hs hall rfl

end SyeLabs.Socket
