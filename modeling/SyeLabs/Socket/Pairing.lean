import SyeLabs.Socket.Client

/-!
# Requests and replies stay paired

Client and server over a reliable stream. A signal can turn the wait for a reply into the end of
the loop, but never leave a reply unread in a loop that goes on: between the choice of a message
and the end of its iteration `message_to_send` is never 0.
-/

namespace SyeLabs.Socket
open SyeLabs.Libc SyeLabs.Process

/-- A reply that the client has read, with the message written in the same iteration, and how
many times `Compteur` has been written. -/
structure Exchange where
  message : List Byte
  count : Nat
  reply : List Byte

/-- The server, what is on its way to it and from it, and all that the client has written. -/
structure Link where
  server : Server := {}
  toServer : List Buffer := []
  toClient : List Buffer := []
  written : List Buffer := []

structure Connection extends Link where
  client : Client := {}
  exchanges : List Exchange := []

inductive ConnectionEvent where
  | signal (sig : Signal)
  | client
  | server

namespace Connection

/-- The next statement of the client; `none` while it waits for a reply, or after its end. -/
def clientStep (s : Connection) : Option Connection :=
  match s.client.next with
  | .send message client =>
    some { s with
      client
      toServer := s.toServer ++ [message]
      written := s.written ++ [message] }
  | .get k =>
    match s.toClient with
    | [] => none
    | reply :: replies =>
      some { s with
        client := k reply
        toClient := replies
        exchanges := s.exchanges ++ [⟨s.client.sendBuff.str, requests s.written, reply.str⟩] }
  | .goto client => some { s with client }
  | .undefined | .exit => none

/-- The next statement of the server. At the end of the stream its reads return 0. -/
def serverStep (clientAdr : Address) (s : Connection) : Option Connection :=
  match s.server.next clientAdr with
  | .send reply server => some { s with server, toClient := s.toClient ++ [reply] }
  | .get k =>
    match s.toServer with
    | [] => if s.client.pc = .closed then some { s with server := k none } else none
    | message :: messages => some { s with server := k (some message), toServer := messages }
  | .goto server => some { s with server }
  | .undefined | .exit => none

def step (clientAdr : Address) (s : Connection) : ConnectionEvent → Option Connection
  | .signal sig => some { s with client := s.client.signal sig }
  | .client => s.clientStep
  | .server => s.serverStep clientAdr

def run (clientAdr : Address) (s : Connection) (events : List ConnectionEvent) :
    Option Connection := events.foldlM (step clientAdr) s

end Connection

def IsGreeting (message : List Byte) : Prop := message = BONJOUR ∨ message = AUREVOIR

instance : DecidablePred IsGreeting := fun _ => inferInstanceAs (Decidable (_ ∨ _))

/-- The first greetings. -/
def alternation (n : Nat) : List (List Byte) :=
  (List.range n).map fun i => if i % 2 = 0 then BONJOUR else AUREVOIR

/-- The greetings among the messages. -/
def greetings (messages : List Buffer) : List (List Byte) :=
  (messages.map Buffer.str).filter fun m => IsGreeting m

/-- The reply is the one to the message, as long as the counter does not wrap. -/
structure Exchange.Paired (clientAdr : Address) (e : Exchange) : Prop where
  greeting : IsGreeting e.message → e.reply = greetingReply e.message clientAdr
  counter : e.message = COMPTEUR → e.count < 2 ^ 31 → e.reply = counterReply e.count

structure Connection.Paired (clientAdr : Address) (s : Connection) : Prop where
  exchanges : ∀ e ∈ s.exchanges, e.Paired clientAdr
  alternate : ∃ n, greetings s.written = alternation n

/-! ## Replies -/

section
variable {clientAdr : Address} {s : Server}

theorem zero_notMem_sprintfInt (n : Int) : (0 : Byte) ∉ sprintfInt n := by
  have hdigit : ∀ m : Nat, (0 : Byte) ∉ decimal m :=
    fun m h => absurd (isDigit_decimal h) (by decide)
  rw [sprintfInt]
  split_ifs
  · simpa using hdigit _
  · exact hdigit _

theorem length_decimal_le {n k : Nat} (hk : 0 < k) (h : n < 10 ^ k) : (decimal n).length ≤ k := by
  rw [decimal]
  split_ifs
  · exact hk
  · simpa using (Nat.digits_length_le_iff (by decide) _).mpr h

theorem length_sprintfInt_le {n : Int} (h : n.natAbs < 10 ^ 10) : (sprintfInt n).length ≤ 11 := by
  have := length_decimal_le (by decide) h
  rw [sprintfInt]
  split_ifs
  · rw [List.length_cons]
    omega
  · omega

theorem natAbs_wrapped_le (n : Nat) : (wrapped n).natAbs ≤ 2 ^ 31 := by
  have hlt : wrapped n < ((2 ^ 32 : Nat) + 1) / 2 := Int.bmod_lt (Nat.two_pow_pos 32)
  have hle : -(((2 ^ 32 : Nat) : Int) / 2) ≤ wrapped n := Int.le_bmod (Nat.two_pow_pos 32)
  omega

theorem str_greetingReply {buf : Buffer} {message : List Byte} (h : IsGreeting message) :
    (buf.print (greetingReply message clientAdr)).str = greetingReply message clientAdr := by
  have hadr := clientAdr.property
  have h0 : (0 : Byte) ∉ message ++ ascii " client " := by
    rcases h with rfl | rfl <;> decide
  have hlen : (message ++ ascii " client ").length ≤ 16 := by
    rcases h with rfl | rfl <;> decide
  refine Buffer.str_print ?_ ?_
  · rw [greetingReply, List.mem_append, not_or]
    exact ⟨h0, hadr.1⟩
  · rw [greetingReply, List.length_append]
    have := hadr.2
    simp only [BUFFER_LEN, INET_ADDRSTRLEN] at *
    omega

theorem str_counterReply {buf : Buffer} (n : Nat) :
    (buf.print (counterReply (wrapped n))).str = counterReply (wrapped n) := by
  refine Buffer.str_print ?_ ?_
  · rw [counterReply, List.mem_append, not_or]
    exact ⟨by decide, zero_notMem_sprintfInt _⟩
  · have h1 := length_sprintfInt_le ((natAbs_wrapped_le n).trans_lt (by norm_num))
    have h2 : (ascii "Valeur compteur ").length = 16 := by decide
    rw [counterReply, List.length_append]
    simp only [BUFFER_LEN]
    omega

theorem process_greeting (h : IsGreeting s.receiveBuff.str) :
    (s.process clientAdr).sendBuff.str = greetingReply s.receiveBuff.str clientAdr := by
  rw [Server.process, if_pos (show _ ∨ _ from h)]
  exact str_greetingReply h

theorem process_compteur {n : Nat} (h : s.receiveBuff.str = COMPTEUR)
    (hcounter : s.counter = wrapped n) :
    (s.process clientAdr).sendBuff.str = counterReply (wrapped (n + 1)) := by
  rw [Server.process, if_neg (h ▸ by decide), if_pos h, hcounter, wrapped_succ]
  exact str_counterReply _

end

/-! ## Where the message and its reply are -/

/-- The reply belongs to the last message that has been written. -/
structure Answers (clientAdr : Address) (written : List Buffer) (message reply : Buffer) :
    Prop where
  greeting : IsGreeting message.str → reply.str = greetingReply message.str clientAdr
  counter : message.str = COMPTEUR → reply.str = counterReply (wrapped (requests written))

/-- The server waits for a message, or is about to. -/
structure Server.Waiting (s : Server) : Prop where
  pc : s.pc = .loop ∨ s.pc = .read
  running : s.running = true

/-- Every message has been answered and every reply been read. -/
structure Link.Calm (k : Link) : Prop where
  waiting : k.server.Waiting
  toServer : k.toServer = []
  toClient : k.toClient = []
  counter : k.server.counter = wrapped (requests k.written)

/-- The message, or the reply to it, is at one place. -/
inductive Link.Asked (clientAdr : Address) (message : Buffer) (k : Link) : Prop where
  | sent (before : List Buffer) (hwritten : k.written = before ++ [message])
    (hwaiting : k.server.Waiting) (htoServer : k.toServer = [message]) (htoClient : k.toClient = [])
    (hcounter : k.server.counter = wrapped (requests before))
  | answering (hpc : k.server.pc = .write) (hrun : k.server.running = true)
    (htoServer : k.toServer = []) (htoClient : k.toClient = [])
    (hcounter : k.server.counter = wrapped (requests k.written))
    (hreply : Answers clientAdr k.written message k.server.sendBuff)
  | answered (reply : Buffer) (hwaiting : k.server.Waiting) (htoServer : k.toServer = [])
    (htoClient : k.toClient = [reply]) (hcounter : k.server.counter = wrapped (requests k.written))
    (hreply : Answers clientAdr k.written message reply)

namespace Connection

/-- What holds at each point of the client, unless its loop is to end. -/
def Agrees (clientAdr : Address) (s : Connection) : ClientPc → Prop
  | .loop | .choose | .reset => s.Calm
  | .write => s.Calm ∧ s.client.message_to_send ≠ .none ∧ s.client.sendBuff.str ≠ QUITTER
  | .route =>
    s.Asked clientAdr s.client.sendBuff ∧ s.client.message_to_send ≠ .none ∧
      s.client.sendBuff.str ≠ QUITTER
  | .read => s.Asked clientAdr s.client.sendBuff ∧ s.client.sendBuff.str ≠ QUITTER
  | .closing | .closed => False

/-- The greetings that have been written alternate, and the next one is the one to be chosen. -/
structure Alternates (client : Client) (written : List Buffer) (n : Nat) : Prop where
  written : greetings written = alternation n
  chosen : client.pc = .write → IsGreeting client.sendBuff.str →
    client.sendBuff.str = (if n % 2 = 0 then BONJOUR else AUREVOIR) ∧
      (client.isHello = true ↔ (n + 1) % 2 = 0)
  next : ¬(client.pc = .write ∧ IsGreeting client.sendBuff.str) →
    (client.isHello = true ↔ n % 2 = 0)

structure Ok (clientAdr : Address) (s : Connection) : Prop where
  agrees : s.client.running = true → s.Agrees clientAdr s.client.pc
  choosing : s.client.pc = .choose → s.client.running = true
  quitting : s.client.running = false →
    s.client.pc = .write ∨ s.client.pc = .route ∨ s.client.pc = .read →
    s.client.sendBuff.str = QUITTER
  alternates : ∃ n, Alternates s.client s.written n
  exchanges : ∀ e ∈ s.exchanges, e.Paired clientAdr

section
variable {clientAdr : Address} {s s' : Connection}

/-! ## Steps of the client -/

theorem greetings_append (messages : List Buffer) (m : Buffer) :
    greetings (messages ++ [m]) =
      greetings messages ++ if IsGreeting m.str then [m.str] else [] := by
  rw [greetings, List.map_append, List.filter_append, List.map_singleton, ← greetings]
  congr 1
  split_ifs with h <;> simp [h]

theorem alternation_succ (n : Nat) :
    alternation (n + 1) = alternation n ++ [if n % 2 = 0 then BONJOUR else AUREVOIR] := by
  simp [alternation, List.range_succ]

theorem Alternates.step {c c' : Client} {written : List Buffer} {n : Nat} {l : Label Buffer Buffer}
    (H : Alternates c written n) (h : c.Step l c') :
    ∃ n, Alternates c' (match l with | .send m => written ++ [m] | _ => written) n := by
  cases h with
  | greet hpc hmsg =>
    have hnext := H.next fun h => nomatch hpc.symm.trans h.1
    refine ⟨n, H.written, fun _ _ => ⟨?_, ?_⟩, fun h => ?_⟩
    · rw [ClientRun.str_greeting]
      cases hhello : c.isHello <;> rw [hhello] at hnext <;> simp_all
    · cases hhello : c.isHello <;> simp_all <;> omega
    · refine absurd ⟨rfl, ?_⟩ h
      rw [ClientRun.str_greeting]
      cases c.isHello
      · exact .inr rfl
      · exact .inl rfl
  | count hpc hmsg =>
    have hstr : (c.sendBuff.print COMPTEUR).str = COMPTEUR :=
      Buffer.str_print (by decide) (by decide)
    refine ⟨n, H.written, fun _ h => ?_, fun _ => H.next fun h => nomatch hpc.symm.trans h.1⟩
    rw [hstr] at h
    exact absurd h (by decide)
  | quit hpc hmsg =>
    have hstr : (c.sendBuff.print QUITTER).str = QUITTER :=
      Buffer.str_print (by decide) (by decide)
    refine ⟨n, H.written, fun _ h => ?_, fun _ => H.next fun h => nomatch hpc.symm.trans h.1⟩
    rw [hstr] at h
    exact absurd h (by decide)
  | write hpc =>
    by_cases hg : IsGreeting c.sendBuff.str
    · obtain ⟨hstr, hhello⟩ := H.chosen hpc hg
      refine ⟨n + 1, ?_, nofun, fun _ => hhello⟩
      rw [greetings_append, H.written, if_pos hg, alternation_succ, hstr]
    · refine ⟨n, ?_, nofun, fun _ => H.next fun h => hg h.2⟩
      rw [greetings_append, H.written, if_neg hg, List.append_nil]
  | enter hpc | leave hpc | idle hpc | wait hpc | stop hpc | skip hpc | read _ hpc | reset hpc
  | close hpc =>
    exact ⟨n, H.written, nofun, fun _ => H.next fun h => nomatch hpc.symm.trans h.1⟩

/-- The effect of a statement of the client. -/
inductive ClientEffect (s : Connection) (c : Client) : Label Buffer Buffer → Connection → Prop where
  | send (message : Buffer) :
    ClientEffect s c (.send message) { s with
      client := c
      toServer := s.toServer ++ [message]
      written := s.written ++ [message] }
  | get (reply : Buffer) (replies : List Buffer) (htoClient : s.toClient = reply :: replies) :
    ClientEffect s c (.get reply) { s with
      client := c
      toClient := replies
      exchanges := s.exchanges ++ [⟨s.client.sendBuff.str, requests s.written, reply.str⟩] }
  | tau : ClientEffect s c .tau { s with client := c }

theorem clientStep_cases (h : s.clientStep = some s') :
    ∃ l c, s.client.Step l c ∧ ClientEffect s c l s' := by
  rw [clientStep] at h
  cases hnext : s.client.next with
  | send message c =>
    simp only [hnext, Option.some.injEq] at h
    subst h
    exact ⟨.send message, c, Client.step_of_take (by simp [hnext]), .send message⟩
  | get k =>
    simp only [hnext] at h
    cases htoClient : s.toClient with
    | nil => simp [htoClient] at h
    | cons reply replies =>
      simp only [htoClient, Option.some.injEq] at h
      subst h
      exact ⟨.get reply, k reply, Client.step_of_take (by simp [hnext]),
        .get reply replies htoClient⟩
  | goto c =>
    simp only [hnext, Option.some.injEq] at h
    subst h
    exact ⟨.tau, c, Client.step_of_take (by simp [hnext]), .tau⟩
  | undefined => simp [hnext] at h
  | exit => simp [hnext] at h

/-- The loop of a client that is running is not left. -/
theorem Ok.calm (H : s.Ok clientAdr) (hrun : s.client.running = true)
    (hpc : s.client.pc = .loop ∨ s.client.pc = .choose ∨ s.client.pc = .reset) : s.Calm := by
  have h := H.agrees hrun
  rcases hpc with hpc | hpc | hpc <;> rwa [hpc] at h

theorem Ok.agrees_client {l : Label Buffer Buffer} {c : Client} (H : s.Ok clientAdr)
    (h : s.client.Step l c) (he : ClientEffect s c l s') (hrun : s'.client.running = true) :
    s'.Agrees clientAdr s'.client.pc := by
  cases h with
  | enter hpc hr =>
    cases he
    exact H.calm hr (.inl hpc)
  | leave hpc hr =>
    cases he
    exact absurd (hr.symm.trans hrun) nofun
  | idle hpc hmsg =>
    cases he
    exact H.calm (H.choosing hpc) (.inr (.inl hpc))
  | greet hpc hmsg =>
    cases he
    refine ⟨H.calm (H.choosing hpc) (.inr (.inl hpc)), hmsg ▸ nofun, ?_⟩
    exact (ClientRun.str_greeting ..).trans_ne (ClientRun.greeting_ne_quitter _)
  | count hpc hmsg =>
    cases he
    have hstr : (s.client.sendBuff.print COMPTEUR).str = COMPTEUR :=
      Buffer.str_print (by decide) (by decide)
    exact ⟨H.calm (H.choosing hpc) (.inr (.inl hpc)), hmsg ▸ nofun, hstr.trans_ne (by decide)⟩
  | quit => cases he; cases hrun
  | stop => cases he; cases hrun
  | write hpc =>
    cases he
    have h := H.agrees hrun
    rw [hpc] at h
    obtain ⟨hcalm, hmsg, hne⟩ := h
    exact ⟨.sent s.written rfl hcalm.waiting (by simp [hcalm.toServer]) hcalm.toClient
      hcalm.counter, hmsg, hne⟩
  | wait hpc hmsg =>
    cases he
    have h := H.agrees hrun
    rw [hpc] at h
    exact ⟨h.1, h.2.2⟩
  | skip hpc hmsg =>
    cases he
    have h := H.agrees hrun
    rw [hpc] at h
    exact absurd hmsg h.2.1
  | read reply hpc =>
    cases he with
    | get _ replies htoClient =>
      have h := H.agrees hrun
      rw [hpc] at h
      obtain ⟨hasked, -⟩ := h
      cases hasked with
      | sent _ _ _ _ hempty | answering _ _ _ hempty => exact nomatch hempty.symm.trans htoClient
      | answered _ hwaiting htoServer hone hcounter =>
        obtain ⟨-, rfl⟩ := List.cons.inj (htoClient.symm.trans hone)
        exact ⟨hwaiting, htoServer, rfl, hcounter⟩
  | reset hpc =>
    cases he
    exact H.calm hrun (.inr (.inr hpc))
  | close hpc =>
    cases he
    have h := H.agrees hrun
    rw [hpc] at h
    exact h

theorem Ok.choosing_client {l : Label Buffer Buffer} {c : Client} (h : s.client.Step l c)
    (hpc : c.pc = .choose) : c.running = true := by
  cases h with
  | enter _ hrun => exact hrun
  | _ => cases hpc

theorem Ok.quitting_client {l : Label Buffer Buffer} {c : Client} (H : s.Ok clientAdr)
    (h : s.client.Step l c) (hrun : c.running = false)
    (hpc : c.pc = .write ∨ c.pc = .route ∨ c.pc = .read) : c.sendBuff.str = QUITTER := by
  cases h with
  | greet hchoose | count hchoose =>
    exact absurd ((H.choosing hchoose).symm.trans hrun) nofun
  | quit => exact Buffer.str_print (by decide) (by decide)
  | write hwrite => exact H.quitting hrun (.inl hwrite)
  | wait hroute => exact H.quitting hrun (.inr (.inl hroute))
  | _ => rcases hpc with hpc | hpc | hpc <;> cases hpc

/-- What the client reads is the reply to what it has written, unless that was `Quitter`. -/
theorem Ok.exchange {reply : Buffer} {replies : List Buffer} (H : s.Ok clientAdr)
    (hpc : s.client.pc = .read) (htoClient : s.toClient = reply :: replies) :
    Exchange.Paired clientAdr ⟨s.client.sendBuff.str, requests s.written, reply.str⟩ := by
  by_cases hrun : s.client.running = true
  · have h := H.agrees hrun
    rw [hpc] at h
    obtain ⟨hasked, -⟩ := h
    cases hasked with
    | sent _ _ _ _ hempty | answering _ _ _ hempty => exact nomatch hempty.symm.trans htoClient
    | answered r _ _ hone _ hreply =>
      obtain ⟨rfl, -⟩ := List.cons.inj (htoClient.symm.trans hone)
      refine ⟨hreply.greeting, fun hm hcount => ?_⟩
      rw [← (wrapped_eq_iff _).mpr hcount]
      exact hreply.counter hm
  · have hquit := H.quitting (Bool.eq_false_iff.mpr hrun) (.inr (.inr hpc))
    have hgreeting : ¬IsGreeting s.client.sendBuff.str := hquit ▸ show ¬IsGreeting QUITTER by decide
    exact ⟨fun h => absurd h hgreeting, fun h => absurd (hquit.symm.trans h) (by decide)⟩

theorem Ok.clientStep (H : s.Ok clientAdr) (h : s.clientStep = some s') : s'.Ok clientAdr := by
  obtain ⟨l, c, hstep, he⟩ := clientStep_cases h
  have hagrees := H.agrees_client hstep he
  obtain ⟨n, hn⟩ := H.alternates
  obtain ⟨n', hn'⟩ := hn.step hstep
  cases he with
  | send | tau =>
    exact ⟨hagrees, Ok.choosing_client hstep, H.quitting_client hstep, ⟨n', hn'⟩, H.exchanges⟩
  | get reply replies htoClient =>
    refine ⟨hagrees, Ok.choosing_client hstep, H.quitting_client hstep, ⟨n', hn'⟩, fun e he => ?_⟩
    rcases List.mem_append.mp he with he | he
    · exact H.exchanges e he
    · cases List.mem_singleton.mp he
      cases hstep with
      | read _ hpc => exact H.exchange hpc htoClient

/-! ## Steps of the server -/

/-- The effect of a statement of the server on the link, before the client has closed it. -/
inductive ServerEffect (clientAdr : Address) (k : Link) : Link → Prop where
  | loop (hpc : k.server.pc = .loop) : ServerEffect clientAdr k
      { k with server := { k.server with pc := if k.server.running then .read else .closed } }
  | read (message : Buffer) (messages : List Buffer) (hpc : k.server.pc = .read)
    (htoServer : k.toServer = message :: messages) : ServerEffect clientAdr k
      { k with
        server := Server.process clientAdr { k.server with receiveBuff := message }
        toServer := messages }
  | write (hpc : k.server.pc = .write) : ServerEffect clientAdr k
      { k with
        server := { k.server with pc := .loop }
        toClient := k.toClient ++ [k.server.sendBuff] }

theorem serverStep_cases (h : s.serverStep clientAdr = some s') :
    s'.client = s.client ∧ s'.exchanges = s.exchanges ∧ s'.written = s.written ∧
      (s.client.pc = .closed ∨ ServerEffect clientAdr s.toLink s'.toLink) := by
  rw [serverStep, Server.next] at h
  cases hpc : s.server.pc with
  | loop =>
    simp only [hpc, Option.some.injEq] at h
    subst h
    exact ⟨rfl, rfl, rfl, .inr (.loop hpc)⟩
  | read =>
    simp only [hpc] at h
    cases htoServer : s.toServer with
    | nil =>
      simp only [htoServer, Option.ite_none_right_eq_some, Option.some.injEq] at h
      obtain ⟨hclosed, rfl⟩ := h
      exact ⟨rfl, rfl, rfl, .inl hclosed⟩
    | cons message messages =>
      simp only [htoServer, Option.getD_some, Option.some.injEq] at h
      subst h
      exact ⟨rfl, rfl, rfl, .inr (.read message messages hpc htoServer)⟩
  | write =>
    simp only [hpc, Option.some.injEq] at h
    subst h
    exact ⟨rfl, rfl, rfl, .inr (.write hpc)⟩
  | closed => simp [hpc] at h

theorem ServerEffect.waiting {k k' : Link} (h : ServerEffect clientAdr k k')
    (hempty : k.toServer = []) (hw : k.server.Waiting) :
    k'.server.Waiting ∧ k'.toServer = [] ∧ k'.toClient = k.toClient ∧ k'.written = k.written ∧
      k'.server.counter = k.server.counter := by
  cases h with
  | loop hpc => exact ⟨⟨.inr (if_pos hw.running), hw.running⟩, hempty, rfl, rfl, rfl⟩
  | read _ _ _ hcons => exact nomatch hempty.symm.trans hcons
  | write hpc => rcases hw.pc with h | h <;> exact nomatch hpc.symm.trans h

theorem ServerEffect.calm {k k' : Link} (h : ServerEffect clientAdr k k') (H : k.Calm) :
    k'.Calm := by
  obtain ⟨hw, htoServer, htoClient, hwritten, hcounter⟩ := h.waiting H.toServer H.waiting
  exact ⟨hw, htoServer, htoClient.trans H.toClient, by rw [hcounter, hwritten, H.counter]⟩

/-- The message that the server has received is answered. -/
theorem answers_process {message : Buffer} {before : List Buffer} {server : Server}
    (hcounter : server.counter = wrapped (requests before)) :
    Answers clientAdr (before ++ [message]) message
      (Server.process clientAdr { server with receiveBuff := message }).sendBuff := by
  refine ⟨fun h => process_greeting h, fun h => ?_⟩
  rw [requests_append, if_pos h]
  exact process_compteur h hcounter

theorem counter_process {message : Buffer} {before : List Buffer} {server : Server}
    (hcounter : server.counter = wrapped (requests before)) :
    (Server.process clientAdr { server with receiveBuff := message }).counter =
      wrapped (requests (before ++ [message])) := by
  rw [process_counter, requests_append, hcounter]
  split_ifs
  · exact wrapped_succ _
  · rfl

theorem ServerEffect.asked {k k' : Link} {message : Buffer} (h : ServerEffect clientAdr k k')
    (hne : message.str ≠ QUITTER) (H : k.Asked clientAdr message) : k'.Asked clientAdr message := by
  cases H with
  | sent before hwritten hwaiting htoServer htoClient hcounter =>
    cases h with
    | loop hpc =>
      exact .sent before hwritten ⟨.inr (if_pos hwaiting.running), hwaiting.running⟩ htoServer
        htoClient hcounter
    | read m messages hpc hcons =>
      obtain ⟨rfl, rfl⟩ := List.cons.inj (hcons.symm.trans htoServer)
      exact .answering process_pc (process_running.mpr ⟨hwaiting.running, hne⟩) rfl htoClient
        (hwritten ▸ counter_process hcounter) (hwritten ▸ answers_process hcounter)
    | write hpc => rcases hwaiting.pc with h | h <;> exact nomatch hpc.symm.trans h
  | answering hpc hrun htoServer htoClient hcounter hreply =>
    cases h with
    | loop hloop => exact nomatch hloop.symm.trans hpc
    | read _ _ hread => exact nomatch hread.symm.trans hpc
    | write =>
      exact .answered k.server.sendBuff ⟨.inl rfl, hrun⟩ htoServer (by simp [htoClient]) hcounter
        hreply
  | answered reply hwaiting htoServer htoClient hcounter hreply =>
    obtain ⟨hw, htoServer', htoClient', hwritten, hcounter'⟩ := h.waiting htoServer hwaiting
    exact .answered reply hw htoServer' (htoClient'.trans htoClient)
      (by rw [hcounter', hwritten, hcounter]) (hwritten ▸ hreply)

theorem Ok.serverStep (H : s.Ok clientAdr) (h : s.serverStep clientAdr = some s') :
    s'.Ok clientAdr := by
  obtain ⟨hclient, hexchanges, hwritten, heffect⟩ := serverStep_cases h
  refine ⟨fun hrun => ?_, hclient ▸ H.choosing, hclient ▸ H.quitting, ?_, hexchanges ▸ H.exchanges⟩
  · rw [hclient] at hrun ⊢
    have hagrees := H.agrees hrun
    have hnotClosed : s.client.pc ≠ .closed := fun hpc => by rwa [hpc] at hagrees
    have heffect := heffect.resolve_left hnotClosed
    cases hpc : s.client.pc <;> rw [hpc] at hagrees
    case write => exact ⟨heffect.calm hagrees.1, hclient ▸ hagrees.2⟩
    case route =>
      refine ⟨?_, hclient ▸ hagrees.2⟩
      rw [hclient]
      exact heffect.asked hagrees.2.2 hagrees.1
    case read =>
      refine ⟨?_, hclient ▸ hagrees.2⟩
      rw [hclient]
      exact heffect.asked hagrees.2 hagrees.1
    case closing => exact hagrees
    case closed => exact hagrees
    all_goals exact heffect.calm hagrees
  · rw [hclient, hwritten]
    exact H.alternates

/-! ## Runs -/

theorem Ok.signal (H : s.Ok clientAdr) (sig : Signal) :
    Ok clientAdr { s with client := s.client.signal sig } := by
  obtain ⟨n, hn⟩ := H.alternates
  refine ⟨fun hrun => ?_, H.choosing, H.quitting, ⟨n, hn.written, hn.chosen, hn.next⟩, H.exchanges⟩
  have hagrees := H.agrees hrun
  have hmsg : (s.client.signal sig).message_to_send ≠ .none := by cases sig <;> nofun
  show Agrees clientAdr { s with client := s.client.signal sig } s.client.pc
  cases hpc : s.client.pc <;> rw [hpc] at hagrees
  case write => exact ⟨hagrees.1, hmsg, hagrees.2.2⟩
  case route => exact ⟨hagrees.1, hmsg, hagrees.2.2⟩
  all_goals exact hagrees

theorem Ok.init (clientAdr : Address) : Ok clientAdr {} where
  agrees _ := ⟨⟨.inl rfl, rfl⟩, rfl, rfl, rfl⟩
  choosing := nofun
  quitting := nofun
  alternates := ⟨0, rfl, nofun, fun _ => iff_of_true rfl rfl⟩
  exchanges := nofun

theorem Ok.run {events : List ConnectionEvent} (H : s.Ok clientAdr)
    (h : run clientAdr s events = some s') : s'.Ok clientAdr := by
  induction events generalizing s with
  | nil =>
    cases h
    exact H
  | cons e events ih =>
    rw [Connection.run, List.foldlM_cons] at h
    obtain ⟨t, ht, h⟩ := Option.bind_eq_some_iff.mp h
    refine ih ?_ h
    cases e with
    | signal sig =>
      obtain rfl := Option.some.inj ht
      exact H.signal sig
    | client => exact H.clientStep ht
    | server => exact H.serverStep ht

end

end Connection

/-- Whatever signals arrive, the reply that the client reads belongs to what it has written, and
the greetings alternate. -/
theorem connection_paired (clientAdr : Address) (events : List ConnectionEvent) (s : Connection)
    (h : Connection.run clientAdr {} events = some s) : s.Paired clientAdr := by
  have H := (Connection.Ok.init clientAdr).run h
  obtain ⟨n, hn⟩ := H.alternates
  exact ⟨H.exchanges, n, hn.written⟩

/-- An iteration of the client for a signal, and the one of the server that answers it. -/
def cycle (sig : Signal) : List ConnectionEvent :=
  [.signal sig, .client, .client, .client, .client, .server, .server, .server, .client, .client]

theorem connection_paired_two :
    ∃ s, Connection.run localhost {} (cycle .SIGUSR1 ++ cycle .SIGUSR2) = some s ∧
      s.exchanges.length = 2 ∧ s.Paired localhost := by
  have hrun : (Connection.run localhost {} (cycle .SIGUSR1 ++ cycle .SIGUSR2)).map
      (fun s => s.exchanges.length) = some 2 := by decide +kernel
  obtain ⟨s, hs, hlen⟩ := Option.map_eq_some_iff.mp hrun
  exact ⟨s, hs, hlen, connection_paired localhost _ s hs⟩

/-! ## The counter wraps -/

/-- Both processes are back at the tops of their loops, after a number of requests. -/
structure Connection.Rest (n : Nat) (s : Connection) : Prop where
  client_pc : s.client.pc = .loop
  client_running : s.client.running = true
  server_pc : s.server.pc = .loop
  server_running : s.server.running = true
  toServer : s.toServer = []
  toClient : s.toClient = []
  counter : s.server.counter = wrapped n
  written : requests s.written = n

theorem Connection.Rest.count (clientAdr : Address) {s : Connection} {n : Nat} (H : s.Rest n) :
    ∃ t, run clientAdr s (cycle .SIGUSR2) = some t ∧ t.Rest (n + 1) ∧
      ⟨COMPTEUR, n + 1, counterReply (wrapped (n + 1))⟩ ∈ t.exchanges := by
  obtain ⟨⟨⟨r, counter, receiveBuff, sendBuff, pc⟩, toServer, toClient, written⟩,
    ⟨msg, cr, hello, crb, csb, cpc⟩, exchanges⟩ := s
  obtain ⟨h1, h2, h3, h4, h5, h6, h7, h8⟩ := H
  simp only at h1 h2 h3 h4 h5 h6 h7 h8
  subst h1 h2 h3 h4 h5 h6
  have hstr : (csb.print COMPTEUR).str = COMPTEUR := Buffer.str_print (by decide) (by decide)
  have hwritten : requests (written ++ [csb.print COMPTEUR]) = n + 1 := by
    rw [requests_append, h8, if_pos hstr]
  have hcounter : (counter + 1).bmod (2 ^ 32) = wrapped (n + 1) := by
    rw [h7, wrapped_succ]
  have hreply : (sendBuff.print (counterReply ((counter + 1).bmod (2 ^ 32)))).str =
      counterReply (wrapped (n + 1)) := by
    rw [hcounter]
    exact str_counterReply _
  refine ⟨_, by rfl, ⟨rfl, rfl, rfl, rfl, rfl, rfl, hcounter, hwritten⟩, ?_⟩
  show _ ∈ exchanges ++ [⟨(csb.print COMPTEUR).str, requests (written ++ [csb.print COMPTEUR]),
    (sendBuff.print (counterReply ((counter + 1).bmod (2 ^ 32)))).str⟩]
  rw [hstr, hwritten, hreply]
  exact List.mem_append_right _ (List.mem_singleton_self _)

theorem Connection.Rest.counts (clientAdr : Address) (n : Nat) :
    ∃ s, run clientAdr {} (List.replicate n (cycle .SIGUSR2)).flatten = some s ∧ s.Rest n ∧
      (n ≠ 0 → ⟨COMPTEUR, n, counterReply (wrapped n)⟩ ∈ s.exchanges) := by
  induction n with
  | zero => exact ⟨{}, rfl, ⟨rfl, rfl, rfl, rfl, rfl, rfl, rfl, rfl⟩, nofun⟩
  | succ n ih =>
    obtain ⟨s, hs, hrest, -⟩ := ih
    obtain ⟨t, ht, hrest', hlast⟩ := hrest.count clientAdr
    refine ⟨t, ?_, hrest', fun _ => hlast⟩
    rw [List.replicate_succ', List.flatten_append, List.flatten_singleton, run,
      List.foldlM_append, ← run, hs]
    exact ht

/-- The answer to one request more than an `int` can count is a negative number. -/
theorem not_paired_overflow :
    ∃ s, Connection.run localhost {} (List.replicate (2 ^ 31) (cycle .SIGUSR2)).flatten = some s ∧
      ∃ e ∈ s.exchanges, e.message = COMPTEUR ∧ e.reply ≠ counterReply e.count := by
  obtain ⟨s, hs, -, hlast⟩ := Connection.Rest.counts localhost (2 ^ 31)
  refine ⟨s, hs, _, hlast (by norm_num), rfl, fun h => ?_⟩
  have hneg : wrapped (2 ^ 31) < 0 := by decide +kernel
  have hdigits := List.append_cancel_left h
  rw [sprintfInt, if_pos hneg, sprintfInt, if_neg (by omega)] at hdigits
  exact absurd (isDigit_decimal (hdigits ▸ List.mem_cons_self ..)) (by decide)

end SyeLabs.Socket
