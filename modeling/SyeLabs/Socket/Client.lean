import SyeLabs.Socket.Server

/-!
# The client of `socket_client.c`

A signal handler assigns `message_to_send`, which the main loop reads twice and then clears. A
disconnection that is requested between the choice of a message and the end of its iteration is
lost, and so is one that another signal overwrites before the choice.
-/

namespace SyeLabs.Socket
open SyeLabs.Process

/-- `msg_idx_t`, with its initial value. -/
inductive MsgIdx where
  | none
  | GREETING
  | COUNTING
  | QUITING
  deriving DecidableEq, Repr

inductive Signal where
  | SIGUSR1
  | SIGUSR2
  | SIGINT
  deriving DecidableEq, Repr

inductive ClientPc where
  | loop
  /-- At the first `switch`. -/
  | choose
  | write
  /-- At the second `switch`. -/
  | route
  | read
  | reset
  | closing
  | closed
  deriving DecidableEq, Repr

structure Client where
  message_to_send : MsgIdx := .none
  running : Bool := true
  isHello : Bool := true
  receiveBuff : Buffer := .zero
  sendBuff : Buffer := .zero
  pc : ClientPc := .loop

def process_siguser (sig : Signal) (message_to_send : MsgIdx) : MsgIdx :=
  match sig with
  | .SIGUSR1 => .GREETING
  | .SIGUSR2 => .COUNTING
  | .SIGINT => message_to_send

def process_sigint : MsgIdx := .QUITING

/-- The handler of a signal runs. -/
def Client.signal (c : Client) (sig : Signal) : Client :=
  { c with
    message_to_send :=
      match sig with
      | .SIGUSR1 | .SIGUSR2 => process_siguser sig c.message_to_send
      | .SIGINT => process_sigint }

/-- The first `switch`. -/
def Client.choose (c : Client) : Client :=
  match c.message_to_send with
  | .GREETING =>
    { c with
      sendBuff := c.sendBuff.print (if c.isHello then BONJOUR else AUREVOIR)
      isHello := !c.isHello
      pc := .write }
  | .COUNTING => { c with sendBuff := c.sendBuff.print COMPTEUR, pc := .write }
  | .QUITING => { c with sendBuff := c.sendBuff.print QUITTER, running := false, pc := .write }
  | .none => { c with pc := .loop }

/-- The second `switch`. -/
def Client.route (c : Client) : Client :=
  match c.message_to_send with
  | .GREETING | .COUNTING => { c with pc := .read }
  | .QUITING => { c with running := false, pc := .reset }
  | .none => { c with pc := .reset }

/-- The main loop. -/
def Client.next (c : Client) : Next Buffer Buffer Client :=
  match c.pc with
  | .loop => .goto { c with pc := if c.running then .choose else .closing }
  | .choose => .goto c.choose
  | .write => .send c.sendBuff { c with pc := .route }
  | .route => .goto c.route
  | .read => .get fun reply => { c with receiveBuff := reply, pc := .reset }
  | .reset => .goto { c with message_to_send := .none, pc := .loop }
  | .closing => .goto { c with pc := .closed }
  | .closed => .exit

/-! ## Steps -/

/-- The steps of the main loop. -/
inductive Client.Step (c : Client) : Label Buffer Buffer → Client → Prop where
  | enter (hpc : c.pc = .loop) (hrun : c.running = true) : Step c .tau { c with pc := .choose }
  | leave (hpc : c.pc = .loop) (hrun : c.running = false) : Step c .tau { c with pc := .closing }
  | idle (hpc : c.pc = .choose) (hmsg : c.message_to_send = .none) :
    Step c .tau { c with pc := .loop }
  | greet (hpc : c.pc = .choose) (hmsg : c.message_to_send = .GREETING) :
    Step c .tau { c with
      sendBuff := c.sendBuff.print (if c.isHello then BONJOUR else AUREVOIR)
      isHello := !c.isHello
      pc := .write }
  | count (hpc : c.pc = .choose) (hmsg : c.message_to_send = .COUNTING) :
    Step c .tau { c with sendBuff := c.sendBuff.print COMPTEUR, pc := .write }
  | quit (hpc : c.pc = .choose) (hmsg : c.message_to_send = .QUITING) :
    Step c .tau { c with sendBuff := c.sendBuff.print QUITTER, running := false, pc := .write }
  | write (hpc : c.pc = .write) : Step c (.send c.sendBuff) { c with pc := .route }
  | wait (hpc : c.pc = .route)
    (hmsg : c.message_to_send = .GREETING ∨ c.message_to_send = .COUNTING) :
    Step c .tau { c with pc := .read }
  | stop (hpc : c.pc = .route) (hmsg : c.message_to_send = .QUITING) :
    Step c .tau { c with running := false, pc := .reset }
  | skip (hpc : c.pc = .route) (hmsg : c.message_to_send = .none) :
    Step c .tau { c with pc := .reset }
  | read (reply : Buffer) (hpc : c.pc = .read) :
    Step c (.get reply) { c with receiveBuff := reply, pc := .reset }
  | reset (hpc : c.pc = .reset) : Step c .tau { c with message_to_send := .none, pc := .loop }
  | close (hpc : c.pc = .closing) : Step c .tau { c with pc := .closed }

theorem Client.step_choose {c : Client} (hpc : c.pc = .choose) : c.Step .tau c.choose := by
  rw [Client.choose]
  split
  · next hmsg => exact .greet hpc hmsg
  · next hmsg => exact .count hpc hmsg
  · next hmsg => exact .quit hpc hmsg
  · next hmsg => exact .idle hpc hmsg

theorem Client.step_route {c : Client} (hpc : c.pc = .route) : c.Step .tau c.route := by
  rw [Client.route]
  split
  · next hmsg => exact .wait hpc (.inl hmsg)
  · next hmsg => exact .wait hpc (.inr hmsg)
  · next hmsg => exact .stop hpc hmsg
  · next hmsg => exact .skip hpc hmsg

theorem Client.step_of_take {c c' : Client} {l : Label Buffer Buffer}
    (h : c.next.take l = some c') : c.Step l c' := by
  rw [Client.next] at h
  cases hpc : c.pc with
  | loop =>
    rw [hpc] at h
    obtain ⟨rfl, rfl⟩ := Next.take_goto.mp h
    split_ifs with hrun
    · exact .enter hpc hrun
    · exact .leave hpc (Bool.eq_false_iff.mpr hrun)
  | choose =>
    rw [hpc] at h
    obtain ⟨rfl, rfl⟩ := Next.take_goto.mp h
    exact step_choose hpc
  | write =>
    rw [hpc] at h
    obtain ⟨rfl, rfl⟩ := Next.take_send.mp h
    exact .write hpc
  | route =>
    rw [hpc] at h
    obtain ⟨rfl, rfl⟩ := Next.take_goto.mp h
    exact step_route hpc
  | read =>
    rw [hpc] at h
    obtain ⟨reply, rfl, rfl⟩ := Next.take_get.mp h
    exact .read reply hpc
  | reset =>
    rw [hpc] at h
    obtain ⟨rfl, rfl⟩ := Next.take_goto.mp h
    exact .reset hpc
  | closing =>
    rw [hpc] at h
    obtain ⟨rfl, rfl⟩ := Next.take_goto.mp h
    exact .close hpc
  | closed =>
    rw [hpc] at h
    exact absurd (Next.take_exit.symm.trans h) (Option.some_ne_none _).symm

/-! ## Runs of the client -/

/-- Between the choice of a message and the end of its iteration. -/
def ClientPc.Busy (pc : ClientPc) : Prop := pc = .write ∨ pc = .route ∨ pc = .read ∨ pc = .reset

structure ClientRun where
  client : Client := {}
  written : List Buffer := []
  /-- `process_sigint` has run. -/
  interrupted : Bool := false

inductive ClientEvent where
  | signal (sig : Signal)
  /-- A step of the main loop; what a read receives is in the label. -/
  | stmt (l : Label Buffer Buffer)

namespace ClientRun

def step (s : ClientRun) : ClientEvent → Option ClientRun
  | .signal sig =>
    some { s with
      client := s.client.signal sig
      interrupted := s.interrupted || sig = .SIGINT }
  | .stmt l => do
    let client ← s.client.next.take l
    return { s with
      client
      written := match l with
        | .send message => s.written ++ [message]
        | _ => s.written }

def run (s : ClientRun) (events : List ClientEvent) : Option ClientRun := events.foldlM step s

def QuitterWritten (s : ClientRun) : Prop := ∃ m ∈ s.written, m.str = QUITTER

/-- The client does not close the socket, and does not wait for a signal again after
`process_sigint`, without `Quitter`. -/
structure Faithful (s : ClientRun) : Prop where
  closed : s.client.pc = .closed → s.QuitterWritten
  top : s.interrupted = true → s.client.pc = .loop → s.client.message_to_send = .none →
    s.client.running = true → s.QuitterWritten

/-- `SIGINT` does not arrive while another message is being sent, and no other message is chosen
after it. -/
def Careful (s : ClientRun) : ClientEvent → Prop
  | .signal .SIGINT => s.client.pc.Busy → s.client.running = false
  | .signal _ => True
  | .stmt _ => s.client.pc = .choose → s.interrupted = true →
      s.client.message_to_send ≠ .GREETING ∧ s.client.message_to_send ≠ .COUNTING

def CarefulRun (s : ClientRun) : List ClientEvent → Prop
  | [] => True
  | e :: events => s.Careful e ∧ ∀ s', s.step e = some s' → CarefulRun s' events

instance (pc : ClientPc) : Decidable pc.Busy := inferInstanceAs (Decidable (_ ∨ _ ∨ _ ∨ _))

instance (s : ClientRun) : (e : ClientEvent) → Decidable (s.Careful e)
  | .signal .SIGINT => inferInstanceAs (Decidable (_ → _))
  | .signal .SIGUSR1 => .isTrue trivial
  | .signal .SIGUSR2 => .isTrue trivial
  | .stmt _ => inferInstanceAs (Decidable (_ → _ → _ ∧ _))

instance decidableCarefulRun : (s : ClientRun) → (events : List ClientEvent) →
    Decidable (CarefulRun s events)
  | _, [] => .isTrue trivial
  | s, e :: events =>
    match h : s.step e with
    | none => decidable_of_iff (s.Careful e) (by simp [CarefulRun, h])
    | some s' =>
      have := decidableCarefulRun s' events
      decidable_of_iff (s.Careful e ∧ CarefulRun s' events) (by simp [CarefulRun, h])

/-! ## A request stays pending until it is served -/

structure Ok (s : ClientRun) : Prop where
  pending : s.interrupted = true → s.client.running = true →
    (s.client.pc = .loop ∨ s.client.pc = .choose) ∧ s.client.message_to_send ≠ .none
  quiting : s.client.message_to_send = .QUITING → s.interrupted = true
  quit : s.client.running = false →
    s.client.pc = .write ∧ s.client.sendBuff.str = QUITTER ∨ s.QuitterWritten
  ending : s.client.pc = .closing ∨ s.client.pc = .closed → s.client.running = false

variable {s s' : ClientRun}

theorem Ok.init : Ok {} := ⟨nofun, nofun, nofun, by rintro (h | h) <;> cases h⟩

theorem Ok.faithful (H : s.Ok) : s.Faithful where
  closed hpc := (H.quit (H.ending (.inr hpc))).resolve_left fun h =>
    absurd (hpc.symm.trans h.1) (by decide)
  top hint hpc hmsg hrun := absurd hmsg (H.pending hint hrun).2

theorem Ok.signal (H : s.Ok) {sig : Signal} (hc : s.Careful (.signal sig)) :
    Ok { s with
      client := s.client.signal sig
      interrupted := s.interrupted || sig = .SIGINT } := by
  cases sig with
  | SIGINT =>
    refine ⟨fun _ hr => ⟨?_, nofun⟩, fun _ => by simp, H.quit, H.ending⟩
    -- the next iteration will find the request
    have hrun : s.client.running = true := hr
    have hbusy : ¬s.client.pc.Busy := fun hb => nomatch (hc hb).symm.trans hrun
    have hending := mt H.ending (hrun ▸ nofun)
    show s.client.pc = .loop ∨ s.client.pc = .choose
    cases hpc : s.client.pc <;> simp_all [ClientPc.Busy]
  | _ =>
    refine ⟨fun hint hrun => ⟨?_, nofun⟩, nofun, H.quit, H.ending⟩
    exact (H.pending (by simpa using hint) hrun).1

theorem Ok.quitterWritten (H : s.Ok) (hrun : s.client.running = false)
    (hpc : s.client.pc ≠ .write) : s.QuitterWritten :=
  (H.quit hrun).resolve_left fun h => hpc h.1

/-- Where the client is busy, a request has been chosen already. -/
theorem Ok.running_false (H : s.Ok) (hint : s.interrupted = true) (hloop : s.client.pc ≠ .loop)
    (hchoose : s.client.pc ≠ .choose) : s.client.running = false := by
  by_contra hrun
  exact (H.pending hint (Bool.not_eq_false _ ▸ hrun)).1.elim hloop hchoose

/-- A statement from the write to the end of the iteration. -/
theorem Ok.of_busy {c : Client} {written : List Buffer} (H : s.Ok) (hloop : s.client.pc ≠ .loop)
    (hchoose : s.client.pc ≠ .choose) (hrun : c.running = s.client.running)
    (hmsg : c.message_to_send = .QUITING → s.client.message_to_send = .QUITING)
    (hquit : s.client.running = false → ∃ m ∈ written, m.str = QUITTER)
    (hpc : c.pc ≠ .closing ∧ c.pc ≠ .closed) : Ok { s with client := c, written } where
  pending hint hr :=
    absurd ((H.running_false hint hloop hchoose).symm.trans (hrun.symm.trans hr)) nofun
  quiting h := H.quiting (hmsg h)
  quit h := .inr (hquit (hrun.symm.trans h))
  ending h := absurd h (not_or.mpr hpc)

theorem Ok.stmt (H : s.Ok) {l : Label Buffer Buffer} (hc : s.Careful (.stmt l))
    (h : s.step (.stmt l) = some s') : s'.Ok := by
  obtain ⟨c', ht, h⟩ := Option.bind_eq_some_iff.mp h
  obtain rfl := Option.some.inj h
  cases Client.step_of_take ht with
  | enter hpc hrun =>
    refine ⟨fun hint _ => ⟨.inr rfl, (H.pending hint hrun).2⟩, H.quiting, fun hstop => ?_, ?_⟩
    · exact absurd (hrun.symm.trans hstop) nofun
    · rintro (h | h) <;> cases h
  | leave hpc hrun =>
    exact ⟨fun _ hr => absurd (hrun.symm.trans hr) nofun, H.quiting,
      fun _ => .inr (H.quitterWritten hrun (hpc ▸ nofun)), fun _ => hrun⟩
  | idle hpc hmsg =>
    refine ⟨fun hint hr => absurd hmsg (H.pending hint hr).2, H.quiting,
      fun hstop => .inr (H.quitterWritten hstop (hpc ▸ nofun)), ?_⟩
    rintro (h | h) <;> cases h
  | greet hpc hmsg =>
    refine ⟨fun hint _ => absurd hmsg (hc hpc hint).1, H.quiting,
      fun hstop => .inr (H.quitterWritten hstop (hpc ▸ nofun)), ?_⟩
    rintro (h | h) <;> cases h
  | count hpc hmsg =>
    refine ⟨fun hint _ => absurd hmsg (hc hpc hint).2, H.quiting,
      fun hstop => .inr (H.quitterWritten hstop (hpc ▸ nofun)), ?_⟩
    rintro (h | h) <;> cases h
  | quit hpc hmsg =>
    refine ⟨fun _ hr => absurd hr nofun, H.quiting, fun _ => .inl ⟨rfl, ?_⟩, fun _ => rfl⟩
    exact Buffer.str_print (by decide) (by decide)
  | write hpc =>
    refine H.of_busy (hpc ▸ nofun) (hpc ▸ nofun) rfl id (fun hstop => ?_) ⟨nofun, nofun⟩
    rcases H.quit hstop with h | ⟨m, hm, hq⟩
    · exact ⟨_, List.mem_append_right _ (List.mem_singleton_self _), h.2⟩
    · exact ⟨m, List.mem_append_left _ hm, hq⟩
  | wait hpc | skip hpc | read _ hpc =>
    exact H.of_busy (hpc ▸ nofun) (hpc ▸ nofun) rfl id
      (fun hstop => H.quitterWritten hstop (hpc ▸ nofun)) ⟨nofun, nofun⟩
  | stop hpc hmsg =>
    have hrun := H.running_false (H.quiting hmsg) (hpc ▸ nofun) (hpc ▸ nofun)
    exact H.of_busy (hpc ▸ nofun) (hpc ▸ nofun) hrun.symm id
      (fun hstop => H.quitterWritten hstop (hpc ▸ nofun)) ⟨nofun, nofun⟩
  | reset hpc =>
    exact H.of_busy (hpc ▸ nofun) (hpc ▸ nofun) rfl nofun
      (fun hstop => H.quitterWritten hstop (hpc ▸ nofun)) ⟨nofun, nofun⟩
  | close hpc =>
    have hrun := H.ending (.inl hpc)
    exact ⟨fun _ hr => absurd (hrun.symm.trans hr) nofun, H.quiting,
      fun hstop => .inr (H.quitterWritten hstop (hpc ▸ nofun)), fun _ => hrun⟩

theorem Ok.step (H : s.Ok) {e : ClientEvent} (hc : s.Careful e) (h : s.step e = some s') :
    s'.Ok := by
  cases e with
  | signal sig =>
    obtain rfl := Option.some.inj h
    exact H.signal hc
  | stmt l => exact H.stmt hc h

/-! ## A request that is lost -/

/-- `Quitter` is sent only when the loop is to end. -/
structure Unsent (s : ClientRun) : Prop where
  written : s.client.running = true → ¬s.QuitterWritten
  sending : s.client.running = true → s.client.pc = .write → s.client.sendBuff.str ≠ QUITTER
  choosing : s.client.pc = .choose → s.client.running = true

theorem Unsent.init : Unsent {} where
  written _ h := by
    obtain ⟨m, hm, -⟩ := h
    exact nomatch hm
  sending := nofun
  choosing := nofun

theorem greeting_ne_quitter (isHello : Bool) :
    (if isHello then BONJOUR else AUREVOIR) ≠ QUITTER := by
  cases isHello <;> decide

theorem str_greeting (buf : Buffer) (isHello : Bool) :
    (buf.print (if isHello then BONJOUR else AUREVOIR)).str =
      if isHello then BONJOUR else AUREVOIR := by
  cases isHello <;> exact Buffer.str_print (by decide) (by decide)

theorem Unsent.step (H : s.Unsent) {e : ClientEvent} (h : s.step e = some s') : s'.Unsent := by
  cases e with
  | signal sig =>
    obtain rfl := Option.some.inj h
    exact ⟨H.written, H.sending, H.choosing⟩
  | stmt l =>
    obtain ⟨c', ht, h⟩ := Option.bind_eq_some_iff.mp h
    obtain rfl := Option.some.inj h
    cases Client.step_of_take ht with
    | enter hpc hrun => exact ⟨H.written, nofun, fun _ => hrun⟩
    | greet hpc hmsg =>
      exact ⟨H.written, fun _ _ => (str_greeting ..).trans_ne (greeting_ne_quitter _), nofun⟩
    | count hpc hmsg =>
      have hstr : (s.client.sendBuff.print COMPTEUR).str = COMPTEUR :=
        Buffer.str_print (by decide) (by decide)
      exact ⟨H.written, fun _ _ => hstr.trans_ne (by decide), nofun⟩
    | write hpc =>
      refine ⟨fun hrun => ?_, nofun, nofun⟩
      rintro ⟨m, hm, hq⟩
      rcases List.mem_append.mp hm with hm | hm
      · exact H.written hrun ⟨m, hm, hq⟩
      · exact H.sending hrun hpc (List.mem_singleton.mp hm ▸ hq)
    | quit | stop => exact ⟨nofun, nofun, nofun⟩
    | _ => exact ⟨H.written, nofun, nofun⟩

/-- The client goes on to the end of its iteration, or of its loop, without `Quitter`. -/
structure Lost (s : ClientRun) : Prop where
  interrupted : s.interrupted = true
  written : ¬s.QuitterWritten
  pc : s.client.pc.Busy ∨ (s.client.pc = .loop ∨ s.client.pc = .closing) ∧ s.client.running = false
  sending : s.client.pc = .write → s.client.sendBuff.str ≠ QUITTER

theorem Lost.step (H : s.Lost) {e : ClientEvent} (h : s.step e = some s') :
    s'.Lost ∨ ¬s'.Faithful := by
  cases e with
  | signal sig =>
    obtain rfl := Option.some.inj h
    exact .inl ⟨by simp [H.interrupted], H.written, H.pc, H.sending⟩
  | stmt l =>
    obtain ⟨c', ht, h⟩ := Option.bind_eq_some_iff.mp h
    obtain rfl := Option.some.inj h
    have hpc := H.pc
    cases Client.step_of_take ht with
    | enter hloop hrun => simp [hloop, hrun, ClientPc.Busy] at hpc
    | leave hloop hrun => exact .inl ⟨H.interrupted, H.written, .inr ⟨.inr rfl, hrun⟩, nofun⟩
    | idle hchoose | greet hchoose | count hchoose | quit hchoose =>
      simp [hchoose, ClientPc.Busy] at hpc
    | write hwrite =>
      refine .inl ⟨H.interrupted, ?_, .inl (.inr (.inl rfl)), nofun⟩
      rintro ⟨m, hm, hq⟩
      rcases List.mem_append.mp hm with hm | hm
      · exact H.written ⟨m, hm, hq⟩
      · exact H.sending hwrite (List.mem_singleton.mp hm ▸ hq)
    | wait => exact .inl ⟨H.interrupted, H.written, .inl (.inr (.inr (.inl rfl))), nofun⟩
    | stop | skip | read =>
      exact .inl ⟨H.interrupted, H.written, .inl (.inr (.inr (.inr rfl))), nofun⟩
    | reset hreset =>
      by_cases hrun : s.client.running = true
      · exact .inr fun F => H.written (F.top H.interrupted rfl rfl hrun)
      · exact .inl ⟨H.interrupted, H.written, .inr ⟨.inl rfl, Bool.eq_false_iff.mpr hrun⟩, nofun⟩
    | close => exact .inr fun F => H.written (F.closed rfl)

/-- A careless event loses the request. -/
theorem Lost.of_not_careful (H : s.Unsent) {e : ClientEvent} (hc : ¬s.Careful e)
    (h : s.step e = some s') : s'.Lost := by
  cases e with
  | signal sig =>
    obtain rfl := Option.some.inj h
    cases sig with
    | SIGINT =>
      obtain ⟨hbusy, hrun⟩ := Classical.not_imp.mp hc
      have hrun := Bool.not_eq_false _ ▸ hrun
      exact ⟨by simp, H.written hrun, .inl hbusy, H.sending hrun⟩
    | _ => exact absurd trivial hc
  | stmt l =>
    obtain ⟨hpc, hc⟩ := Classical.not_imp.mp hc
    obtain ⟨hint, hmsg⟩ := Classical.not_imp.mp hc
    have hwritten := H.written (H.choosing hpc)
    obtain ⟨c', ht, h⟩ := Option.bind_eq_some_iff.mp h
    obtain rfl := Option.some.inj h
    cases Client.step_of_take ht with
    | greet =>
      exact ⟨hint, hwritten, .inl (.inl rfl),
        fun _ => (str_greeting ..).trans_ne (greeting_ne_quitter _)⟩
    | count =>
      have hstr : (s.client.sendBuff.print COMPTEUR).str = COMPTEUR :=
        Buffer.str_print (by decide) (by decide)
      exact ⟨hint, hwritten, .inl (.inl rfl), fun _ => hstr.trans_ne (by decide)⟩
    | idle _ hnone => simp [hnone] at hmsg
    | quit _ hquit => simp [hquit] at hmsg
    | enter hne | leave hne | write hne | wait hne | stop hne | skip hne | read _ hne | reset hne
    | close hne => exact nomatch hne.symm.trans hpc

/-- Every state of a run is faithful. -/
def FaithfulRun (s : ClientRun) : List ClientEvent → Prop
  | [] => s.Faithful
  | e :: events => s.Faithful ∧ ∀ s', s.step e = some s' → FaithfulRun s' events

theorem Ok.faithfulRun {events : List ClientEvent} (H : s.Ok) (hc : CarefulRun s events) :
    FaithfulRun s events := by
  induction events generalizing s with
  | nil => exact H.faithful
  | cons e events ih => exact ⟨H.faithful, fun t ht => ih (H.step hc.1 ht) (hc.2 t ht)⟩

theorem Lost.not_faithfulRun {events : List ClientEvent} (H : s.Lost)
    (h : run s events = some s') (hpc : s'.client.pc = .closed) : ¬FaithfulRun s events := by
  induction events generalizing s with
  | nil =>
    cases h
    have := H.pc
    simp [hpc, ClientPc.Busy] at this
  | cons e events ih =>
    rw [ClientRun.run, List.foldlM_cons] at h
    obtain ⟨t, ht, h⟩ := Option.bind_eq_some_iff.mp h
    rintro ⟨-, hrun⟩
    rcases H.step ht with H' | hnot
    · exact ih H' h (hrun t ht)
    · refine hnot ?_
      have hfirst := hrun t ht
      cases events with
      | nil => exact hfirst
      | cons => exact hfirst.1

theorem Unsent.carefulRun {events : List ClientEvent} (H : s.Unsent)
    (h : run s events = some s') (hpc : s'.client.pc = .closed) (hf : FaithfulRun s events) :
    CarefulRun s events := by
  induction events generalizing s with
  | nil => trivial
  | cons e events ih =>
    rw [ClientRun.run, List.foldlM_cons] at h
    obtain ⟨t, ht, h⟩ := Option.bind_eq_some_iff.mp h
    refine ⟨?_, fun u hu => ?_⟩
    · by_contra hc
      exact (Lost.of_not_careful H hc ht).not_faithfulRun h hpc (hf.2 t ht)
    · obtain rfl := Option.some.inj (ht.symm.trans hu)
      exact ih (H.step ht) h (hf.2 t ht)

end ClientRun

/-- The client keeps a request to disconnect in mind if no `SIGINT` arrives while it is sending
another message, and no other message is chosen after one; if it has closed the socket, only
then. -/
theorem client_faithful (events : List ClientEvent) (s : ClientRun)
    (h : ClientRun.run {} events = some s) :
    (ClientRun.CarefulRun {} events → ClientRun.FaithfulRun {} events) ∧
      (s.client.pc = .closed → ClientRun.FaithfulRun {} events →
        ClientRun.CarefulRun {} events) :=
  ⟨ClientRun.Ok.init.faithfulRun, ClientRun.Unsent.init.carefulRun h⟩

/-- The statements from a signal to the choice of a message and its write. -/
def sending (sig : Signal) (message : List Byte) : List ClientEvent :=
  [.signal sig, .stmt .tau, .stmt .tau, .stmt (.send (Buffer.zero.print message))]

theorem client_faithful_quit :
    ∃ s, ClientRun.run {} (sending .SIGINT QUITTER ++ List.replicate 4 (.stmt .tau)) = some s ∧
      s.client.pc = .closed ∧
      ClientRun.FaithfulRun {} (sending .SIGINT QUITTER ++ List.replicate 4 (.stmt .tau)) := by
  have hrun : (ClientRun.run {} (sending .SIGINT QUITTER ++
      List.replicate 4 (.stmt .tau))).map (fun s => s.client.pc) = some .closed := by decide +kernel
  obtain ⟨s, hs, hpc⟩ := Option.map_eq_some_iff.mp hrun
  exact ⟨s, hs, hpc, (client_faithful _ s hs).1 (by decide +kernel)⟩

/-- `SIGINT` arrives when `Bonjour` has been written: the client closes the socket. -/
theorem not_faithful_interrupted :
    ∃ s, ClientRun.run {} (sending .SIGUSR1 BONJOUR ++
      .signal .SIGINT :: List.replicate 4 (.stmt .tau)) = some s ∧ ¬s.Faithful := by
  have hrun : (ClientRun.run {} (sending .SIGUSR1 BONJOUR ++
      .signal .SIGINT :: List.replicate 4 (.stmt .tau))).map
        (fun s => (s.client.pc, decide (∃ m ∈ s.written, m.str = QUITTER))) =
      some (.closed, false) := by decide +kernel
  obtain ⟨s, hs, hpc⟩ := Option.map_eq_some_iff.mp hrun
  obtain ⟨hpc, hquit⟩ := Prod.mk.inj hpc
  exact ⟨s, hs, fun F => of_decide_eq_false hquit (F.closed hpc)⟩

end SyeLabs.Socket
