import SyeLabs.Tictactoe.Manager

/-!
# The game manager and the player

Two processes over two reliable channels. A prompt of the game manager is the permission to send
one move: between two prompts there is exactly one, and it is read before the next.
-/

namespace SyeLabs.Tictactoe
open SyeLabs.Process

/-- Where the player is in its loop. -/
inductive PlayerPc where
  | loop
  /-- In `get_input_move`. -/
  | inputMove
  | sendCmd
  deriving DecidableEq, Repr

structure Player where
  game_over : Bool := false
  pending_move : Int := 0
  pc : PlayerPc := .loop
  deriving DecidableEq, Repr

/-- The `switch` on the command received. -/
def Player.handle (p : Player) : Cmd → Player
  | .GAME_START => { p with game_over := false }
  | .GAME_END => { p with game_over := true }
  | .YOU_CAN_PLAY => { p with pc := .inputMove }
  | .MOVE_REJECTED => { p with pc := .inputMove }
  | .NO_WINNER => { p with game_over := true }
  | .YOU_WIN => { p with game_over := true }
  | .YOU_LOSE => { p with game_over := true }

/-- The two processes, the contents of the channels, and the commands the player has handled. -/
structure Match where
  gm : Gm
  player : Player := {}
  toPlayer : List Cmd := []
  toGm : List Int := []
  handled : List Cmd := []

inductive Event where
  | gm
  | player
  /-- The user types a cell, which `get_input_move` returns. -/
  | typed (cell : Fin GRID_SIZE)
  deriving DecidableEq, Repr

namespace Match

/-- The next step of the game manager; `none` while it waits, or after its end. -/
def gmStep (hd : Header) (m : Match) : Option Match :=
  match game_manager hd m.gm with
  | .send cmd gm => some { m with gm, toPlayer := m.toPlayer ++ [cmd] }
  | .get k =>
    match m.toGm with
    | [] => none
    | move :: moves => some { m with gm := k move, toGm := moves }
  | .goto gm => some { m with gm }
  | .undefined | .exit => none

/-- The next step of the player's `main`, which has left its loop when `game_over` is set. -/
def playerStep (m : Match) : Option Match :=
  match m.player.pc with
  | .loop =>
    if m.player.game_over then none
    else
      match m.toPlayer with
      | [] => none
      | cmd :: cmds =>
        some { m with
          player := m.player.handle cmd
          toPlayer := cmds
          handled := m.handled ++ [cmd] }
  | .inputMove => none
  | .sendCmd =>
    some { m with
      player := { m.player with pc := .loop }
      toGm := m.toGm ++ [m.player.pending_move] }

def step (hd : Header) (m : Match) : Event → Option Match
  | .gm => m.gmStep hd
  | .player => m.playerStep
  | .typed cell =>
    if m.player.pc = .inputMove then
      some { m with player := { m.player with pending_move := cell, pc := .sendCmd } }
    else none

def init (hd : Header) : Match := { gm := init_game hd }

def run (hd : Header) (m : Match) (events : List Event) : Option Match := events.foldlM (step hd) m

end Match

/-! ## The protocol -/

/-- What the other side has to know of the game manager. -/
inductive Phase where
  | busy
  | asking
  | ended
  | closed

def Cmd.IsPrompt (c : Cmd) : Prop := c = .YOU_CAN_PLAY ∨ c = .MOVE_REJECTED

/-- The protocol that the game manager follows. -/
inductive Phase.Step : Phase → Label Cmd Int → Phase → Prop where
  | compute : Step .busy .tau .busy
  | start : Step .busy (.send .GAME_START) .busy
  | prompt (c : Cmd) (hc : c.IsPrompt) : Step .busy (.send c) .asking
  | receive (move : Int) : Step .asking (.get move) .busy
  | verdict (v : Cmd) (hv : v.IsVerdict) : Step .busy (.send v) .ended
  | leave : Step .ended .tau .ended
  | close : Step .ended (.send .GAME_END) .closed

def Gm.phase (gm : Gm) : Phase :=
  match gm.pc with
  | .getCmd => .asking
  | .loop => if gm.game_over then .ended else .busy
  | .gameEnd => .ended
  | .returned => .closed
  | _ => .busy

theorem Gm.pc_of_asking {gm : Gm} (h : gm.phase = .asking) : gm.pc = .getCmd := by
  rw [Gm.phase] at h
  cases hpc : gm.pc <;> rw [hpc] at h
  case loop => cases hover : gm.game_over <;> simp [hover] at h
  all_goals cases h

theorem Gm.Step.pc_of_get {hd : Header} {gm gm' : Gm} {move : Int}
    (h : Gm.Step hd gm (.get move) gm') : gm.pc = .getCmd := by
  cases h with
  | illegal _ hpc => exact hpc
  | legal _ hpc => exact hpc

theorem Gm.Step.phase {hd : Header} {gm gm' : Gm} {l : Label Cmd Int}
    (h : Gm.Step hd gm l gm') (H : gm.Ok hd) : Phase.Step gm.phase l gm'.phase := by
  rw [Gm.Ok] at H
  cases h with
  | gameStart hpc =>
    rw [hpc] at H
    simpa [Gm.phase, hpc, H.going] using .start
  | game_over hpc hover => simpa [Gm.phase, hpc, hover] using .leave
  | player hpc hover => simpa [Gm.phase, hpc, hover] using .compute
  | computer hpc hover => simpa [Gm.phase, hpc, hover] using .compute
  | youCanPlay hpc => simpa [Gm.phase, hpc] using .prompt .YOU_CAN_PLAY (.inl rfl)
  | illegal move hpc => simpa [Gm.phase, hpc] using .receive move
  | legal i hpc => simpa [Gm.phase, hpc] using .receive i
  | rejected hpc => simpa [Gm.phase, hpc] using .prompt .MOVE_REJECTED (.inr rfl)
  | playersMove i hpc => simpa [Gm.phase, hpc] using .compute
  | computersTurn i hpc => simpa [Gm.phase, hpc] using .compute
  | progress hpc =>
    rw [hpc] at H
    simpa [Gm.phase, hpc, H.1] using .compute
  | verdict v player hpc hv => simpa [Gm.phase, hpc] using .verdict v hv
  | gameEnd hpc => simpa [Gm.phase, hpc] using .close

namespace Match

/-- The player has handled nothing that ends its loop. -/
def Fresh (handled : List Cmd) : Prop := ∀ c ∈ handled, ¬c.IsVerdict ∧ c ≠ .GAME_END

def Quiet (cmds : List Cmd) : Prop := ∀ c ∈ cmds, c = .GAME_START

/-- The player waits for a command, or is about to. -/
structure Listening (m : Match) : Prop where
  pc : m.player.pc = .loop
  going : m.player.game_over = false
  fresh : Fresh m.handled

/-- No prompt and no move is on its way. -/
structure Idle (m : Match) : Prop where
  listening : m.Listening
  quiet : Quiet m.toPlayer
  toGm : m.toGm = []

/-- The prompt, or the move that answers it, is at one place. -/
inductive Asked (m : Match) : Prop where
  | prompted (cmds : List Cmd) (c : Cmd) (hlisten : m.Listening) (hcmds : m.toPlayer = cmds ++ [c])
    (hquiet : Quiet cmds) (hc : c.IsPrompt) (htoGm : m.toGm = [])
  | typing (hpc : m.player.pc ≠ .loop) (hgoing : m.player.game_over = false)
    (hfresh : Fresh m.handled) (hcmds : m.toPlayer = []) (htoGm : m.toGm = [])
  | replied (move : Int) (hlisten : m.Listening) (hcmds : m.toPlayer = []) (htoGm : m.toGm = [move])

/-- The verdict, with what follows it, has been sent, or has ended the player's loop. -/
inductive Told (rest : List Cmd) (m : Match) : Prop where
  | pending (cmds : List Cmd) (v : Cmd) (hlisten : m.Listening)
    (hcmds : m.toPlayer = cmds ++ v :: rest) (hquiet : Quiet cmds) (hv : v.IsVerdict)
    (htoGm : m.toGm = [])
  | left (handled : List Cmd) (v : Cmd) (hpc : m.player.pc = .loop)
    (hover : m.player.game_over = true) (hhandled : m.handled = handled ++ [v])
    (hfresh : Fresh handled) (hv : v.IsVerdict) (hcmds : m.toPlayer = rest) (htoGm : m.toGm = [])

/-- The player and the channels are where the game manager needs them. -/
def Agrees (m : Match) : Phase → Prop
  | .busy => m.Idle
  | .asking => m.Asked
  | .ended => m.Told []
  | .closed => m.Told [.GAME_END]

structure Ok (hd : Header) (m : Match) : Prop where
  gm : m.gm.Ok hd
  agrees : m.Agrees m.gm.phase

section
variable {hd : Header} {m m' : Match} {gm' : Gm} {rest : List Cmd}

/-! ## Steps of the game manager -/

/-- The effect of a step of the game manager on the channels. -/
inductive Effect (m : Match) (gm' : Gm) : Label Cmd Int → Match → Prop where
  | send (cmd : Cmd) :
    Effect m gm' (.send cmd) { m with gm := gm', toPlayer := m.toPlayer ++ [cmd] }
  | get (move : Int) (moves : List Int) (htoGm : m.toGm = move :: moves) :
    Effect m gm' (.get move) { m with gm := gm', toGm := moves }
  | tau : Effect m gm' .tau { m with gm := gm' }

theorem gmStep_cases (H : m.gm.Ok hd) (h : m.gmStep hd = some m') :
    ∃ l gm', Gm.Step hd m.gm l gm' ∧ Effect m gm' l m' := by
  rw [gmStep] at h
  cases hnext : game_manager hd m.gm with
  | send cmd gm' =>
    simp only [hnext, Option.some.injEq] at h
    subst h
    exact ⟨.send cmd, gm', H.step (by simp [hnext]), .send cmd⟩
  | get k =>
    simp only [hnext] at h
    cases htoGm : m.toGm with
    | nil => simp [htoGm] at h
    | cons move moves =>
      simp only [htoGm, Option.some.injEq] at h
      subst h
      exact ⟨.get move, k move, H.step (by simp [hnext]), .get move moves htoGm⟩
  | goto gm' =>
    simp only [hnext, Option.some.injEq] at h
    subst h
    exact ⟨.tau, gm', H.step (by simp [hnext]), .tau⟩
  | undefined => simp [hnext] at h
  | exit => simp [hnext] at h

theorem Effect.gm {l : Label Cmd Int} (h : Effect m gm' l m') : m'.gm = gm' := by
  cases h <;> rfl

theorem Effect.agrees {l : Label Cmd Int} {p p' : Phase} (h : Effect m gm' l m')
    (hp : Phase.Step p l p') (H : m.Agrees p) : m'.Agrees p' := by
  cases hp with
  | compute =>
    cases h
    exact ⟨⟨H.listening.pc, H.listening.going, H.listening.fresh⟩, H.quiet, H.toGm⟩
  | start =>
    cases h
    refine ⟨⟨H.listening.pc, H.listening.going, H.listening.fresh⟩, fun c hc => ?_, H.toGm⟩
    rcases List.mem_append.mp hc with hc | hc
    · exact H.quiet c hc
    · exact List.mem_singleton.mp hc
  | prompt c hc =>
    cases h
    exact .prompted m.toPlayer c ⟨H.listening.pc, H.listening.going, H.listening.fresh⟩ rfl
      H.quiet hc H.toGm
  | receive move =>
    cases h with
    | get _ moves hmoves =>
      cases H with
      | prompted _ _ _ _ _ _ htoGm => exact nomatch htoGm.symm.trans hmoves
      | typing _ _ _ _ htoGm => exact nomatch htoGm.symm.trans hmoves
      | replied _ hlisten hcmds htoGm =>
        obtain ⟨-, rfl⟩ := List.cons.inj (hmoves.symm.trans htoGm)
        refine ⟨⟨hlisten.pc, hlisten.going, hlisten.fresh⟩, fun c hc => ?_, rfl⟩
        exact nomatch (hcmds ▸ hc : c ∈ [])
  | verdict v hv =>
    cases h
    exact .pending m.toPlayer v ⟨H.listening.pc, H.listening.going, H.listening.fresh⟩ rfl
      H.quiet hv H.toGm
  | leave =>
    cases h
    cases H with
    | pending cmds v hlisten hcmds hquiet hv htoGm =>
      exact .pending cmds v ⟨hlisten.pc, hlisten.going, hlisten.fresh⟩ hcmds hquiet hv htoGm
    | left handled v hpc hover hhandled hfresh hv hcmds htoGm =>
      exact .left handled v hpc hover hhandled hfresh hv hcmds htoGm
  | close =>
    cases h
    cases H with
    | pending cmds v hlisten hcmds hquiet hv htoGm =>
      exact .pending cmds v ⟨hlisten.pc, hlisten.going, hlisten.fresh⟩ (by simp [hcmds]) hquiet hv
        htoGm
    | left handled v hpc hover hhandled hfresh hv hcmds htoGm =>
      exact .left handled v hpc hover hhandled hfresh hv (by simp [hcmds]) htoGm

/-! ## Steps of the player -/

/-- What the player reads. -/
inductive PlayerStep (m : Match) : Match → Prop where
  | read (cmd : Cmd) (cmds : List Cmd) (hpc : m.player.pc = .loop)
    (hgoing : m.player.game_over = false) (hcmds : m.toPlayer = cmd :: cmds) :
    PlayerStep m { m with
      player := m.player.handle cmd
      toPlayer := cmds
      handled := m.handled ++ [cmd] }
  | send (hpc : m.player.pc = .sendCmd) :
    PlayerStep m { m with
      player := { m.player with pc := .loop }
      toGm := m.toGm ++ [m.player.pending_move] }

theorem playerStep_cases (h : m.playerStep = some m') : m.PlayerStep m' := by
  rw [playerStep] at h
  cases hpc : m.player.pc with
  | loop =>
    simp only [hpc, Option.ite_none_left_eq_some, Bool.not_eq_true] at h
    obtain ⟨hgoing, h⟩ := h
    cases hcmds : m.toPlayer with
    | nil => simp [hcmds] at h
    | cons cmd cmds =>
      simp only [hcmds, Option.some.injEq] at h
      subst h
      exact .read cmd cmds hpc hgoing hcmds
  | inputMove => simp [hpc] at h
  | sendCmd =>
    simp only [hpc, Option.some.injEq] at h
    subst h
    exact .send hpc

theorem Fresh.append {handled : List Cmd} {c : Cmd} (h : Fresh handled) (hv : ¬c.IsVerdict)
    (hend : c ≠ .GAME_END) : Fresh (handled ++ [c]) := by
  intro d hd
  rcases List.mem_append.mp hd with hd | hd
  · exact h d hd
  · exact List.mem_singleton.mp hd ▸ ⟨hv, hend⟩

/-- After `GAME_START` the player is back where it was. -/
theorem Listening.gameStart {cmds : List Cmd} (H : m.Listening) :
    Listening { m with
      player := m.player.handle .GAME_START
      toPlayer := cmds
      handled := m.handled ++ [.GAME_START] } :=
  ⟨H.pc, rfl, H.fresh.append (by decide) (by decide)⟩

theorem Told.read {cmd : Cmd} {cmds : List Cmd} (H : m.Told rest)
    (hgoing : m.player.game_over = false) (hread : m.toPlayer = cmd :: cmds) :
    Told rest { m with
      player := m.player.handle cmd
      toPlayer := cmds
      handled := m.handled ++ [cmd] } := by
  cases H with
  | pending l v hlisten hcmds hquiet hv htoGm =>
    cases l with
    | nil =>
      obtain ⟨rfl, rfl⟩ := List.cons.inj (hread.symm.trans hcmds)
      refine .left m.handled cmd ?_ ?_ rfl hlisten.fresh hv rfl htoGm
      · obtain rfl | rfl | rfl := hv <;> exact hlisten.pc
      · obtain rfl | rfl | rfl := hv <;> rfl
    | cons c l =>
      obtain ⟨rfl, rfl⟩ := List.cons.inj (hread.symm.trans hcmds)
      obtain rfl := hquiet cmd (List.mem_cons_self ..)
      exact .pending l v hlisten.gameStart rfl (fun d hd => hquiet d (List.mem_cons_of_mem _ hd))
        hv htoGm
  | left _ _ _ hover => exact absurd (hgoing.symm.trans hover) nofun

theorem PlayerStep.agrees {p : Phase} (h : m.PlayerStep m') (H : m.Agrees p) : m'.Agrees p := by
  cases h with
  | read cmd cmds hpc hgoing hread =>
    cases p with
    | busy =>
      obtain rfl := H.quiet cmd (hread ▸ List.mem_cons_self ..)
      exact ⟨H.listening.gameStart, fun d hd => H.quiet d (hread ▸ List.mem_cons_of_mem _ hd),
        H.toGm⟩
    | asking =>
      cases H with
      | prompted l c hlisten hcmds hquiet hc htoGm =>
        cases l with
        | nil =>
          obtain ⟨rfl, rfl⟩ := List.cons.inj (hread.symm.trans hcmds)
          obtain rfl | rfl := hc
          · exact .typing nofun hgoing (hlisten.fresh.append (by decide) (by decide)) rfl htoGm
          · exact .typing nofun hgoing (hlisten.fresh.append (by decide) (by decide)) rfl htoGm
        | cons d l =>
          obtain ⟨rfl, rfl⟩ := List.cons.inj (hread.symm.trans hcmds)
          obtain rfl := hquiet cmd (List.mem_cons_self ..)
          exact .prompted l c hlisten.gameStart rfl
            (fun e he => hquiet e (List.mem_cons_of_mem _ he)) hc htoGm
      | typing hne => exact absurd hpc hne
      | replied _ _ hcmds => exact nomatch hread.symm.trans hcmds
    | ended => exact Told.read H hgoing hread
    | closed => exact Told.read H hgoing hread
  | send hpc =>
    cases p with
    | busy => exact absurd (H.listening.pc.symm.trans hpc) nofun
    | asking =>
      cases H with
      | prompted _ _ hlisten => exact absurd (hlisten.pc.symm.trans hpc) nofun
      | typing hne hgoing hfresh hcmds htoGm =>
        exact .replied m.player.pending_move ⟨rfl, hgoing, hfresh⟩ hcmds (by simp [htoGm])
      | replied _ hlisten => exact absurd (hlisten.pc.symm.trans hpc) nofun
    | _ =>
      cases H with
      | pending _ _ hlisten => exact absurd (hlisten.pc.symm.trans hpc) nofun
      | left _ _ hloop => exact absurd (hloop.symm.trans hpc) nofun

theorem agrees_typed {p : Phase} {cell : Fin GRID_SIZE} (hpc : m.player.pc = .inputMove)
    (H : m.Agrees p) :
    Agrees { m with player := { m.player with pending_move := cell, pc := .sendCmd } } p := by
  cases p with
  | busy => exact absurd (H.listening.pc.symm.trans hpc) nofun
  | asking =>
    cases H with
    | prompted _ _ hlisten => exact absurd (hlisten.pc.symm.trans hpc) nofun
    | typing hne hgoing hfresh hcmds htoGm => exact .typing nofun hgoing hfresh hcmds htoGm
    | replied _ hlisten => exact absurd (hlisten.pc.symm.trans hpc) nofun
  | _ =>
    cases H with
    | pending _ _ hlisten => exact absurd (hlisten.pc.symm.trans hpc) nofun
    | left _ _ hloop => exact absurd (hloop.symm.trans hpc) nofun

/-! ## Runs -/

theorem Ok.init (hd : Header) : (init hd).Ok hd :=
  ⟨init_game_ok hd, ⟨rfl, rfl, nofun⟩, nofun, rfl⟩

theorem PlayerStep.gm (h : m.PlayerStep m') : m'.gm = m.gm := by
  cases h <;> rfl

theorem Ok.step {e : Event} (H : m.Ok hd) (h : step hd m e = some m') : m'.Ok hd := by
  cases e with
  | gm =>
    obtain ⟨l, gm', hstep, heffect⟩ := gmStep_cases H.gm h
    have hagrees := heffect.agrees (hstep.phase H.gm) H.agrees
    rw [← heffect.gm] at hstep hagrees
    exact ⟨hstep.ok H.gm, hagrees⟩
  | player =>
    have hstep := playerStep_cases h
    refine ⟨hstep.gm ▸ H.gm, ?_⟩
    rw [hstep.gm]
    exact hstep.agrees H.agrees
  | typed cell =>
    obtain ⟨hpc, rfl⟩ : m.player.pc = .inputMove ∧
        { m with player := { m.player with pending_move := cell, pc := .sendCmd } } = m' := by
      simpa [Match.step] using h
    exact ⟨H.gm, agrees_typed hpc H.agrees⟩

theorem Ok.run {events : List Event} (H : m.Ok hd) (h : run hd m events = some m') : m'.Ok hd := by
  induction events generalizing m with
  | nil =>
    cases h
    exact H
  | cons e events ih =>
    rw [Match.run, List.foldlM_cons] at h
    obtain ⟨t, ht, h⟩ := Option.bind_eq_some_iff.mp h
    exact ih (H.step ht) h

/-- The game manager stops only in `gm_get_cmd` and at its end. -/
theorem gmStep_isSome (H : m.gm.Ok hd) (hget : m.gm.pc ≠ .getCmd) (hret : m.gm.pc ≠ .returned) :
    (m.gmStep hd).isSome := by
  rw [gmStep]
  cases hnext : game_manager hd m.gm with
  | send cmd gm' => rfl
  | goto gm' => rfl
  | undefined => exact absurd hnext H.defined
  | get k =>
    have htake : (game_manager hd m.gm).take (.get 0) = some (k 0) := by simp [hnext]
    exact absurd (H.step htake).pc_of_get hget
  | exit =>
    rw [game_manager] at hnext
    cases hpc : m.gm.pc with
    | returned => exact absurd hpc hret
    | checkState =>
      rw [hpc] at hnext
      simp only [check_game_state] at hnext
      split at hnext <;> cases hnext
    | _ =>
      rw [hpc] at hnext
      simp only at hnext
      first
        | cases hnext
        | split at hnext <;> cases hnext

/-- The moves that are being typed or on their way. -/
def moves (m : Match) : Nat := m.toGm.length + if m.player.pc = .loop then 0 else 1

/-- Blocked in `gm_get_cmd`. -/
def GmWaits (m : Match) : Prop := m.gm.pc = .getCmd ∧ m.toGm = []

/-- Blocked in `player_get_cmd`. -/
def PlayerWaits (m : Match) : Prop :=
  m.player.pc = .loop ∧ m.player.game_over = false ∧ m.toPlayer = []

theorem Listening.moves (h : m.Listening) : m.moves = m.toGm.length := by
  simp [Match.moves, h.pc]

theorem Told.moves (h : m.Told rest) : m.moves = 0 := by
  cases h with
  | pending _ _ hlisten _ _ _ htoGm => simp [hlisten.moves, htoGm]
  | left _ _ hpc _ _ _ _ _ htoGm => simp [Match.moves, hpc, htoGm]

theorem Asked.moves_le (h : m.Asked) : m.moves ≤ 1 := by
  cases h with
  | prompted _ _ hlisten _ _ _ htoGm => simp [hlisten.moves, htoGm]
  | typing hpc _ _ _ htoGm => simp [Match.moves, hpc, htoGm]
  | replied _ hlisten _ htoGm => simp [hlisten.moves, htoGm]

theorem Asked.not_waits (h : m.Asked) (hgm : m.GmWaits) (hplayer : m.PlayerWaits) : False := by
  obtain ⟨hpc, -, hempty⟩ := hplayer
  cases h with
  | prompted cmds c _ hcmds => simp [hcmds] at hempty
  | typing hne => exact hne hpc
  | replied _ _ _ htoGm => exact nomatch hgm.2.symm.trans htoGm

end

/-- What holds in every state of a match. -/
structure InTurn (hd : Header) (m : Match) : Prop where
  one : m.moves ≤ 1
  awaited : 0 < m.moves → m.gm.pc = .getCmd
  waits : ¬(m.GmWaits ∧ m.PlayerWaits)
  /-- Without a step left, both processes are at their ends. -/
  halted : (∀ e, step hd m e = none) → m.gm.pc = .returned ∧ m.player.game_over = true
  left : m.player.game_over = true →
    ∃ handled v, m.handled = handled ++ [v] ∧ v.IsVerdict ∧ Fresh handled
  not_gameEnd : .GAME_END ∉ m.handled
  read : m.gm.pc = .gameEnd ∨ m.gm.pc = .returned → m.moves = 0

section
variable {hd : Header} {m : Match}

theorem Ok.asked (H : m.Ok hd) (hpc : m.gm.pc = .getCmd) : m.Asked := by
  have hagrees := H.agrees
  rwa [Gm.phase, hpc] at hagrees

theorem Ok.moves (H : m.Ok hd) (hpc : m.gm.pc ≠ .getCmd) : m.moves = 0 := by
  have hagrees := H.agrees
  cases hphase : m.gm.phase with
  | busy =>
    rw [hphase] at hagrees
    simp [hagrees.listening.moves, hagrees.toGm]
  | asking => exact absurd (Gm.pc_of_asking hphase) hpc
  | _ =>
    rw [hphase] at hagrees
    exact Told.moves hagrees

/-- What the player has handled, whatever the game manager does. -/
theorem Ok.handled (H : m.Ok hd) :
    m.player.game_over = false ∧ Fresh m.handled ∨
      m.player.game_over = true ∧
        ∃ handled v, m.handled = handled ++ [v] ∧ v.IsVerdict ∧ Fresh handled := by
  have hagrees := H.agrees
  cases hphase : m.gm.phase <;> rw [hphase] at hagrees
  case busy => exact .inl ⟨hagrees.listening.going, hagrees.listening.fresh⟩
  case asking =>
    cases hagrees with
    | prompted _ _ hlisten | replied _ hlisten => exact .inl ⟨hlisten.going, hlisten.fresh⟩
    | typing _ hgoing hfresh => exact .inl ⟨hgoing, hfresh⟩
  all_goals
    cases hagrees with
    | pending _ _ hlisten => exact .inl ⟨hlisten.going, hlisten.fresh⟩
    | left handled v _ hover hhandled hfresh hv =>
      exact .inr ⟨hover, handled, v, hhandled, hv, hfresh⟩

theorem playerStep_isSome (hpc : m.player.pc = .loop) (hgoing : m.player.game_over = false)
    {cmd : Cmd} {cmds : List Cmd} (hcmds : m.toPlayer = cmd :: cmds) : m.playerStep.isSome := by
  simp [playerStep, hpc, hgoing, hcmds]

theorem Ok.halted (H : m.Ok hd) (h : ∀ e, Match.step hd m e = none) :
    m.gm.pc = .returned ∧ m.player.game_over = true := by
  have hgm : m.gmStep hd = none := h .gm
  have hplayer : m.playerStep = none := h .player
  by_cases hget : m.gm.pc = .getCmd
  · cases H.asked hget with
    | prompted cmds c hlisten hcmds =>
      obtain ⟨d, l, hl⟩ := List.exists_cons_of_ne_nil (hcmds ▸ by simp : m.toPlayer ≠ [])
      have := playerStep_isSome hlisten.pc hlisten.going hl
      simp [hplayer] at this
    | typing hne =>
      cases hpc : m.player.pc with
      | loop => exact absurd hpc hne
      | inputMove => simpa [Match.step, hpc] using h (.typed 0)
      | sendCmd => simp [playerStep, hpc] at hplayer
    | replied move _ _ htoGm => simp [gmStep, game_manager, hget, htoGm] at hgm
  by_cases hret : m.gm.pc = .returned
  · refine ⟨hret, ?_⟩
    have hagrees := H.agrees
    rw [Gm.phase, hret] at hagrees
    cases hagrees with
    | pending cmds v hlisten hcmds =>
      obtain ⟨d, l, hl⟩ := List.exists_cons_of_ne_nil (hcmds ▸ by simp : m.toPlayer ≠ [])
      have := playerStep_isSome hlisten.pc hlisten.going hl
      simp [hplayer] at this
    | left _ _ _ hover => exact hover
  · have := gmStep_isSome H.gm hget hret
    simp [hgm] at this

end

/-- The game manager and the player agree on whose turn it is, whatever the user types. -/
theorem run_inTurn (hd : Header) (events : List Event) (m : Match)
    (h : run hd (init hd) events = some m) : m.InTurn hd := by
  have H := (Ok.init hd).run h
  refine ⟨?_, fun hmoves => ?_, fun hwaits => ?_, H.halted, fun hover => ?_, fun hend => ?_,
    fun hpc => ?_⟩
  · by_cases hpc : m.gm.pc = .getCmd
    · exact (H.asked hpc).moves_le
    · exact (H.moves hpc).trans_le zero_le_one
  · exact not_not.mp fun hpc => hmoves.ne' (H.moves hpc)
  · exact (H.asked hwaits.1.1).not_waits hwaits.1 hwaits.2
  · rcases H.handled with ⟨hgoing, -⟩ | ⟨-, hleft⟩
    · exact absurd (hgoing.symm.trans hover) nofun
    · exact hleft
  · rcases H.handled with ⟨-, hfresh⟩ | ⟨-, handled, v, hhandled, hv, hfresh⟩
    · exact (hfresh _ hend).2 rfl
    · rw [hhandled] at hend
      rcases List.mem_append.mp hend with hend | hend
      · exact (hfresh _ hend).2 rfl
      · exact absurd (List.mem_singleton.mp hend ▸ hv) (by decide)
  · refine H.moves fun hget => ?_
    rcases hpc with hpc | hpc <;> exact absurd (hget.symm.trans hpc) nofun

/-- The player's first move, from the prompt to the game manager. -/
theorem run_inTurn_first :
    ∃ m, run standardHeader (init standardHeader)
        [.gm, .gm, .gm, .player, .player, .typed 4, .player] = some m ∧
      m.toGm = [4] ∧ m.InTurn standardHeader := by
  obtain ⟨m, hm⟩ : ∃ m, run standardHeader (init standardHeader)
      [.gm, .gm, .gm, .player, .player, .typed 4, .player] = some m := ⟨_, rfl⟩
  have h := run_inTurn standardHeader _ m hm
  obtain rfl := Option.some.inj hm
  exact ⟨_, rfl, rfl, h⟩

end Match
end SyeLabs.Tictactoe
