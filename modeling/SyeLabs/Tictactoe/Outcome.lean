import SyeLabs.Theory.Schedules
import SyeLabs.Tictactoe.Match

/-!
# How a match ends

What the player is told is true of the grid of the game manager, every cell that was typed has
been answered, the match ends, and its end does not depend on how the two processes are scheduled.
-/

namespace SyeLabs.Tictactoe
open SyeLabs.Process SyeLabs.Schedules

/-- The cell that the user types in an event. -/
def Event.cell? : Event → Option (Fin GRID_SIZE)
  | .typed cell => some cell
  | _ => none

/-- The event comes from the user. -/
def Event.isInput (e : Event) : Bool := e.cell?.isSome

/-- The cells that the user types, in order. -/
def typedCells (events : List Event) : List (Fin GRID_SIZE) := events.filterMap Event.cell?

namespace Match

section
variable {hd : Header} {m m' : Match} {events : List Event}

theorem run_append_singleton {e : Event} : run hd m (events ++ [e]) = some m' ↔
    ∃ t, run hd m events = some t ∧ step hd t e = some m' := by
  rw [run, List.foldlM_append, Option.bind_eq_bind, Option.bind_eq_some_iff]
  simp [run]

/-! ## The verdict -/

/-- All commands that the game manager has sent. -/
def sent (m : Match) : List Cmd := m.handled ++ m.toPlayer

/-- A verdict that was sent is right about the grid. -/
def Truthful (hd : Header) (m : Match) : Prop :=
  ∀ v ∈ m.sent, v.IsVerdict → m.gm.game_over = true ∧ Matches hd m.gm.grid v

theorem PlayerStep.sent (h : m.PlayerStep m') : m'.sent = m.sent := by
  cases h with
  | read cmd cmds hpc hgoing hcmds => simp [Match.sent, hcmds]
  | send hpc => rfl

end
end Match

/-- The game is decided, and stays so. -/
theorem Gm.Step.decided {hd : Header} {gm gm' : Gm} {l : Label Cmd Int}
    (h : Gm.Step hd gm l gm') (H : gm.Ok hd) (hover : gm.game_over = true) :
    gm'.game_over = true ∧ gm'.grid = gm.grid := by
  rcases h.of_over hover H with ⟨-, rfl, -⟩ | ⟨-, rfl, -⟩
  · exact ⟨hover, rfl⟩
  · exact ⟨hover, rfl⟩

theorem Gm.Step.of_verdict {hd : Header} {gm gm' : Gm} {v : Cmd}
    (h : Gm.Step hd gm (.send v) gm') (H : gm.Ok hd) (hv : v.IsVerdict) :
    gm'.game_over = true ∧ Matches hd gm'.grid v := by
  cases h with
  | verdict _ player hpc _ hmatches =>
    rw [Gm.Ok, hpc] at H
    exact ⟨rfl, hmatches H.2⟩
  | gameStart | youCanPlay | rejected | gameEnd => exact absurd hv (by decide)

namespace Match

section
variable {hd : Header} {m m' : Match} {gm' : Gm} {l : Label Cmd Int} {e : Event}
  {cells : List (Fin GRID_SIZE)}

theorem Effect.mem_sent {c : Cmd} (h : Effect m gm' l m') (hc : c ∈ m'.sent) :
    c ∈ m.sent ∨ l = .send c := by
  cases h with
  | send cmd =>
    rw [sent, ← List.append_assoc] at hc
    rcases List.mem_append.mp hc with hc | hc
    · exact .inl hc
    · exact .inr (congrArg _ (List.mem_singleton.mp hc).symm)
  | get move moves htoGm => exact .inl hc
  | tau => exact .inl hc

theorem Truthful.gm (H : m.Truthful hd) (hok : m.gm.Ok hd) (hstep : Gm.Step hd m.gm l gm')
    (h : Effect m gm' l m') : m'.Truthful hd := by
  intro v hv hverdict
  rw [h.gm]
  rcases h.mem_sent hv with hv | rfl
  · obtain ⟨hover, hmatches⟩ := H v hv hverdict
    obtain ⟨hover', hgrid⟩ := hstep.decided hok hover
    exact ⟨hover', hgrid ▸ hmatches⟩
  · exact hstep.of_verdict hok hverdict

/-! ## The answers -/

/-- The moves on their way from the keyboard into the grid. -/
def inFlight (m : Match) : List Int :=
  m.toGm ++ (if m.player.pc = .sendCmd then [m.player.pending_move] else []) ++
    match m.gm.pc with
    | .playersMove move => [move]
    | _ => []

/-- The rejections that were sent or are about to be. -/
def rejections (m : Match) : Nat :=
  m.sent.count .MOVE_REJECTED + if m.gm.pc = .rejected then 1 else 0

/-- Each cell of `cells` was marked or rejected, or is on its way. -/
structure Accounts (hd : Header) (m : Match) (cells : List (Fin GRID_SIZE)) : Prop where
  count : cells.length = m.inFlight.length + m.gm.grid.marks hd.PLAYER_ID + m.rejections
  marked : ∀ i : Fin GRID_SIZE, m.gm.grid i = hd.PLAYER_ID → i ∈ cells
  source : ∀ move ∈ m.inFlight, ∃ i ∈ cells, (i : Int) = move
  answered : ∀ i ∈ cells, (i : Int) ∈ m.inFlight ∨ m.gm.grid i ≠ EMPTY_ID

theorem Accounts.of_perm (A : m.Accounts hd cells) (hflight : m'.inFlight.Perm m.inFlight)
    (hgrid : m'.gm.grid = m.gm.grid) (hrej : m'.rejections = m.rejections) :
    m'.Accounts hd cells where
  count := by rw [hflight.length_eq, hgrid, hrej, A.count]
  marked := hgrid ▸ A.marked
  source move hmove := A.source move (hflight.mem_iff.mp hmove)
  answered i hi := by
    rw [hflight.mem_iff, hgrid]
    exact A.answered i hi

/-- A move is read and rejected. -/
theorem Accounts.illegal {move : Int} (A : m.Accounts hd cells)
    (hflight : m.inFlight = move :: m'.inFlight) (hgrid : m'.gm.grid = m.gm.grid)
    (hrej : m'.rejections = m.rejections + 1) (hmove : Illegal m.gm.grid move) :
    m'.Accounts hd cells where
  count := by
    rw [A.count, hflight, hgrid, hrej, List.length_cons]
    omega
  marked := hgrid ▸ A.marked
  source move' h := A.source move' (hflight ▸ List.mem_cons_of_mem _ h)
  answered i hi := by
    rw [hgrid]
    rcases A.answered i hi with h | h
    · rcases List.mem_cons.mp (hflight ▸ h) with rfl | h
      · rcases hmove with h | h | ⟨j, hj, hne⟩
        · omega
        · omega
        · exact .inr (Fin.ext (by exact_mod_cast hj) ▸ hne)
      · exact .inl h
    · exact .inr h

/-- A move is marked. -/
theorem Accounts.mark {i : Fin GRID_SIZE} (A : m.Accounts hd cells)
    (hflight : m.inFlight.Perm ((i : Int) :: m'.inFlight)) (hi : m.gm.grid i = EMPTY_ID)
    (hgrid : m'.gm.grid = Function.update m.gm.grid i hd.PLAYER_ID)
    (hrej : m'.rejections = m.rejections) : m'.Accounts hd cells where
  count := by
    rw [A.count, hflight.length_eq, hgrid, hrej, Grid.marks_update_self hi hd.player_ne_zero,
      List.length_cons]
    omega
  marked j hj := by
    by_cases hji : j = i
    · obtain ⟨k, hk, hki⟩ := A.source i (hflight.mem_iff.mpr List.mem_cons_self)
      obtain rfl : k = i := Fin.ext (by exact_mod_cast hki)
      exact hji ▸ hk
    · rw [hgrid, Function.update_of_ne hji] at hj
      exact A.marked j hj
  source move h := A.source move (hflight.mem_iff.mpr (List.mem_cons_of_mem _ h))
  answered j hj := by
    rw [hgrid]
    by_cases hji : j = i
    · rw [hji, Function.update_self]
      exact .inr hd.player_ne_zero
    · rw [Function.update_of_ne hji]
      refine (A.answered j hj).imp_left fun h => ?_
      refine (List.mem_cons.mp (hflight.mem_iff.mp h)).resolve_left fun heq => hji ?_
      exact Fin.ext (by exact_mod_cast heq)

theorem Accounts.computer {i : Fin GRID_SIZE} (A : m.Accounts hd cells)
    (hflight : m'.inFlight = m.inFlight) (hi : m.gm.grid i = EMPTY_ID)
    (hgrid : m'.gm.grid = Function.update m.gm.grid i hd.AI_ID)
    (hrej : m'.rejections = m.rejections) : m'.Accounts hd cells where
  count := by
    rw [A.count, hflight, hgrid, hrej,
      Grid.marks_update_of_ne hi hd.player_ne_zero hd.ai_ne_player]
  marked j hj := by
    by_cases hji : j = i
    · rw [hgrid, hji, Function.update_self] at hj
      exact absurd hj hd.ai_ne_player
    · rw [hgrid, Function.update_of_ne hji] at hj
      exact A.marked j hj
  source := hflight ▸ A.source
  answered j hj := by
    rw [hflight, hgrid]
    refine (A.answered j hj).imp_right fun h => ?_
    have hji : j ≠ i := fun heq => h (heq ▸ hi)
    rwa [Function.update_of_ne hji]

theorem Accounts.gm (A : m.Accounts hd cells) (H : m.gm.Ok hd) (hstep : Gm.Step hd m.gm l gm')
    (h : Effect m gm' l m') : m'.Accounts hd cells := by
  cases hstep with
  | illegal move hpc hmove =>
    cases h with
    | get _ moves htoGm =>
      refine A.illegal ?_ rfl ?_ hmove
      · simp [inFlight, htoGm, hpc]
      · simp [rejections, hpc, sent]
  | legal i hpc hi =>
    cases h with
    | get _ moves htoGm =>
      refine A.of_perm ?_ rfl ?_
      · simp only [inFlight, htoGm, hpc, List.append_nil]
        exact List.perm_append_singleton _ _
      · simp [rejections, hpc, sent]
  | playersMove i hpc =>
    cases h
    rw [Gm.Ok, hpc] at H
    obtain ⟨-, -, j, hji, hj⟩ := H
    obtain rfl : j = i := Fin.ext (by exact_mod_cast hji)
    refine A.mark ?_ hj rfl ?_
    · simp only [inFlight, hpc, List.append_nil]
      exact List.perm_append_singleton _ _
    · simp [rejections, hpc, sent]
  | computersTurn i hpc hi =>
    cases h
    refine A.computer ?_ hi rfl ?_
    · simp [inFlight, hpc]
    · simp [rejections, hpc, sent]
  | rejected hpc =>
    cases h
    refine A.of_perm ?_ rfl ?_
    · simp [inFlight, hpc]
    · simp only [rejections, hpc, sent, List.count_append, List.count_singleton_self, if_true]
      rfl
  | verdict v player hpc hv =>
    cases h
    have hne : v ≠ .MOVE_REJECTED := by
      rintro rfl
      exact absurd hv (by decide)
    refine A.of_perm ?_ rfl ?_
    · simp [inFlight, hpc]
    · simp [rejections, hpc, sent, List.count_append, hne]
  | _ hpc =>
    cases h
    refine A.of_perm ?_ rfl ?_
    · simp [inFlight, hpc]
    · simp [rejections, hpc, sent, List.count_append]

theorem Accounts.player (A : m.Accounts hd cells) (h : m.PlayerStep m') :
    m'.Accounts hd cells := by
  refine A.of_perm ?_ (congrArg Gm.grid h.gm) (by rw [rejections, h.sent, h.gm]; rfl)
  cases h with
  | read cmd cmds hpc =>
    cases cmd <;> simp [inFlight, Player.handle, hpc]
  | send hpc => simp [inFlight, hpc]

theorem Accounts.typed {cell : Fin GRID_SIZE} (A : m.Accounts hd cells)
    (hpc : m.player.pc = .inputMove) :
    Accounts hd { m with player := { m.player with pending_move := cell, pc := .sendCmd } }
      (cells ++ [cell]) := by
  have hflight : (inFlight { m with
      player := { m.player with pending_move := cell, pc := .sendCmd } }).Perm
        ((cell : Int) :: m.inFlight) := by
    simp only [inFlight, hpc, if_pos, reduceCtorEq, if_false, List.append_nil, List.append_assoc]
    exact List.perm_middle
  refine ⟨?_, fun i hi => List.mem_append_left _ (A.marked i hi), fun move hmove => ?_,
    fun i hi => ?_⟩
  · rw [hflight.length_eq, List.length_append, A.count]
    change _ = _ + _ + m.rejections
    simp only [List.length_cons, List.length_nil]
    omega
  · rcases List.mem_cons.mp (hflight.mem_iff.mp hmove) with rfl | hmove
    · exact ⟨cell, by simp, rfl⟩
    · obtain ⟨i, hi, h⟩ := A.source move hmove
      exact ⟨i, List.mem_append_left _ hi, h⟩
  · rw [hflight.mem_iff]
    rcases List.mem_append.mp hi with hi | hi
    · exact (A.answered i hi).imp_left (List.mem_cons_of_mem _)
    · obtain rfl := List.mem_singleton.mp hi
      exact .inl List.mem_cons_self

end

/-! ## Termination -/

/-- The steps that the game manager can still make without input. -/
def gmWeight (hd : Header) (gm : Gm) : ℕ :=
  match gm.pc with
  | .returned => 0
  | .gameEnd => 2
  | .loop => if gm.game_over then 3 else if gm.player = hd.PLAYER_ID then 4 else 7
  | .youCanPlay => 3
  | .getCmd => 1
  | .rejected => 3
  | .playersMove _ => 9
  | .computersTurn => 6
  | .checkState => if gm.player = hd.PLAYER_ID then 8 else 5
  | .gameStart => 9

def weight (hd : Header) (m : Match) : ℕ :=
  gmWeight hd m.gm + m.toPlayer.length + 9 * m.toGm.length +
    if m.player.pc = .sendCmd then 10 else 0

section
variable {hd : Header} {m m' : Match} {gm' : Gm} {l : Label Cmd Int} {e : Event}

theorem Effect.weight_lt (h : Effect m gm' l m') (H : m.gm.Ok hd) (hstep : Gm.Step hd m.gm l gm') :
    m'.weight hd < m.weight hd := by
  rw [Gm.Ok] at H
  cases hstep with
  | illegal move hpc | legal i hpc =>
    cases h with
    | get _ moves htoGm =>
      simp only [weight, gmWeight, hpc, htoGm, List.length_cons]
      omega
  | game_over hpc hover =>
    cases h
    simp [weight, gmWeight, hpc, hover]
  | player hpc hover hplayer | computer hpc hover hplayer =>
    cases h
    simp [weight, gmWeight, hpc, hover, hplayer]
  | playersMove i hpc =>
    rw [hpc] at H
    cases h
    simp [weight, gmWeight, hpc, H.2.1]
  | computersTurn i hpc =>
    rw [hpc] at H
    cases h
    simp [weight, gmWeight, hpc, H.2, hd.ai_ne_player]
  | progress hpc =>
    rw [hpc] at H
    cases h
    by_cases hplayer : m.gm.player = hd.PLAYER_ID
    · simp [weight, gmWeight, hpc, H.1, hplayer, hd.ai_ne_player]
    · simp [weight, gmWeight, hpc, H.1, hplayer]
  | verdict v player hpc =>
    cases h
    simp only [weight, gmWeight, hpc, List.length_append, List.length_singleton, if_true]
    split_ifs <;> omega
  | gameStart hpc =>
    rw [hpc] at H
    cases h
    simp only [weight, gmWeight, hpc, List.length_append, List.length_singleton]
    split_ifs <;> omega
  | youCanPlay hpc | rejected hpc | gameEnd hpc =>
    cases h
    simp only [weight, gmWeight, hpc, List.length_append, List.length_singleton]
    omega

theorem PlayerStep.weight_lt (h : m.PlayerStep m') : m'.weight hd < m.weight hd := by
  cases h with
  | read cmd cmds hpc hgoing hcmds =>
    cases cmd <;> simp [weight, Player.handle, hpc, hcmds]
  | send hpc =>
    simp only [weight, hpc, List.length_append, List.length_singleton, if_true, reduceCtorEq,
      if_false]
    omega

end

/-! ## Runs -/

section
variable {hd : Header} {m m' : Match} {e : Event} {events : List Event}

theorem step_typed {cell : Fin GRID_SIZE} (h : step hd m (.typed cell) = some m') :
    m.player.pc = .inputMove ∧
      m' = { m with player := { m.player with pending_move := cell, pc := .sendCmd } } := by
  rw [step, Option.ite_none_right_eq_some] at h
  exact ⟨h.1, (Option.some.inj h.2).symm⟩

/-- What holds after the events of a run. -/
structure Settling (hd : Header) (m : Match) (events : List Event) : Prop where
  ok : m.Ok hd
  truthful : m.Truthful hd
  accounts : m.Accounts hd (typedCells events)
  weight : events.length + m.weight hd ≤ 9 + 11 * (typedCells events).length

theorem Settling.init (hd : Header) : Settling hd (init hd) [] where
  ok := .init hd
  truthful := nofun
  accounts :=
    { count := by
        rw [show (Match.init hd).gm.grid.marks hd.PLAYER_ID = 0 from
          Grid.marks_empty hd.player_ne_zero]
        rfl
      marked := fun _ h => absurd h.symm hd.player_ne_zero
      source := nofun
      answered := nofun }
  weight := le_rfl

theorem typedCells_append (events : List Event) (e : Event) :
    typedCells (events ++ [e]) = typedCells events ++ e.cell?.toList := by
  cases e <;> simp [typedCells, Event.cell?]

theorem Settling.step (S : Settling hd m events) (h : Match.step hd m e = some m') :
    Settling hd m' (events ++ [e]) := by
  have hweight := S.weight
  have hcells := typedCells_append events e
  cases e with
  | gm =>
    obtain ⟨l, gm', hstep, heffect⟩ := gmStep_cases S.ok.gm h
    rw [show (Event.gm).cell?.toList = [] from rfl, List.append_nil] at hcells
    refine ⟨S.ok.step h, S.truthful.gm S.ok.gm hstep heffect, ?_, ?_⟩
    · exact hcells ▸ S.accounts.gm S.ok.gm hstep heffect
    · have hlt := heffect.weight_lt S.ok.gm hstep
      rw [hcells, List.length_append, List.length_singleton]
      omega
  | player =>
    have hstep := playerStep_cases h
    rw [show (Event.player).cell?.toList = [] from rfl, List.append_nil] at hcells
    refine ⟨S.ok.step h, ?_, hcells ▸ S.accounts.player hstep, ?_⟩
    · rw [Truthful, hstep.sent, hstep.gm]
      exact S.truthful
    · have hlt : m'.weight hd < m.weight hd := hstep.weight_lt
      rw [hcells, List.length_append, List.length_singleton]
      omega
  | typed cell =>
    obtain ⟨hpc, rfl⟩ := step_typed h
    rw [show (Event.typed cell).cell?.toList = [cell] from rfl] at hcells
    refine ⟨S.ok.step h, S.truthful, hcells ▸ S.accounts.typed hpc, ?_⟩
    have hinput : Match.weight hd { m with
        player := { m.player with pending_move := cell, pc := .sendCmd } } =
          m.weight hd + 10 := by
      simp [Match.weight, hpc]
    rw [hcells, hinput, List.length_append, List.length_append]
    simp only [List.length_singleton]
    omega

theorem run_settling (h : run hd (init hd) events = some m) : Settling hd m events := by
  induction events using List.reverseRecOn generalizing m with
  | nil =>
    cases h
    exact .init hd
  | append_singleton events e ih =>
    obtain ⟨t, ht, h⟩ := run_append_singleton.mp h
    exact (ih ht).step h

/-- From the verdict on the grid stays. -/
theorem Ok.run_grid (H : m.Ok hd) (hover : m.gm.game_over = true)
    (h : Match.run hd m events = some m') : m'.gm.game_over = true ∧ m'.gm.grid = m.gm.grid := by
  induction events using List.reverseRecOn generalizing m' with
  | nil =>
    cases h
    exact ⟨hover, rfl⟩
  | append_singleton events e ih =>
    obtain ⟨t, ht, h⟩ := run_append_singleton.mp h
    obtain ⟨hover', hgrid⟩ := ih ht
    cases e with
    | gm =>
      obtain ⟨l, gm', hstep, heffect⟩ := gmStep_cases (H.run ht).gm h
      obtain ⟨hover'', hgrid'⟩ := hstep.decided (H.run ht).gm hover'
      rw [heffect.gm]
      exact ⟨hover'', hgrid'.trans hgrid⟩
    | player =>
      rw [(playerStep_cases h).gm]
      exact ⟨hover', hgrid⟩
    | typed cell =>
      obtain ⟨-, rfl⟩ := step_typed h
      exact ⟨hover', hgrid⟩

end

/-- Neither process can go on by itself. -/
def Waits (hd : Header) (m : Match) : Prop := m.gmStep hd = none ∧ m.playerStep = none

section
variable {hd : Header} {m m' : Match} {events : List Event}

theorem Ok.waits_cases (H : m.Ok hd) (h : m.Waits hd) :
    m.inFlight = [] ∧ m.rejections = m.handled.count .MOVE_REJECTED := by
  obtain ⟨hgm, hplayer⟩ := h
  by_cases hget : m.gm.pc = .getCmd
  · cases H.asked hget with
    | prompted cmds c hlisten hcmds =>
      obtain ⟨d, l, hl⟩ := List.exists_cons_of_ne_nil (hcmds ▸ by simp : m.toPlayer ≠ [])
      have := playerStep_isSome hlisten.pc hlisten.going hl
      simp [hplayer] at this
    | typing hne hgoing hfresh hcmds htoGm =>
      have hpc : m.player.pc = .inputMove := by
        cases hpc : m.player.pc with
        | loop => exact absurd hpc hne
        | inputMove => rfl
        | sendCmd => simp [playerStep, hpc] at hplayer
      exact ⟨by simp [inFlight, htoGm, hpc, hget], by simp [rejections, sent, hcmds, hget]⟩
    | replied move _ _ htoGm => simp [gmStep, game_manager, hget, htoGm] at hgm
  by_cases hret : m.gm.pc = .returned
  · have hagrees := H.agrees
    rw [Gm.phase, hret] at hagrees
    cases hagrees with
    | pending cmds v hlisten hcmds =>
      obtain ⟨d, l, hl⟩ := List.exists_cons_of_ne_nil (hcmds ▸ by simp : m.toPlayer ≠ [])
      have := playerStep_isSome hlisten.pc hlisten.going hl
      simp [hplayer] at this
    | left handled v hpc hover hhandled hfresh hv hcmds htoGm =>
      exact ⟨by simp [inFlight, htoGm, hpc, hret], by simp [rejections, sent, hcmds, hret]⟩
  · have := gmStep_isSome H.gm hget hret
    simp [hgm] at this

end

/-- What the user can rely on. -/
structure Settled (hd : Header) (m : Match) (cells : List (Fin GRID_SIZE)) : Prop where
  /-- The player's loop is left with the verdict about a grid that does not change any more. -/
  verdict : m.player.game_over = true → ∃ handled v, m.handled = handled ++ [v] ∧ v.IsVerdict ∧
    Matches hd m.gm.grid v ∧
      ∀ events m', run hd m events = some m' → m'.gm.grid = m.gm.grid
  marked : ∀ i : Fin GRID_SIZE, m.gm.grid i = hd.PLAYER_ID → i ∈ cells
  /-- Each cell that was typed has been marked or rejected. -/
  answered : m.Waits hd → (∀ i ∈ cells, m.gm.grid i ≠ EMPTY_ID) ∧
    cells.length = m.gm.grid.marks hd.PLAYER_ID + m.handled.count .MOVE_REJECTED

theorem run_settled (hd : Header) (events : List Event) (m : Match)
    (h : run hd (init hd) events = some m) : m.Settled hd (typedCells events) := by
  have S := run_settling h
  refine ⟨fun hover => ?_, S.accounts.marked, fun hwaits => ?_⟩
  · rcases S.ok.handled with ⟨hgoing, -⟩ | ⟨-, handled, v, hhandled, hv, -⟩
    · exact absurd (hgoing.symm.trans hover) nofun
    · have hmem : v ∈ m.sent := by simp [sent, hhandled]
      obtain ⟨hgm, hmatches⟩ := S.truthful v hmem hv
      exact ⟨handled, v, hhandled, hv, hmatches, fun more m' h' => (S.ok.run_grid hgm h').2⟩
  · obtain ⟨hflight, hrej⟩ := S.ok.waits_cases hwaits
    refine ⟨fun i hi => (S.accounts.answered i hi).resolve_left ?_, ?_⟩
    · exact hflight ▸ List.not_mem_nil
    · rw [S.accounts.count, hflight, hrej, List.length_nil, Nat.zero_add]

/-- The player takes three cells, and types the first of them twice. -/
def lineEvents (first second third : Fin GRID_SIZE) : List Event :=
  [.gm, .gm, .gm, .player, .player, .typed first, .player] ++ List.replicate 8 .gm ++
    [.player, .typed first, .player, .gm, .gm, .player, .typed second, .player] ++
    List.replicate 8 .gm ++ [.player, .typed third, .player] ++ List.replicate 5 .gm ++ [.player]

theorem run_settled_diagonal :
    ∃ m, run standardHeader (init standardHeader) (lineEvents 2 4 6) = some m ∧
      m.player.game_over = true ∧ m.Settled standardHeader [2, 2, 4, 6] := by
  have hrun : (run standardHeader (init standardHeader) (lineEvents 2 4 6)).map
      (fun m => m.player.game_over) = some true := by decide +kernel
  obtain ⟨m, hm, hover⟩ := Option.map_eq_some_iff.mp hrun
  exact ⟨m, hm, hover, run_settled standardHeader (lineEvents 2 4 6) m hm⟩

theorem marks_add_le (hd : Header) (g : Grid GRID_SIZE) :
    g.marks hd.PLAYER_ID + g.marks hd.AI_ID ≤ GRID_SIZE := by
  have hdisj : Disjoint (Finset.univ.filter fun i => g i = hd.PLAYER_ID)
      (Finset.univ.filter fun i => g i = hd.AI_ID) :=
    Finset.disjoint_filter.mpr fun i _ hi hj => hd.ai_ne_player (hj.symm.trans hi)
  rw [Grid.marks, Grid.marks, ← Finset.card_union_of_disjoint hdisj]
  exact (Finset.card_le_univ _).trans_eq (Fintype.card_fin _)

/-- A move on its way will be one of five marks, if it is no rejection. -/
theorem Ok.inFlight_add_le {hd : Header} {m : Match} (H : m.Ok hd) :
    m.inFlight.length + m.gm.grid.marks hd.PLAYER_ID ≤ 5 := by
  have hsum := marks_add_le hd m.gm.grid
  have hsize : GRID_SIZE = 9 := rfl
  have hmarks := H.gm.marks
  have hgm := H.gm
  rw [Gm.Ok] at hgm
  have hequal : m.gm.Playing hd → m.gm.player = hd.PLAYER_ID →
      m.gm.grid.marks hd.PLAYER_ID = m.gm.grid.marks hd.AI_ID := fun P hplayer =>
    P.board.turn.elim And.right fun h => absurd (h.1.symm.trans hplayer) hd.ai_ne_player
  by_cases hget : m.gm.pc = .getCmd
  · rw [hget] at hgm
    have hone := (H.asked hget).moves_le
    have heq := hequal hgm.1 hgm.2
    have hle : m.inFlight.length ≤ m.moves := by
      simp only [inFlight, hget, Match.moves, List.length_append]
      cases m.player.pc <;> simp
    omega
  · have hnone := H.moves hget
    simp only [Match.moves, Nat.add_eq_zero_iff, List.length_eq_zero_iff, ite_eq_left_iff,
      one_ne_zero, imp_false, not_not] at hnone
    obtain ⟨htoGm, hpc⟩ := hnone
    cases hmove : m.gm.pc with
    | playersMove move =>
      rw [hmove] at hgm
      have heq := hequal hgm.1 hgm.2.1
      simp only [inFlight, htoGm, hpc, hmove, List.length_append]
      simp
      omega
    | _ =>
      simp only [inFlight, htoGm, hpc, hmove]
      simp
      omega

/-- A match takes at most 64 steps, and 11 more for each move that is rejected. -/
theorem run_bounded (hd : Header) (events : List Event) (m : Match)
    (h : run hd (init hd) events = some m) :
    events.length ≤ 9 + 11 * (typedCells events).length ∧
      (typedCells events).length ≤ 5 + m.rejections := by
  have S := run_settling h
  refine ⟨(Nat.le_add_right _ _).trans S.weight, ?_⟩
  rw [S.accounts.count]
  exact Nat.add_le_add_right S.ok.inFlight_add_le _

theorem run_bounded_diagonal :
    ∃ m, run standardHeader (init standardHeader) (lineEvents 2 4 6) = some m ∧
      (lineEvents 2 4 6).length ≤ 9 + 11 * 4 ∧ 4 ≤ 5 + m.rejections := by
  have hrun : (run standardHeader (init standardHeader) (lineEvents 2 4 6)).isSome := by
    decide +kernel
  obtain ⟨m, hm⟩ := Option.isSome_iff_exists.mp hrun
  exact ⟨m, hm, run_bounded standardHeader (lineEvents 2 4 6) m hm⟩

/-! ## Schedules -/

section
variable {hd : Header} {m t t' : Match}

/-- A step of the game manager adds commands at one end of a channel and takes moves at the other,
whatever else there is. -/
theorem gmStep_frame (h : m.gmStep hd = some t) : ∃ gm out rest,
    t = ⟨gm, m.player, m.toPlayer ++ out, rest, m.handled⟩ ∧
      ∀ player cmds moves handled, gmStep hd ⟨m.gm, player, cmds, m.toGm ++ moves, handled⟩ =
        some ⟨gm, player, cmds ++ out, rest ++ moves, handled⟩ := by
  rw [gmStep] at h
  cases hnext : game_manager hd m.gm with
  | send c gm =>
    rw [hnext] at h
    cases h
    exact ⟨gm, [c], m.toGm, rfl, fun _ _ _ _ => by rw [gmStep, hnext]⟩
  | get k =>
    rw [hnext] at h
    cases htoGm : m.toGm with
    | nil => simp [htoGm] at h
    | cons move moves =>
      simp only [htoGm, Option.some.injEq] at h
      subst h
      refine ⟨k move, [], moves, by rw [List.append_nil], fun _ _ _ _ => ?_⟩
      rw [gmStep, hnext, List.append_nil]
      rfl
  | goto gm =>
    rw [hnext] at h
    cases h
    refine ⟨gm, [], m.toGm, by rw [List.append_nil], fun _ _ _ _ => ?_⟩
    rw [gmStep, hnext, List.append_nil]
  | undefined | exit => simp [hnext] at h

theorem gm_player (h : m.gmStep hd = some t) (h' : m.playerStep = some t') :
    ∃ u, t.playerStep = some u ∧ t'.gmStep hd = some u := by
  obtain ⟨gm, out, rest, rfl, hframe⟩ := gmStep_frame h
  cases playerStep_cases h' with
  | read cmd cmds hpc hgoing hcmds =>
    refine ⟨⟨gm, m.player.handle cmd, cmds ++ out, rest, m.handled ++ [cmd]⟩, ?_, ?_⟩
    · simp [playerStep, hpc, hgoing, hcmds]
    · simpa using hframe (m.player.handle cmd) cmds [] (m.handled ++ [cmd])
  | send hpc =>
    refine ⟨⟨gm, { m.player with pc := .loop }, m.toPlayer ++ out,
      rest ++ [m.player.pending_move], m.handled⟩, ?_, ?_⟩
    · simp [playerStep, hpc]
    · exact hframe _ _ [m.player.pending_move] _

/-- The game manager does not see the keyboard. -/
theorem gm_typed (cell : Fin GRID_SIZE) (h : m.gmStep hd = some t)
    (h' : step hd m (.typed cell) = some t') :
    ∃ u, step hd t (.typed cell) = some u ∧ t'.gmStep hd = some u := by
  obtain ⟨gm, out, rest, rfl, hframe⟩ := gmStep_frame h
  obtain ⟨hpc, rfl⟩ := step_typed h'
  refine ⟨_, if_pos hpc, ?_⟩
  simpa using hframe { m.player with pending_move := cell, pc := .sendCmd } m.toPlayer [] m.handled

/-- The player either waits for the keyboard or does not. -/
theorem not_player_typed (cell : Fin GRID_SIZE) (h : m.playerStep = some t)
    (h' : step hd m (.typed cell) = some t') : False := by
  obtain ⟨hpc, -⟩ := step_typed h'
  simp [playerStep, hpc] at h

end

theorem diamond (hd : Header) : Diamond (step hd) Event.isInput := by
  intro m t t' e e' hne hinput h h'
  cases e with
  | gm =>
    cases e' with
    | gm => exact absurd rfl hne
    | player => exact gm_player h h'
    | typed cell => exact gm_typed cell h h'
  | player =>
    cases e' with
    | gm =>
      obtain ⟨u, hu, hu'⟩ := gm_player h' h
      exact ⟨u, hu', hu⟩
    | player => exact absurd rfl hne
    | typed cell => exact (not_player_typed cell h h').elim
  | typed cell =>
    cases e' with
    | gm =>
      obtain ⟨u, hu, hu'⟩ := gm_typed cell h' h
      exact ⟨u, hu', hu⟩
    | player => exact (not_player_typed cell h' h).elim
    | typed cell' => exact absurd ⟨rfl, rfl⟩ hinput

theorem filter_isInput (events : List Event) :
    events.filter Event.isInput = (typedCells events).map .typed := by
  induction events with
  | nil => rfl
  | cons e events ih =>
    cases e with
    | gm | player => exact ih
    | typed cell => exact congrArg (Event.typed cell :: ·) ih

theorem Waits.quiet {hd : Header} {m : Match} (h : m.Waits hd) :
    Schedules.Quiet (step hd) Event.isInput m := by
  intro e he
  cases e with
  | gm => exact h.1
  | player => exact h.2
  | typed cell => cases he

/-- The match depends on what the user types, and on nothing else. -/
theorem run_schedule (hd : Header) (events events' : List Event) (m m' : Match)
    (h : run hd (init hd) events = some m) (h' : run hd (init hd) events' = some m')
    (hcells : typedCells events = typedCells events') (hm : m.Waits hd) (hm' : m'.Waits hd) :
    m = m' ∧ events.Perm events' := by
  have hinput : events.filter Event.isInput = events'.filter Event.isInput := by
    rw [filter_isInput, filter_isInput, hcells]
  exact ((diamond hd).unique h h' hinput hm.quiet hm'.quiet).symm

/-- The first prompt, with the player early or late. -/
theorem run_schedule_first :
    ∃ m m', run standardHeader (init standardHeader) [.gm, .gm, .gm, .player, .player] = some m ∧
      run standardHeader (init standardHeader) [.gm, .player, .gm, .gm, .player] = some m' ∧
      m = m' := by
  obtain ⟨m, hm⟩ : ∃ m, run standardHeader (init standardHeader)
      [.gm, .gm, .gm, .player, .player] = some m := ⟨_, rfl⟩
  obtain ⟨m', hm'⟩ : ∃ m, run standardHeader (init standardHeader)
      [.gm, .player, .gm, .gm, .player] = some m := ⟨_, rfl⟩
  have hwaits : ∀ t, run standardHeader (init standardHeader)
      [.gm, .gm, .gm, .player, .player] = some t → t.Waits standardHeader := by
    intro t ht
    obtain rfl := Option.some.inj ht
    exact ⟨rfl, rfl⟩
  have hwaits' : ∀ t, run standardHeader (init standardHeader)
      [.gm, .player, .gm, .gm, .player] = some t → t.Waits standardHeader := by
    intro t ht
    obtain rfl := Option.some.inj ht
    exact ⟨rfl, rfl⟩
  exact ⟨m, m', hm, hm', (run_schedule standardHeader _ _ m m' hm hm' rfl (hwaits m hm)
    (hwaits' m' hm')).1⟩

end Match
end SyeLabs.Tictactoe
