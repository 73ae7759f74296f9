import SyeLabs.Shell.Pipeline

/-!
# The ends of a pipe stay on their sides

The shell has no end of any pipe, a program on the left none but write ends of its own pipe, and
one on the right none but read ends. So the right program reads what the left one has written, all
of it before it is told the end, and it is told the end when there is nobody left on the left.
-/

namespace SyeLabs.Shell
open Libc Descriptors Kernel

variable {s s' : System} {p q c : Proc} {t t' : Files File} {r : Role} {f : File} {i k pid : ℕ}
  {script : Script}

/-! ## Roles -/

theorem FD_MAX_ne_zero : FD_MAX ≠ 0 := by decide

local instance : NeZero FD_MAX := ⟨FD_MAX_ne_zero⟩

namespace Role

/-- The descriptors with which a program starts. -/
def files : Role → Files File
  | .alone => shellFiles
  | .left i => Function.update (Function.update shellFiles 4 (some (.writer i))) STDOUT
    (some (.writer i))
  | .right i => Function.update (Function.update shellFiles 3 (some (.reader i))) STDIN
    (some (.reader i))

/-- What a program may have open. -/
def May (r : Role) : File → Prop
  | .reader i => r = .right i
  | .writer i => r = .left i
  | .other _ => True

/-- What a child may have open before its program runs. -/
def Near (r : Role) : File → Prop
  | .reader i | .writer i => r = .left i ∨ r = .right i
  | .other _ => True

/-- The pipe of the role is one of the first `k`. -/
def Below (k : ℕ) : Role → Prop
  | .alone => True
  | .left i | .right i => i < k

theorem May.near (h : r.May f) : r.Near f := by
  cases f with
  | reader i => exact .inr h
  | writer i => exact .inl h
  | other gfd => trivial

theorem Below.mono {k' : ℕ} (h : r.Below k) (hk : k ≤ k') : r.Below k' := by
  cases r with
  | alone => trivial
  | left i => exact Nat.lt_of_lt_of_le h hk
  | right i => exact Nat.lt_of_lt_of_le h hk

end Role

theorem shellFiles_holds (h : shellFiles.Holds f) : ∃ gfd, f = .other gfd := by
  rcases h.of_update with h | h
  · exact ⟨_, (Option.some.inj h).symm⟩
  rcases h.of_update with h | h
  · exact ⟨_, (Option.some.inj h).symm⟩
  rcases h.of_update with h | h
  · exact ⟨_, (Option.some.inj h).symm⟩
  · exact absurd h Table.not_holds_empty

theorem shellFiles_may (h : shellFiles.Holds f) : r.May f := by
  obtain ⟨gfd, rfl⟩ := shellFiles_holds h
  trivial

theorem Role.files_may (h : r.files.Holds f) : r.May f := by
  cases r with
  | alone => exact shellFiles_may h
  | left i =>
    rcases h.of_update with h | h
    · obtain rfl := Option.some.inj h
      exact rfl
    rcases h.of_update with h | h
    · obtain rfl := Option.some.inj h
      exact rfl
    · exact shellFiles_may h
  | right i =>
    rcases h.of_update with h | h
    · obtain rfl := Option.some.inj h
      exact rfl
    rcases h.of_update with h | h
    · obtain rfl := Option.some.inj h
      exact rfl
    · exact shellFiles_may h

/-! ## Scripts -/

namespace Script

/-- A script that makes neither a pipe nor a child. -/
def Plain : Script → Prop
  | .pipe _ | .fork _ _ => False
  | .close _ next | .dup2 _ _ next | .printf _ next => next.Plain
  | .execv _ | .exit => True

/-- The descriptors at the end of a plain script. -/
def final : Script → Files File → Files File
  | .close fd next, t => next.final (t.close fd)
  | .dup2 oldfd newfd next, t => next.final (t.dup2 oldfd newfd)
  | .printf _ next, t => next.final t
  | _, t => t

/-- A script that leads to a program, or to two of them, with the descriptors of their roles. -/
inductive Ready : Role → Files File → Script → Prop where
  | plain {r : Role} {t : Files File} {script : Script} (hplain : script.Plain)
    (hfinal : script.final t = r.files) : Ready r t script
  | pipeline (left right : Option Exec) : Ready .alone shellFiles (pipeline left right)
  | fork {i : ℕ} {t : Files File} {child parent : Script} (hchild : child.Plain)
    (hparent : parent.Plain) (hleft : child.final t = (Role.left i).files)
    (hright : parent.final t = (Role.right i).files) : Ready (.right i) t (.fork child parent)

end Script

theorem Exec.failed_plain (image : Exec) :
    image.failed.Plain ∧ ∀ t, image.failed.final t = t := by
  unfold Exec.failed
  split
  · exact ⟨trivial, fun _ => rfl⟩
  · exact ⟨trivial, fun _ => rfl⟩

/-- The table with both ends of a pipe. -/
def bothFiles (i : ℕ) : Files File :=
  Function.update (Function.update shellFiles 3 (some (.reader i))) 4 (some (.writer i))

theorem register_shellFiles (f : File) :
    proc_register_fd shellFiles f = some (3, Function.update shellFiles 3 (some f)) := rfl

theorem register_reader (i : ℕ) (f : File) :
    proc_register_fd (Function.update shellFiles 3 (some (.reader i))) f =
      some (4, Function.update (Function.update shellFiles 3 (some (.reader i))) 4 (some f)) := rfl

/-- The left child closes the read end and writes to the other one. -/
theorem left_final (i : ℕ) : ((bothFiles i).close 3).dup2 4 STDOUT = (Role.left i).files := by
  have hclose : (bothFiles i).close 3 = Function.update shellFiles 4 (some (.writer i)) := by
    have hfree : shellFiles 3 = none := rfl
    rw [Table.close, bothFiles, Function.update_comm (by decide), Function.update_idem, ← hfree,
      Function.update_eq_self]
  rw [hclose, Table.dup2, Function.update_self, if_neg (Option.some_ne_none _)]
  rfl

/-- The right child closes the write end and reads from the other one. -/
theorem right_final (i : ℕ) : ((bothFiles i).close 4).dup2 3 STDIN = (Role.right i).files := by
  have hclose : (bothFiles i).close 4 = Function.update shellFiles 3 (some (.reader i)) := by
    have hfree : Function.update shellFiles 3 (some (File.reader i)) 4 = none := rfl
    rw [Table.close, bothFiles, Function.update_idem, ← hfree, Function.update_eq_self]
  rw [hclose, Table.dup2, Function.update_self, if_neg (Option.some_ne_none _)]
  rfl

theorem bothFiles_near (h : (bothFiles i).Holds f) : (Role.right i).Near f := by
  rcases h.of_update with h | h
  · obtain rfl := Option.some.inj h
    exact .inr rfl
  rcases h.of_update with h | h
  · obtain rfl := Option.some.inj h
    exact .inr rfl
  · exact (shellFiles_may h).near

/-! ## One process -/

inductive Proc.Ok : Proc → Prop where
  | shell (waiting : Option ℕ) : Ok ⟨shellFiles, .shell waiting, .alone⟩
  | script {r : Role} {t : Files File} {script : Script} (hready : script.Ready r t)
    (hnear : ∀ f, t.Holds f → r.Near f) : Ok ⟨t, .script script, r⟩
  | program {r : Role} {t : Files File} (hmay : ∀ f, t.Holds f → r.May f) : Ok ⟨t, .program, r⟩
  | gone {r : Role} : Ok ⟨fun _ => none, .gone, r⟩

theorem Proc.Ok.near (H : p.Ok) (h : p.fd_array.Holds f) : p.role.Near f := by
  cases H with
  | shell => exact (shellFiles_may h).near
  | script _ hnear => exact hnear f h
  | program hmay => exact (hmay f h).near
  | gone => exact absurd h Table.not_holds_empty

theorem Proc.Ok.exit (t : Files File) (r : Role) : Proc.Ok ⟨exitFiles t, .gone, r⟩ := by
  rw [exitFiles_eq]
  exact .gone

/-- A child in front of a script. -/
def Proc.InScript (p : Proc) : Prop := ∃ script, p.code = .script script

/-- One process goes on as `q`, perhaps beside a new child. -/
structure Forward (s s' : System) (pid : ℕ) (p q : Proc) (children : List Proc) : Prop where
  before : s.procs[pid]? = some p
  procs : s'.procs = s.procs.set pid q ++ children
  ok : ∀ x ∈ q :: children, x.Ok
  writers : ∀ x ∈ q :: children, ∀ i, x.fd_array.Holds (.writer i) →
    p.fd_array.Holds (.writer i) ∨ i = s.pipes.length
  role : q.role = p.role ∧ (q.InScript → p.InScript) ∨
    q.role = .right s.pipes.length ∧ s.pipes.length < s'.pipes.length
  children : ∀ c ∈ children, c.role = .alone ∨ (∃ i, p.role = .right i ∧ c.role = .left i) ∨
    c.role = p.role ∧ q.role = p.role ∧ ¬q.InScript ∧ ¬c.InScript

/-- What a step of a process does to the pipes. -/
inductive PipeStep (s : System) (p : Proc) : List (Pipe Byte) → Prop where
  | same : PipeStep s p s.pipes
  | new : PipeStep s p (s.pipes ++ [({} : Pipe Byte)])
  | write (i : ℕ) (bytes : List Byte) (hwriter : p.fd_array.Holds (.writer i)) :
    PipeStep s p (s.pipes.modify i (·.write bytes))
  | take (i count : ℕ) : PipeStep s p (s.pipes.modify i (·.take count))
  | finish (i : ℕ) (hempty : ∀ pipe, s.pipes[i]? = some pipe → pipe.buffer = [])
    (hno : ¬s.Open (.writer i)) : PipeStep s p (s.pipes.modify i Pipe.finish)

/-- A process goes on with the descriptors of before, or fewer of them. -/
theorem Forward.become (hp : s.procs[pid]? = some p) (hprocs : s'.procs = s.procs.set pid q)
    (hq : q.Ok) (hrole : q.role = p.role) (hscript : q.InScript → p.InScript)
    (hsub : ∀ f, q.fd_array.Holds f → p.fd_array.Holds f ∨ ∃ gfd, f = .other gfd) :
    Forward s s' pid p q [] where
  before := hp
  procs := by rw [hprocs, List.append_nil]
  ok x hx := by
    rw [List.mem_singleton.mp hx]
    exact hq
  writers x hx i hi := by
    obtain rfl := List.mem_singleton.mp hx
    rcases hsub _ hi with h | ⟨gfd, h⟩
    · exact .inl h
    · exact absurd h nofun
  role := .inl ⟨hrole, hscript⟩
  children c hc := absurd hc List.not_mem_nil

/-- Nothing happens to the processes. -/
theorem Forward.stay (hp : s.procs[pid]? = some p) (hok : p.Ok) (hprocs : s'.procs = s.procs) :
    Forward s s' pid p p [] := by
  refine .become hp ?_ hok rfl id fun f h => .inl h
  obtain ⟨hlt, rfl⟩ := List.getElem?_eq_some_iff.mp hp
  rw [hprocs, List.set_getElem_self]

/-- A process goes on beside a copy of it, or a child that works for the other side. -/
theorem Forward.spawn (hp : s.procs[pid]? = some p) (hprocs : s'.procs = s.procs.set pid q ++ [c])
    (hq : q.Ok) (hc : c.Ok) (hrole : q.role = p.role) (hscript : q.InScript → p.InScript)
    (hfiles : q.fd_array = p.fd_array ∧ c.fd_array = p.fd_array)
    (hchild : c.role = .alone ∨ (∃ i, p.role = .right i ∧ c.role = .left i) ∨
      c.role = p.role ∧ ¬q.InScript ∧ ¬c.InScript) : Forward s s' pid p q [c] where
  before := hp
  procs := hprocs
  ok x hx := by
    rcases List.mem_cons.mp hx with rfl | hx
    · exact hq
    · rw [List.mem_singleton.mp hx]
      exact hc
  writers x hx i hi := by
    rcases List.mem_cons.mp hx with rfl | hx
    · exact .inl (hfiles.1 ▸ hi)
    · rw [List.mem_singleton.mp hx, hfiles.2] at hi
      exact .inl hi
  role := .inl ⟨hrole, hscript⟩
  children x hx := by
    obtain rfl := List.mem_singleton.mp hx
    exact hchild.imp_right (.imp_right fun h => ⟨h.1, hrole, h.2⟩)

theorem PipeStep.of_write (fd : Fin FD_MAX) (bytes : List Byte) :
    PipeStep s p (s.write p.fd_array fd bytes) := by
  unfold System.write
  split
  · next i hfd =>
    split
    · exact .write i bytes ⟨fd, hfd⟩
    · exact .same
  · exact .same

theorem PipeStep.of_read {fd : Fin FD_MAX} {count : ℕ} {pipes : List (Pipe Byte)}
    (h : s.read p.fd_array fd count = some pipes) : PipeStep s p pipes := by
  unfold System.read at h
  split at h
  · next i hfd =>
    split at h
    · cases h
    · next pipe hpipe =>
      split at h
      · cases h
        exact .take i count
      · next hbuffer =>
        split at h
        · cases h
        · next hopen =>
          cases h
          refine .finish i (fun pipe' h => ?_) hopen
          rw [hpipe] at h
          cases h
          exact not_not.mp hbuffer
  · cases h
    exact .same

/-! ## The statements of a child -/

section
variable {found : Bool}

theorem Role.Near.flip (h : (Role.right i).Near f) : (Role.left i).Near f := by
  cases f with
  | reader j | writer j =>
    rcases h with h | h
    · exact absurd h nofun
    · obtain rfl := Role.right.inj h
      exact .inl rfl
  | other gfd => trivial

/-- The pipe of a pipeline, as the descriptors 3 and 4. -/
theorem statement_pipeline {left right : Option Exec}
    (hp : s.procs[pid]? = some ⟨shellFiles, .script (pipeline left right), .alone⟩)
    (h : s.statement pid ⟨shellFiles, .script (pipeline left right), .alone⟩ found
      (pipeline left right) = some s') :
    ∃ q, Forward s s' pid ⟨shellFiles, .script (pipeline left right), .alone⟩ q [] ∧
      s'.pipes = s.pipes ++ [({} : Pipe Byte)] := by
  simp only [pipeline, System.statement, register_shellFiles, register_reader, Option.bind_eq_bind,
    Option.bind_some] at h
  cases h
  let rest : Script := .fork (.close 3 (.dup2 4 STDOUT (.execv left)))
    (.close 4 (.dup2 3 STDIN (.execv right)))
  refine ⟨⟨bothFiles s.pipes.length, .script rest, .right s.pipes.length⟩, ⟨hp, ?_,
    fun x hx => ?_, fun x hx i hi => ?_, .inr ⟨rfl, ?_⟩,
    fun c hc => absurd hc List.not_mem_nil⟩, rfl⟩
  · exact (List.append_nil _).symm
  · rw [List.mem_singleton.mp hx]
    refine .script (.fork ?_ ?_ ?_ ?_) fun f => bothFiles_near
    · exact trivial
    · exact trivial
    · exact left_final _
    · exact right_final _
  · rw [List.mem_singleton.mp hx] at hi
    rcases bothFiles_near hi with h | h
    · exact absurd h nofun
    · exact .inr (Role.right.inj h).symm
  · rw [List.length_append]
    exact Nat.lt_succ_self _

/-- A child in front of a plain script. -/
theorem statement_plain (hplain : script.Plain) (hfinal : script.final t = r.files)
    (hnear : ∀ f, t.Holds f → r.Near f) (hp : s.procs[pid]? = some ⟨t, .script script, r⟩)
    (h : s.statement pid ⟨t, .script script, r⟩ found script = some s') :
    ∃ q, Forward s s' pid ⟨t, .script script, r⟩ q [] ∧
      PipeStep s ⟨t, .script script, r⟩ s'.pipes := by
  cases script with
  | pipe next => exact absurd hplain id
  | fork child parent => exact absurd hplain id
  | close fd next =>
    cases h
    refine ⟨_, .become hp rfl (.script (.plain hplain hfinal) fun f hf => hnear f hf.of_close) rfl
      (fun _ => ⟨_, rfl⟩) fun f hf => .inl hf.of_close, .same⟩
  | dup2 oldfd newfd next =>
    cases h
    refine ⟨_, .become hp rfl (.script (.plain hplain hfinal) fun f hf => hnear f hf.of_dup2) rfl
      (fun _ => ⟨_, rfl⟩) fun f hf => .inl hf.of_dup2, .same⟩
  | execv image =>
    simp only [System.statement, Option.bind_eq_bind, Option.bind_eq_some_iff, Option.pure_def,
      Option.some.injEq] at h
    obtain ⟨image, -, rfl⟩ := h
    refine ⟨_, .become hp rfl ?_ rfl (fun _ => ⟨_, rfl⟩) fun f hf => .inl hf, .same⟩
    cases found with
    | true =>
      refine .program fun f hf => ?_
      rw [show t = r.files from hfinal] at hf
      exact Role.files_may hf
    | false =>
      obtain ⟨hfplain, hffinal⟩ := image.failed_plain
      exact .script (.plain hfplain ((hffinal t).trans hfinal)) hnear
  | printf message next =>
    cases h
    exact ⟨_, .become hp rfl (.script (.plain hplain hfinal) hnear) rfl (fun _ => ⟨_, rfl⟩)
      fun f hf => .inl hf, .of_write _ _⟩
  | exit =>
    cases h
    refine ⟨_, .become hp rfl (.exit t r) rfl (fun _ => ⟨_, rfl⟩) fun f hf => ?_, .same⟩
    rw [exitFiles_eq] at hf
    exact absurd hf Table.not_holds_empty

theorem Proc.Ok.statement (H : p.Ok) (hp : s.procs[pid]? = some p) (hcode : p.code = .script script)
    (h : s.statement pid p found script = some s') :
    ∃ q cs, Forward s s' pid p q cs ∧ PipeStep s p s'.pipes := by
  cases H with
  | shell | program | gone => exact absurd hcode nofun
  | script hready hnear =>
    cases hcode
    cases hready with
    | plain hplain hfinal =>
      obtain ⟨q, hforward, hpipes⟩ := statement_plain hplain hfinal hnear hp h
      exact ⟨q, [], hforward, hpipes⟩
    | pipeline left right =>
      obtain ⟨q, hforward, hpipes⟩ := statement_pipeline hp h
      rw [hpipes]
      exact ⟨q, [], hforward, .new⟩
    | fork hchild hparent hleft hright =>
      cases h
      refine ⟨_, _, .spawn hp rfl (.script (.plain hparent hright) hnear)
        (.script (.plain hchild hleft) fun f hf => (hnear f hf).flip) rfl (fun _ => ⟨_, rfl⟩)
        ⟨rfl, rfl⟩ (.inr (.inl ⟨_, rfl, rfl⟩)), .same⟩

/-! ## Programs and the shell -/

theorem Proc.Ok.call (H : p.Ok) (hp : s.procs[pid]? = some p) (hcode : p.code = .program)
    {a : Syscall} (h : s.call pid p a = some s') :
    ∃ q cs, Forward s s' pid p q cs ∧ PipeStep s p s'.pipes := by
  cases H with
  | shell | script | gone => exact absurd hcode nofun
  | @program r t hmay =>
  have hold := Proc.Ok.program hmay
  -- a program that goes on with the descriptors `t'`
  have hgo : ∀ t' : Files File, (∀ f, t'.Holds f → t.Holds f ∨ ∃ gfd, f = .other gfd) →
      Forward s (s.become pid ⟨t', .program, r⟩) pid ⟨t, .program, r⟩ ⟨t', .program, r⟩ [] := by
    intro t' hsub
    refine .become hp rfl (.program fun f hf => ?_) rfl id hsub
    rcases hsub f hf with hf | ⟨gfd, rfl⟩
    · exact hmay f hf
    · trivial
  cases a with
  | «open» gfd =>
    obtain ⟨⟨fd, t'⟩, hr, h⟩ := Option.bind_eq_some_iff.mp h
    cases h
    rw [proc_register_fd_eq] at hr
    refine ⟨_, _, hgo t' fun f hf => ?_, .same⟩
    exact (hf.of_register hr).symm.imp_right fun h => ⟨gfd, h.symm⟩
  | close fd =>
    cases h
    exact ⟨_, _, hgo _ fun f hf => .inl hf.of_close, .same⟩
  | dup fd =>
    simp only [System.call, Option.bind_eq_bind, Option.bind_eq_some_iff] at h
    obtain ⟨g, hg, ⟨fd', t'⟩, hr, h⟩ := h
    cases h
    rw [proc_register_fd_eq] at hr
    refine ⟨_, _, hgo t' fun f hf => .inl ?_, .same⟩
    rcases hf.of_register hr with rfl | hf
    · exact ⟨fd, hg⟩
    · exact hf
  | dup2 oldfd newfd =>
    cases h
    exact ⟨_, _, hgo _ fun f hf => .inl hf.of_dup2, .same⟩
  | read fd count =>
    obtain ⟨pipes, hr, h⟩ := Option.bind_eq_some_iff.mp h
    cases h
    exact ⟨_, _, .stay hp hold rfl, .of_read hr⟩
  | write fd bytes =>
    cases h
    exact ⟨_, _, .stay hp hold rfl, .of_write fd bytes⟩
  | fork =>
    cases h
    exact ⟨_, _, .spawn hp rfl hold hold rfl id ⟨rfl, rfl⟩
      (.inr (.inr ⟨rfl, nofun, nofun⟩)), .same⟩
  | exit =>
    cases h
    refine ⟨_, _, .become hp rfl (.exit t r) rfl nofun fun f hf => ?_, .same⟩
    rw [exitFiles_eq] at hf
    exact absurd hf Table.not_holds_empty

end

/-- All processes, and the pipes. -/
structure System.Ok (s : System) : Prop where
  procs : ∀ p ∈ s.procs, p.Ok
  roles : ∀ p ∈ s.procs, p.role.Below s.pipes.length
  /-- The child on the right of a pipe is alone on its side until its program runs. -/
  solo : ∀ (a b : ℕ) (p q : Proc) (i : ℕ), s.procs[a]? = some p → s.procs[b]? = some q →
    p.role = .right i → q.role = .right i → p.InScript → a = b
  fifo : ∀ (i : ℕ) (pipe : Pipe Byte), s.pipes[i]? = some pipe → pipe.Fifo
  ended : ∀ (i : ℕ) (pipe : Pipe Byte), s.pipes[i]? = some pipe → pipe.ended = true →
    pipe.buffer = [] ∧ ¬s.Open (.writer i)

theorem System.Ok.step_forward (H : s.Ok) {e : Event} (h : s.step e = some s') :
    ∃ pid p q cs, Forward s s' pid p q cs ∧ PipeStep s p s'.pipes := by
  cases e with
  | line user_input =>
    obtain ⟨p, hp, h⟩ := Option.bind_eq_some_iff.mp h
    have hok := H.procs p (List.mem_of_getElem? hp)
    cases hok with
    | script | program | gone => exact absurd h nofun
    | shell waiting =>
    cases waiting with
    | some pid_child => exact absurd h nofun
    | none =>
    obtain ⟨o, -, h⟩ := Option.bind_eq_some_iff.mp h
    -- a child in front of a script
    have hlaunch : ∀ script background, Script.Ready .alone shellFiles script → ∃ q cs,
        Forward s (s.launch ⟨shellFiles, .shell none, .alone⟩ script background) 0
          ⟨shellFiles, .shell none, .alone⟩ q cs := by
      intro script background hready
      exact ⟨_, _, .spawn hp rfl (.shell _) (.script hready fun f hf => (shellFiles_may hf).near)
        rfl nofun ⟨rfl, rfl⟩ (.inl rfl)⟩
    cases o with
    | idle | builtin =>
      cases h
      exact ⟨_, _, _, _, .stay hp (.shell none) rfl, .same⟩
    | single child background =>
      cases h
      obtain ⟨q, cs, hforward⟩ := hlaunch (.execv child) background (.plain trivial rfl)
      exact ⟨_, _, q, cs, hforward, .same⟩
    | piped left right background =>
      cases h
      obtain ⟨q, cs, hforward⟩ := hlaunch _ background (.pipeline left right)
      exact ⟨_, _, q, cs, hforward, .same⟩
  | wait =>
    obtain ⟨p, hp, h⟩ := Option.bind_eq_some_iff.mp h
    have hok := H.procs p (List.mem_of_getElem? hp)
    cases hok with
    | script | program | gone => exact absurd h nofun
    | shell waiting =>
    cases waiting with
    | none => exact absurd h nofun
    | some pid_child =>
    obtain ⟨child, -, h⟩ := Option.bind_eq_some_iff.mp h
    split at h
    · cases h
      exact ⟨_, _, _, _, .become hp rfl (.shell none) rfl nofun fun f hf => .inl hf, .same⟩
    · exact absurd h nofun
  | script pid found =>
    obtain ⟨p, hp, h⟩ := Option.bind_eq_some_iff.mp h
    split at h
    · next script hcode =>
      exact ⟨pid, p, (H.procs p (List.mem_of_getElem? hp)).statement hp hcode h⟩
    · exact absurd h nofun
  | call pid a =>
    obtain ⟨p, hp, h⟩ := Option.bind_eq_some_iff.mp h
    split at h
    · next hcode => exact ⟨pid, p, (H.procs p (List.mem_of_getElem? hp)).call hp hcode h⟩
    · exact absurd h nofun

/-! ## The processes after a step -/

section
variable {cs : List Proc} {x y : Proc} {a b : ℕ} {pipe pipe' : Pipe Byte}

theorem Forward.mem (F : Forward s s' pid p q cs) (hx : x ∈ s'.procs) :
    x ∈ s.procs ∨ x ∈ q :: cs := by
  rw [F.procs] at hx
  rcases List.mem_append.mp hx with hx | hx
  · rcases List.mem_or_eq_of_mem_set hx with hx | rfl
    · exact .inl hx
    · exact .inr List.mem_cons_self
  · exact .inr (List.mem_cons_of_mem _ hx)

/-- Where a process is after a step. -/
theorem Forward.at (F : Forward s s' pid p q cs) (hx : s'.procs[a]? = some x) :
    a = pid ∧ x = q ∨ a ≠ pid ∧ s.procs[a]? = some x ∨ s.procs.length ≤ a ∧ x ∈ cs := by
  rw [F.procs] at hx
  rcases Nat.lt_or_ge a s.procs.length with hlt | hle
  · rw [List.getElem?_append_left (by rwa [List.length_set])] at hx
    by_cases ha : a = pid
    · subst ha
      rw [List.getElem?_set_self hlt] at hx
      exact .inl ⟨rfl, (Option.some.inj hx).symm⟩
    · rw [List.getElem?_set_ne (Ne.symm ha)] at hx
      exact .inr (.inl ⟨ha, hx⟩)
  · rw [List.getElem?_append_right (by rwa [List.length_set])] at hx
    exact .inr (.inr ⟨hle, List.mem_of_getElem? hx⟩)

theorem Forward.mem_before (F : Forward s s' pid p q cs) : p ∈ s.procs :=
  List.mem_of_getElem? F.before

/-- Nobody gets at a pipe without a writer. -/
theorem Forward.not_open (F : Forward s s' pid p q cs) (hi : i < s.pipes.length)
    (h : ¬s.Open (.writer i)) : ¬s'.Open (.writer i) := by
  rintro ⟨x, hx, hholds⟩
  rcases F.mem hx with hx | hx
  · exact h ⟨x, hx, hholds⟩
  · rcases F.writers x hx i hholds with hp | rfl
    · exact h ⟨p, F.mem_before, hp⟩
    · exact absurd hi (Nat.lt_irrefl _)

theorem PipeStep.length_le {pipes : List (Pipe Byte)} (P : PipeStep s p pipes) :
    s.pipes.length ≤ pipes.length := by
  cases P with
  | same => exact le_rfl
  | new => simp
  | write | take | finish => exact (List.length_modify ..).ge

theorem Forward.roles (F : Forward s s' pid p q cs) (H : s.Ok)
    (hle : s.pipes.length ≤ s'.pipes.length) : ∀ x ∈ s'.procs, x.role.Below s'.pipes.length := by
  have hp := (H.roles p F.mem_before).mono hle
  have hq : q.role.Below s'.pipes.length := by
    rcases F.role with ⟨hrole, -⟩ | ⟨hrole, hlt⟩
    · rwa [hrole]
    · rw [hrole]
      exact hlt
  intro x hx
  rcases F.mem hx with hx | hx
  · exact (H.roles x hx).mono hle
  rcases List.mem_cons.mp hx with rfl | hx
  · exact hq
  rcases F.children x hx with hrole | ⟨i, hright, hleft⟩ | ⟨hrole, -⟩
  · rw [hrole]
    trivial
  · rw [hright] at hp
    rw [hleft]
    exact hp
  · rwa [hrole]

theorem Forward.solo (F : Forward s s' pid p q cs) (H : s.Ok) (hx : s'.procs[a]? = some x)
    (hy : s'.procs[b]? = some y) (hxi : x.role = .right i) (hyi : y.role = .right i)
    (hscript : x.InScript) : a = b := by
  have hbelow : ∀ z ∈ s.procs, z.role = .right i → i < s.pipes.length := fun z hz hzi => by
    have := H.roles z hz
    rwa [hzi] at this
  -- the process that goes on, if it is the one on the right of an old pipe
  have hq : i < s.pipes.length → q.role = .right i → p.role = .right i ∧
      (q.InScript → p.InScript) := by
    intro hi hqi
    rcases F.role with ⟨hrole, hin⟩ | ⟨hrole, -⟩
    · exact ⟨hrole ▸ hqi, hin⟩
    · rw [hrole] at hqi
      exact absurd hi (by rw [Role.right.inj hqi]; exact Nat.lt_irrefl _)
  -- a child on the right is the child of a program
  have hcs : ∀ z ∈ cs, z.role = .right i → p.role = .right i ∧ ¬q.InScript ∧ ¬z.InScript := by
    intro z hz hzi
    rcases F.children z hz with hrole | ⟨j, -, hrole⟩ | ⟨hrole, -, hqs, hzs⟩
    · rw [hrole] at hzi
      cases hzi
    · rw [hrole] at hzi
      cases hzi
    · exact ⟨hrole ▸ hzi, hqs, hzs⟩
  rcases F.at hx with ⟨rfl, rfl⟩ | ⟨ha, hx⟩ | ⟨-, hx⟩
  · rcases F.at hy with ⟨rfl, -⟩ | ⟨-, hy⟩ | ⟨-, hy⟩
    · rfl
    · obtain ⟨hpi, hps⟩ := hq (hbelow y (List.mem_of_getElem? hy) hyi) hxi
      exact H.solo _ _ _ _ _ F.before hy hpi hyi (hps hscript)
    · exact absurd hscript (hcs y hy hyi).2.1
  · have hi := hbelow x (List.mem_of_getElem? hx) hxi
    rcases F.at hy with ⟨rfl, rfl⟩ | ⟨-, hy⟩ | ⟨-, hy⟩
    · exact H.solo _ _ _ _ _ hx F.before hxi (hq hi hyi).1 hscript
    · exact H.solo _ _ _ _ _ hx hy hxi hyi hscript
    · exact absurd (H.solo _ _ _ _ _ hx F.before hxi (hcs y hy hyi).1 hscript) ha
  · exact absurd hscript (hcs x hx hxi).2.2

/-! ## The pipes after a step -/

theorem PipeStep.fifo {pipes : List (Pipe Byte)} (P : PipeStep s p pipes)
    (H : ∀ (i : ℕ) (pipe : Pipe Byte), s.pipes[i]? = some pipe → pipe.Fifo)
    (h : pipes[i]? = some pipe) : pipe.Fifo := by
  -- one pipe is changed by `f`
  have hmodify : ∀ (j : ℕ) (f : Pipe Byte → Pipe Byte), (∀ pipe, pipe.Fifo → (f pipe).Fifo) →
      (s.pipes.modify j f)[i]? = some pipe → pipe.Fifo := by
    intro j f hf h
    rw [List.getElem?_modify, Option.map_eq_map, Option.map_eq_some_iff] at h
    obtain ⟨old, hold, rfl⟩ := h
    split
    · exact hf old (H i old hold)
    · exact H i old hold
  cases P with
  | same => exact H i pipe h
  | new =>
    rcases List.mem_append.mp (List.mem_of_getElem? h) with hmem | hmem
    · obtain ⟨j, hj⟩ := List.mem_iff_getElem?.mp hmem
      exact H j pipe hj
    · rw [List.mem_singleton.mp hmem]
      exact rfl
  | write j bytes _ => exact hmodify j _ (fun _ hf => hf.write bytes) h
  | take j count => exact hmodify j _ (fun _ hf => hf.take count) h
  | finish j => exact hmodify j Pipe.finish (fun _ hf => hf) h

/-- A pipe that has come to its end stays as it is. -/
theorem PipeStep.keeps {pipes : List (Pipe Byte)} (P : PipeStep s p pipes) (hp : p ∈ s.procs)
    (h : s.pipes[i]? = some pipe) (hended : pipe.ended = true) (hbuffer : pipe.buffer = [])
    (hno : ¬s.Open (.writer i)) : pipes[i]? = some pipe := by
  cases P with
  | same => exact h
  | new => exact (List.getElem?_append_left (List.getElem?_eq_some_iff.mp h).1).trans h
  | write j bytes hwriter =>
    have hj : j ≠ i := fun hj => hno ⟨p, hp, hj ▸ hwriter⟩
    rwa [List.getElem?_modify_ne _ _ hj]
  | take j count =>
    rw [List.getElem?_modify, h]
    have htake : pipe.take count = pipe := by
      rw [Pipe.take, hbuffer, List.drop_nil, List.take_nil, List.append_nil, ← hbuffer]
    simp [htake]
  | finish j =>
    rw [List.getElem?_modify, h]
    have hfinish : pipe.finish = pipe := by
      rw [Pipe.finish, ← hended]
    simp [hfinish]

/-- A pipe comes to its end when it is empty and nobody writes to it. -/
theorem PipeStep.of_ended {pipes : List (Pipe Byte)} (P : PipeStep s p pipes)
    (h : pipes[i]? = some pipe) (hended : pipe.ended = true) :
    (∃ old, s.pipes[i]? = some old ∧ old.ended = true) ∨
      i < s.pipes.length ∧ pipe.buffer = [] ∧ ¬s.Open (.writer i) := by
  -- one pipe is changed by `f`, but does not end
  have hmodify : ∀ (j : ℕ) (f : Pipe Byte → Pipe Byte), (∀ pipe, (f pipe).ended = pipe.ended) →
      (s.pipes.modify j f)[i]? = some pipe → ∃ old, s.pipes[i]? = some old ∧ old.ended = true := by
    intro j f hf h
    rw [List.getElem?_modify, Option.map_eq_map, Option.map_eq_some_iff] at h
    obtain ⟨old, hold, rfl⟩ := h
    refine ⟨old, hold, ?_⟩
    split at hended
    · rwa [hf] at hended
    · exact hended
  cases P with
  | same => exact .inl ⟨pipe, h, hended⟩
  | new =>
    rcases Nat.lt_or_ge i s.pipes.length with hlt | hle
    · rw [List.getElem?_append_left hlt] at h
      exact .inl ⟨pipe, h, hended⟩
    · rw [List.getElem?_append_right hle] at h
      rw [List.mem_singleton.mp (List.mem_of_getElem? h)] at hended
      exact absurd hended Bool.false_ne_true
  | write j bytes _ => exact .inl (hmodify j (·.write bytes) (fun _ => rfl) h)
  | take j count => exact .inl (hmodify j (·.take count) (fun _ => rfl) h)
  | finish j hempty hno =>
    rw [List.getElem?_modify, Option.map_eq_map, Option.map_eq_some_iff] at h
    obtain ⟨old, hold, rfl⟩ := h
    split at hended
    · next hj =>
      subst hj
      rw [if_pos rfl]
      exact .inr ⟨(List.getElem?_eq_some_iff.mp hold).1, hempty old hold, hno⟩
    · exact .inl ⟨old, hold, hended⟩

/-! ## Runs -/

theorem System.Ok.forward (H : s.Ok) (F : Forward s s' pid p q cs)
    (P : PipeStep s p s'.pipes) : s'.Ok where
  procs x hx := (F.mem hx).elim (H.procs x) (F.ok x)
  roles := F.roles H P.length_le
  solo _ _ _ _ _ hx hy hxi hyi hscript := F.solo H hx hy hxi hyi hscript
  fifo _ _ h := P.fifo H.fifo h
  ended i pipe h hended := by
    rcases P.of_ended h hended with ⟨old, hold, hold_ended⟩ | ⟨hi, hbuffer, hno⟩
    · obtain ⟨hbuffer, hno⟩ := H.ended i old hold hold_ended
      have hkeep := P.keeps F.mem_before hold hold_ended hbuffer hno
      rw [hkeep] at h
      cases h
      exact ⟨hbuffer, F.not_open (List.getElem?_eq_some_iff.mp hold).1 hno⟩
    · exact ⟨hbuffer, F.not_open hi hno⟩

theorem System.Ok.step (H : s.Ok) {e : Event} (h : s.step e = some s') : s'.Ok := by
  obtain ⟨pid, p, q, cs, F, P⟩ := H.step_forward h
  exact H.forward F P

/-- Once its reader has been told the end, nothing happens to a pipe. -/
theorem System.Ok.step_ended (H : s.Ok) {e : Event} (h : s.step e = some s')
    (hpipe : s.pipes[i]? = some pipe) (hended : pipe.ended = true) :
    s'.pipes[i]? = some pipe := by
  obtain ⟨pid, p, q, cs, F, P⟩ := H.step_forward h
  obtain ⟨hbuffer, hno⟩ := H.ended i pipe hpipe hended
  exact P.keeps F.mem_before hpipe hended hbuffer hno

theorem System.Ok.run (H : s.Ok) {events : List Event} (h : s.run events = some s') : s'.Ok := by
  induction events generalizing s with
  | nil =>
    cases h
    exact H
  | cons e events ih =>
    obtain ⟨t, ht, h⟩ := Option.bind_eq_some_iff.mp h
    exact ih (H.step ht) h

theorem System.Ok.run_ended (H : s.Ok) {events : List Event} (h : s.run events = some s')
    (hpipe : s.pipes[i]? = some pipe) (hended : pipe.ended = true) :
    s'.pipes[i]? = some pipe := by
  induction events generalizing s with
  | nil =>
    cases h
    exact hpipe
  | cons e events ih =>
    obtain ⟨t, ht, h⟩ := Option.bind_eq_some_iff.mp h
    exact ih (H.step ht) h (H.step_ended ht hpipe hended)

theorem boot_ok : boot.Ok where
  procs p hp := by
    rw [List.mem_singleton.mp hp]
    exact .shell none
  roles p hp := by
    rw [List.mem_singleton.mp hp]
    trivial
  solo a b p q i hp _ hpi := by
    rw [List.mem_singleton.mp (List.mem_of_getElem? hp)] at hpi
    exact absurd hpi nofun
  fifo i pipe h := absurd h nofun
  ended i pipe h := absurd h nofun

/-- A read on the right is not blocked when there is nobody left on the left. -/
theorem System.Ok.released (H : s.Ok) (hp : s.procs[pid]? = some p) (hcode : p.code = .program)
    {fd : Fin FD_MAX} (hfd : p.fd_array fd = some (.reader i))
    (hgone : ∀ x ∈ s.procs, x.role = .left i → x.code = .gone) (count : ℕ) :
    s.step (.call pid (.read fd count)) ≠ none := by
  have hpok := H.procs p (List.mem_of_getElem? hp)
  have hpi : p.role = .right i := by
    cases hpok with
    | shell | script | gone => exact absurd hcode nofun
    | program hmay => exact hmay _ ⟨fd, hfd⟩
  have hlt : i < s.pipes.length := by
    have hbelow := H.roles p (List.mem_of_getElem? hp)
    rwa [hpi] at hbelow
  have hno : ¬s.Open (.writer i) := by
    rintro ⟨x, hx, hholds⟩
    have hxok := H.procs x hx
    rcases hxok.near hholds with hxi | hxi
    · -- on the left all are gone
      have hxgone := hgone x hx hxi
      cases hxok with
      | shell | script | program => exact absurd hxgone nofun
      | gone => exact Table.not_holds_empty hholds
    · -- on the right a program runs, so all processes there are programs
      obtain ⟨b, hb⟩ := List.mem_iff_getElem?.mp hx
      cases hxok with
      | shell => exact absurd hxi nofun
      | script =>
        obtain rfl := H.solo b pid _ p i hb hp hxi hpi ⟨_, rfl⟩
        rw [hb] at hp
        cases hp
        exact absurd hcode nofun
      | program hmay => exact absurd ((hmay _ hholds).symm.trans hxi) nofun
      | gone => exact Table.not_holds_empty hholds
  have hread : s.read p.fd_array fd count ≠ none := by
    simp only [System.read, hfd, List.getElem?_eq_getElem hlt, if_neg hno]
    split
    · exact Option.some_ne_none _
    · exact Option.some_ne_none _
  obtain ⟨pipes, hpipes⟩ := Option.ne_none_iff_exists'.mp hread
  have hstep : s.step (.call pid (.read fd count)) = some { s with pipes } := by
    rw [System.step, hp, Option.bind_eq_bind, Option.bind_some, hcode]
    change s.call pid p (.read fd count) = _
    rw [System.call, hpipes]
    rfl
  rw [hstep]
  exact Option.some_ne_none _

end

/-! ## What the shell brings about -/

/-- The pipes between the programs that the shell has started. -/
structure Plumbed (s : System) : Prop where
  /-- The shell has the console open, and no pipe. -/
  shell : ∀ p ∈ s.procs, ∀ waiting, p.code = .shell waiting → p.fd_array = shellFiles
  /-- A program starts with the descriptors of its side. -/
  start : ∀ p ∈ s.procs, ∀ image, p.code = .script (.execv image) → p.fd_array = p.role.files
  /-- A program reads only from the pipe on its left, and writes only to the one on its right. -/
  sides : ∀ p ∈ s.procs, p.code = .program → ∀ f, p.fd_array.Holds f → p.role.May f
  order : ∀ pipe ∈ s.pipes, pipe.read <+: pipe.written
  /-- When a reader has been told the end, it has been given all there will ever be. -/
  complete : ∀ (i : ℕ) (pipe : Pipe Byte), s.pipes[i]? = some pipe → pipe.ended = true →
    pipe.read = pipe.written ∧
      ∀ events s', s.run events = some s' → s'.pipes[i]? = some pipe
  /-- Nobody waits for a side that has gone. -/
  released : ∀ pid p fd i, s.procs[pid]? = some p → p.code = .program →
    p.fd_array fd = some (.reader i) → (∀ x ∈ s.procs, x.role = .left i → x.code = .gone) →
    ∀ count, s.step (.call pid (.read fd count)) ≠ none

theorem System.Ok.plumbed (H : s.Ok) : Plumbed s where
  shell p hp waiting hcode := by
    cases H.procs p hp with
    | shell => rfl
    | script | program | gone => exact absurd hcode nofun
  start p hp image hcode := by
    cases H.procs p hp with
    | shell | program | gone => exact absurd hcode nofun
    | script hready =>
      cases hcode
      cases hready with
      | plain _ hfinal => exact hfinal
  sides p hp hcode f hf := by
    cases H.procs p hp with
    | shell | script | gone => exact absurd hcode nofun
    | program hmay => exact hmay f hf
  order pipe hpipe := by
    obtain ⟨i, hi⟩ := List.mem_iff_getElem?.mp hpipe
    exact ⟨pipe.buffer, (H.fifo i pipe hi).symm⟩
  complete i pipe h hended := by
    refine ⟨?_, fun events s' hrun => H.run_ended hrun h hended⟩
    have hfifo : pipe.written = pipe.read ++ pipe.buffer := H.fifo i pipe h
    rw [hfifo, (H.ended i pipe h hended).1, List.append_nil]
  released pid p fd i hp hcode hfd hgone count := H.released hp hcode hfd hgone count

/-- Whatever lines are typed and whatever the programs do, in any order. -/
theorem run_plumbed {events : List Event} (h : boot.run events = some s) : Plumbed s :=
  (boot_ok.run h).plumbed

/-! ## A run -/

/-- Two programs. -/
def twoPrograms : Line := ⟨ascii "ls | cat", by decide⟩

theorem one_lt_ARGS_MAX : 1 < ARGS_MAX := by decide

/-- A program that is called without arguments. -/
def plainImage (name : List Byte) : Exec where
  filename := name ++ ascii ".elf"
  argv := ((Vector.replicate ARGS_MAX Slot.uninitialised).set 0 (.arg name) ARGS_MAX_pos).set
    1 .null one_lt_ARGS_MAX

def lsImage : Exec := plainImage (ascii "ls")

def catImage : Exec := plainImage (ascii "cat")

theorem round_twoPrograms :
    round twoPrograms = some (.piped (some lsImage) (some catImage) false) := by
  have hwords : twoPrograms.words = [ascii "ls", bar, ascii "cat"] := by decide
  rw [round_eq hwords (by rw [hwords]; decide)]
  rfl

def twoEvents : List Event :=
  [.script 1 true, .script 1 true, .script 2 true, .script 2 true, .script 2 true, .script 1 true,
    .script 1 true, .script 1 true, .call 2 (.write STDOUT (ascii "a")), .call 2 .exit,
    .call 1 (.read STDIN 80), .call 1 (.read STDIN 80), .call 1 .exit, .wait]

/-- The left program writes a byte, and the right one reads to the end. -/
theorem run_plumbed_two : ∃ s, boot.run (.line twoPrograms :: twoEvents) = some s ∧
    s.pipes = [{ written := ascii "a", read := ascii "a", ended := true }] ∧ Plumbed s := by
  have hline : boot.step (.line twoPrograms) = some (boot.launch ⟨shellFiles, .shell none, .alone⟩
      (pipeline (some lsImage) (some catImage)) false) := by
    simp only [System.step, round_twoPrograms]
    rfl
  have hrun : ((boot.launch ⟨shellFiles, .shell none, .alone⟩
      (pipeline (some lsImage) (some catImage)) false).run twoEvents).map System.pipes =
        some [{ written := ascii "a", read := ascii "a", ended := true }] := by decide +kernel
  obtain ⟨s, hs, hpipes⟩ := Option.map_eq_some_iff.mp hrun
  have hall : boot.run (.line twoPrograms :: twoEvents) = some s := by
    rw [System.run, List.foldlM_cons, hline, Option.bind_eq_bind, Option.bind_some]
    exact hs
  exact ⟨s, hall, hpipes, run_plumbed hall⟩
end SyeLabs.Shell
