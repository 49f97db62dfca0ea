import Cush.Lib.Lts
import Cush.Shell.Verify.Moves

/-!
# Signal masks and the spawn loop

Two invariants of all runs that the others rest on. `SIGCHLD` is blocked while the handler runs and
between `signal_block` and `signal_unblock` in the main program, and nowhere else: the handler never
interrupts the spawn loop, and no status is handled while `SIGCHLD` is not blocked. In the spawn
loop the job is in the table, and the variables of `handle_job` agree with it.
-/

namespace Cush

/-- Whether the main program blocks `SIGCHLD`. -/
def Pc.blocks : Pc → Bool
  | .addJob .. | .setUp _ | .spawn .. | .closeFds .. | .waitForJob _ | .unblockSigchld => true
  | _ => false

/-- The variables of the spawn loop. -/
def Pc.spawning : Pc → Option SpawnCtx
  | .setUp ctx | .spawn ctx _ => some ctx
  | _ => none

namespace State

structure Masked (s : State) : Prop where
  handler : ∀ {m}, s.handler = some m →
    s.mask.sigchld = true ∧ m.sigchld = false ∧ s.pc.blocks = false
  main : s.handler = none → s.pc.live = true → s.mask.sigchld = s.pc.blocks

/-- What `handle_job` knows of the job it spawns. -/
structure Agrees (ctx : SpawnCtx) (job : Job) : Prop where
  pipe : job.pipe = ctx.node
  pids : job.pids = [] ↔ ctx.spawned = []
  pgid : job.pgid = ctx.pgid
  zero : ctx.pgid = 0 ↔ ctx.spawned = []
  commands : ctx.spawned ++ ctx.todo = ctx.node.pipe.commands

def Spawning (s : State) : Prop :=
  ∀ ctx, s.pc.spawning = some ctx → ∃ job, s.jid2job.get ctx.jid = some job ∧ Agrees ctx job

variable {s t : State} {e : Event}

/-! ## Masks -/

theorem Masked.of_main (hh : t.handler = none) (hb : t.mask.sigchld = t.pc.blocks) : t.Masked :=
  ⟨fun hm => (nomatch hh.symm.trans hm), fun _ _ => hb⟩

theorem Masked.of_dead (hh : t.handler = none) (hd : t.pc.live = false) : t.Masked :=
  ⟨fun hm => (nomatch hh.symm.trans hm), fun _ hl => (nomatch hd.symm.trans hl)⟩

theorem DispatchTo.blocks {jid2job : SlotTable Job} {node : PipeNode} {pc : Pc}
    (h : DispatchTo jid2job node pc) : pc.blocks = false := by
  cases h <;> rfl

/-- A status is handled in the handler or in `wait_for_job`. -/
theorem Masked.waiting (h : s.Masked) {pid : Pid} (hw : s.Waiting e pid) :
    (s.handler.isSome = true ∧ s.pc.blocks = false) ∨
      (s.handler = none ∧ ∃ jid, s.pc = .waitForJob jid) := by
  cases e with
  | reap =>
    obtain ⟨m, hm⟩ := Option.isSome_iff_exists.1 hw.2
    exact Or.inl ⟨hw.2, (h.handler hm).2.2⟩
  | waitpid =>
    obtain ⟨-, hh, jid, -, hp, -⟩ := hw
    exact Or.inr ⟨hh, jid, hp⟩
  | _ => cases hw

/-- `SIGCHLD` is blocked where a status is handled. -/
theorem Masked.sigchld (h : s.Masked) {pid : Pid} (hw : s.Waiting e pid) :
    s.mask.sigchld = true := by
  rcases h.waiting hw with ⟨hh, -⟩ | ⟨hh, jid, hp⟩
  · obtain ⟨m, hm⟩ := Option.isSome_iff_exists.1 hh
    exact (h.handler hm).1
  · have hb := h.main hh (by rw [hp]; rfl)
    rw [hb, hp]
    rfl

theorem Waiting.event {pid : Pid} (h : s.Waiting e pid) : e = .reap pid ∨ e = .waitpid pid := by
  cases e with
  | reap =>
    obtain ⟨rfl, -⟩ := h
    exact Or.inl rfl
  | waitpid =>
    obtain ⟨rfl, -⟩ := h
    exact Or.inr rfl
  | _ => cases h

theorem Waiting.unique {pid pid' : Pid} (h : s.Waiting e pid) (h' : s.Waiting e pid') :
    pid' = pid := by
  cases e with
  | reap | waitpid => exact h'.1.symm.trans h.1
  | _ => cases h

/-- Where a status is taken up. -/
theorem waiting_of_step {pid : Pid} (hs : step s e = some t)
    (he : e = .reap pid ∨ e = .waitpid pid) : s.Waiting e pid := by
  cases (step_move hs).2 with
  | handled out hwait | lost hwait | unblocked hwait =>
    rcases he with rfl | rfl
    · obtain ⟨rfl, hh⟩ := hwait
      exact ⟨rfl, hh⟩
    · obtain ⟨rfl, hrest⟩ := hwait
      exact ⟨rfl, hrest⟩
  | crash hh o ds out tty hrf hmain | abort hh sc hist m o hrf hmain =>
    rcases he with rfl | rfl <;> cases hmain
  | _ => rcases he with he | he <;> cases he

/-- The status of a child whose job is found is handled. -/
theorem Waiting.handled {pid jid : Nat} {job : Job} (h : s.Waiting e pid) (hM : s.Masked)
    (hs : step s e = some t) (hj : getJobFromPid s.jid2job pid = some jid)
    (hg : s.jid2job.get jid = some job) :
    ∃ status procs out, waitpid s.procs pid = some (status, procs) ∧ t =
      { s with procs, out, jid2job := s.jid2job.set jid (some (job.handled s.ttyAttr status)),
               ttyPgrp := if job.givesBack status then s.shellPgrp else s.ttyPgrp,
               ttyAttr := if job.givesBack status then s.savedTtyState else s.ttyAttr,
               mask := ⟨true, if job.givesBack status then false else s.mask.sigttou⟩ } := by
  cases (step_move hs).2 with
  | handled out hwait hm hw hj' hg' =>
    cases h.unique hwait
    cases hj.symm.trans hj'
    cases hg.symm.trans hg'
    exact ⟨_, _, out, hw, rfl⟩
  | lost hwait hw hj' =>
    cases h.unique hwait
    cases hj.symm.trans hj'
  | unblocked hwait hw hm =>
    rw [hM.sigchld h] at hm
    cases hm
  | crash hh o ds out tty hrf he | abort hh sc hist m o hrf he =>
    rcases h.event with rfl | rfl <;> cases he
  | _ => cases h

theorem Masked.move (h : s.Masked) (hl : s.pc.live = true) (hm : Move s e t) : t.Masked := by
  cases hm with
  | child | sigchld | setAttr | others => exact ⟨h.handler, h.main⟩
  | handlerStart hh hm =>
    have hb := h.main hh hl
    refine ⟨fun he => ?_, fun he => nomatch he⟩
    cases he
    exact ⟨rfl, hm, hb ▸ hm⟩
  | handlerReturn hh hr =>
    obtain ⟨-, hm, hb⟩ := h.handler hh
    exact .of_main rfl (hm.trans hb.symm)
  | handled out hwait hm hw hj hg =>
    refine ⟨fun hm => ?_, fun hh _ => ?_⟩
    · exact ⟨rfl, (h.handler hm).2⟩
    · rcases h.waiting hwait with ⟨hs, -⟩ | ⟨-, jid, hp⟩
      · rw [hh] at hs
        cases hs
      · exact (congrArg Pc.blocks hp).symm
  | lost hwait hw hj =>
    exact ⟨fun hm => ⟨(h.handler hm).1, (h.handler hm).2.1, rfl⟩, fun _ hl => nomatch hl⟩
  | unblocked hwait hw hm =>
    exact ⟨fun hm => ⟨(h.handler hm).1, (h.handler hm).2.1, rfl⟩, fun _ hl => nomatch hl⟩
  | eof hh | crash hh | abort hh | waitFatal hh | giveFatal hh => exact .of_dead hh rfl
  | dispatch out hh hp hl' ht =>
    have hb := h.main hh hl
    rw [hp] at hb
    exact .of_main hh (hb.trans ht.blocks.symm)
  | @deadEnd i exiting hh hp =>
    have hb := h.main hh hl
    rw [hp] at hb
    cases exiting with
    | true => exact .of_dead hh rfl
    | false => exact .of_main hh hb
  | lineEmpty out hh => exact .of_main hh (h.main hh hl)
  | fgBlock hh | blockSigchld hh | unblockSigchld hh => exact .of_main hh rfl
  | _ =>
    have hh : s.handler = none := by assumption
    have hb := h.main hh hl
    rw [‹s.pc = _›] at hb
    exact .of_main hh hb

/-! ## The spawn loop -/

theorem DispatchTo.spawning {jid2job : SlotTable Job} {node : PipeNode} {pc : Pc}
    (h : DispatchTo jid2job node pc) : pc.spawning = none := by
  cases h <;> rfl

theorem Spawning.of_none (h : t.pc.spawning = none) : t.Spawning :=
  fun _ hc => nomatch h.symm.trans hc

/-- In the spawn loop no status is handled. -/
theorem Masked.spawning (h : s.Masked) {pid : Pid} (hw : s.Waiting e pid) :
    s.pc.spawning = none := by
  rcases h.waiting hw with ⟨-, hb⟩ | ⟨-, jid, hp⟩
  · cases hp : s.pc with
    | setUp ctx | spawn ctx fa =>
      rw [hp] at hb
      cases hb
    | _ => rfl
  · rw [hp]
    rfl

theorem freshPid_ne_zero {pid : Pid} (h : s.freshPid pid = true) : pid ≠ 0 := by
  rintro rfl
  simp [freshPid] at h

/-- A spawned process is entered under the variables of the loop. -/
theorem Agrees.spawned {ctx : SpawnCtx} {job : Job} {cmd : AstCommand} {rest : List AstCommand}
    {pid : Pid} (h : Agrees ctx job) (ht : ctx.todo = cmd :: rest) (hne : pid ≠ 0) :
    Agrees
      { ctx with spawned := ctx.spawned ++ [cmd], todo := rest,
                 pgid := if ctx.spawned.isEmpty then pid else ctx.pgid,
                 leader := if ctx.spawned.isEmpty then false else ctx.leader }
      { job with pgid := if ctx.spawned.isEmpty then pid else job.pgid, pids := job.pids ++ [pid],
                 numProcessesAlive := job.numProcessesAlive + 1 } := by
  constructor
  · exact h.pipe
  · simp
  · change (if _ then _ else _) = (if _ then _ else _)
    rw [h.pgid]
  · cases hs : ctx.spawned with
    | nil => simpa using hne
    | cons x xs =>
      have hz : ctx.pgid ≠ 0 := fun hz => by simpa [hs] using h.zero.1 hz
      simpa using hz
  · have hc := h.commands
    rw [ht] at hc
    simpa using hc

theorem Spawning.move (h : s.Spawning) (hM : s.Masked) (hm : Move s e t) : t.Spawning := by
  cases hm with
  | child | sigchld | setAttr | others | handlerStart | handlerReturn | lineEmpty => exact h
  | handled out hwait => exact .of_none (hM.spawning hwait)
  | dispatch out hh hp hl ht => exact .of_none ht.spawning
  | @deadEnd i exiting hh hp => cases exiting <;> exact .of_none rfl
  | @addJob node fds jid job hh hp hj hlt hjob =>
    intro ctx hc
    cases hc
    refine ⟨job, SlotTable.get_set_self _ _ _, ?_⟩
    subst hjob
    exact ⟨rfl, by simp, rfl, by simp, rfl⟩
  | @setUp ctx cmd rest mem fa fdIndex hh hp ht hs =>
    intro ctx' hc
    cases hc
    obtain ⟨job, hg, ha⟩ := h ctx (by rw [hp]; rfl)
    exact ⟨job, hg, ha.pipe, ha.pids, ha.pgid, ha.zero, ha.commands⟩
  | @spawned ctx fa cmd rest job pid hh hp ht hg hf he =>
    intro ctx' hc
    cases hc
    obtain ⟨job', hg', ha⟩ := h ctx (by rw [hp]; rfl)
    exact ⟨_, SlotTable.get_modify_self hg' _, ha.spawned ht (freshPid_ne_zero hf)⟩
  | _ => exact .of_none rfl

/-! ## Where the shell ends -/

theorem DispatchTo.live {jid2job : SlotTable Job} {node : PipeNode} {pc : Pc}
    (h : DispatchTo jid2job node pc) : pc.live = true := by
  cases h <;> rfl

end State

open State in
/-- The calls of `utils_fatal_error`. -/
theorem Move.fatal {s t : State} {e : Event} (hm : Move s e t) (hl : s.pc.live = true)
    {x : FatalError} (h : t.pc = .fatal x) :
    (x = .waitpid ∧ ∃ jid job, s.pc = .waitForJob jid ∧ s.jid2job.get jid = some job ∧
        keepsWaiting job = true ∧ s.procs = []) ∨
      (x = .tcsetpgrp ∧ ∃ jid pgrp, s.pc = .give .setPgrp (.job jid pgrp) ∧
        s.groupExists pgrp = false) := by
  have dead : ∀ {pc : Pc}, pc.live = true → pc ≠ .fatal x := by
    rintro pc hlive rfl
    cases hlive
  cases hm with
  | child | sigchld | setAttr | others | handlerStart | handlerReturn | handled | lineEmpty =>
    exact absurd h (dead hl)
  | dispatch out hh hp hl ht => exact absurd h (dead ht.live)
  | @deadEnd i exiting hh hp => cases exiting <;> cases h
  | waitFatal hh hp hg hk hn =>
    cases h
    exact Or.inl ⟨rfl, _, _, hp, hg, hk, hn⟩
  | giveFatal hh hp hg =>
    cases h
    exact Or.inr ⟨rfl, _, _, hp, hg⟩
  | _ => cases h

/-! ## Every run -/

namespace State

variable {s t : State}

theorem Masked.init {s : State} (h : s.Initial) : s.Masked := by
  obtain ⟨shellPgrp, attr, openMax, -, rfl⟩ := h
  exact .of_main rfl rfl

theorem Spawning.init {s : State} (h : s.Initial) : s.Spawning := by
  obtain ⟨shellPgrp, attr, openMax, -, rfl⟩ := h
  exact .of_none rfl

/-- A run of the shell whose steps meet `ok`. -/
abbrev Run (ok : State → Event → Bool) : State → Prop :=
  Lts.Reach step (fun s e => ok s e = true) State.Initial

/-- The runs from a state, with the states passed. -/
abbrev Path (ok : State → Event → Bool) : State → List (State × Event) → State → Prop :=
  Lts.Path step fun s e => ok s e = true

variable {ok : State → Event → Bool}

theorem Run.masked (hr : Run ok s) : s.Masked :=
  Lts.Reach.invariant (I := State.Masked) (fun _ => Masked.init)
    (fun _ _ _ _ hI _ hs => hI.move (step_move hs).1 (step_move hs).2) hr

theorem Run.spawning (hr : Run ok s) : s.Spawning :=
  Lts.Reach.invariant (I := State.Spawning) (fun _ => Spawning.init)
    (fun _ _ _ hr hI _ hs => hI.move (Run.masked hr) (step_move hs).2) hr

/-- A run under two guards is a run under the first. -/
theorem Run.left {ok' : State → Event → Bool} (hr : Run (fun s e => ok s e && ok' s e) s) :
    Run ok s :=
  Lts.Reach.mono (fun _ _ h => (Bool.and_eq_true_iff.1 h).1) hr

/-- A list of events that evaluates is a run. -/
theorem Run.exec {shellPgrp : Pid} {attr : Termios} {openMax : OpenMax} {es : List Event}
    (hp : 0 < shellPgrp) (h : Lts.exec step ok (State.init shellPgrp attr openMax) es = some s) :
    Run ok s :=
  Lts.exec_reach (fun _ _ hg => hg) (.init ⟨shellPgrp, attr, openMax, hp, rfl⟩) h

theorem Path.record {es : List Event} (h : Lts.exec step ok s es = some t) :
    Path ok s (Lts.record step s es) t :=
  Lts.exec_path (fun _ _ hg => hg) .nil h

theorem Path.exec {es : List Event} (h : Lts.exec step ok s es = some t) :
    ∃ l, Path ok s l t :=
  ⟨_, Path.record h⟩

end State

end Cush
