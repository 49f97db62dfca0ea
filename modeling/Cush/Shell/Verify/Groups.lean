import Cush.Shell.Verify.Books

/-!
# The process groups that builtins signal

`kill`, `stop`, `fg` and `bg` look up a job and then send its process group a signal or give it the
terminal, some steps later. The group still has a process of the job if the job had one when it was
looked up, and the handler does not reap the last one in between. Pids may be reused at will: the
soundness of the ledger is enough.
-/

namespace Cush

open ProcessLedger

/-- The job that a builtin has looked up and is still going to send a signal or give the terminal.
-/
def Pc.target : Pc → Option Nat
  | .killpg jid _ | .fgStatus jid | .fgCont jid | .bgStatus jid | .bgCont jid => some jid
  | .give .block (.job jid _) | .give .setPgrp (.job jid _) => some jid
  | _ => none

namespace State

variable {s t : State} {e : Event}

/-- Whether one of the processes was spawned by a job of the table. -/
def hasProcess (jid2job : SlotTable Job) (procs : List Proc) (jid : Nat) : Bool :=
  (jid2job.get jid).any fun job => procs.any fun p => p.owner = job.serial

/-- A builtin that looks up a job finds one with a process, and the handler does not reap the last
process of a job that a builtin is still going to act on. -/
def namesUnfinished (s : State) : Event → Bool
  | .main =>
    if s.pc = .dispatch then
      (s.line.head?.bind fun node => namedJob s.jid2job node.pipe).all
        (hasProcess s.jid2job s.procs)
    else true
  | .reap pid =>
    s.pc.target.all fun jid => (waitpid s.procs pid).all fun r => hasProcess s.jid2job r.2 jid
  | _ => true

/-- The job a builtin acts on has a process, and `fg` holds the group of the job. -/
structure Target (s : State) (jid : Nat) (job : Job) : Prop where
  get : s.jid2job.get jid = some job
  process : ∃ p ∈ s.procs, p.owner = job.serial
  pgid : ∀ {stage pgrp}, s.pc = .give stage (.job jid pgrp) → pgrp = job.pgid

def Targeted (s : State) : Prop :=
  ∀ jid, s.pc.target = some jid → ∃ job, s.Target jid job

theorem hasProcess_iff {jid2job : SlotTable Job} {procs : List Proc} {jid : Nat} :
    hasProcess jid2job procs jid = true ↔
      ∃ job, jid2job.get jid = some job ∧ ∃ p ∈ procs, p.owner = job.serial := by
  unfold hasProcess
  cases jid2job.get jid with
  | none => simp
  | some job => simp

/-- A child of a job is still there if the children are the same. -/
theorem process_of_child {procs procs' : List Proc} {serial : Nat}
    (h : procs'.map Proc.child = procs.map Proc.child) (hp : ∃ p ∈ procs, p.owner = serial) :
    ∃ p ∈ procs', p.owner = serial := by
  obtain ⟨p, hmem, ho⟩ := hp
  have hc : p.child ∈ procs'.map Proc.child := h ▸ List.mem_map_of_mem hmem
  obtain ⟨q, hq, he⟩ := List.mem_map.1 hc
  exact ⟨q, hq, (congrArg Child.owner he).trans ho⟩

theorem Targeted.of_none (h : t.pc.target = none) : t.Targeted :=
  fun _ hj => nomatch h.symm.trans hj

/-- A step that keeps the job and its children. -/
theorem Target.keep {jid : Nat} {job job' : Job} (h : s.Target jid job)
    (ht : t.pc.target = some jid) (hg : t.jid2job.get jid = some job')
    (hserial : job'.serial = job.serial) (hpgid : job'.pgid = job.pgid)
    (hc : t.procs.map Proc.child = s.procs.map Proc.child)
    (hpc : ∀ {stage pgrp}, t.pc = .give stage (.job jid pgrp) → pgrp = job.pgid) : t.Targeted := by
  intro jid' hj
  cases ht.symm.trans hj
  refine ⟨job', hg, ?_, fun hp => (hpc hp).trans hpgid.symm⟩
  rw [hserial]
  exact process_of_child hc h.process

/-- The guard where a builtin is dispatched. -/
theorem namesUnfinished_dispatch (hg : s.namesUnfinished .main = true) (hp : s.pc = .dispatch)
    {node : PipeNode} {rest : List PipeNode} (hl : s.line = node :: rest) {jid : Nat}
    (hn : namedJob s.jid2job node.pipe = some jid) : hasProcess s.jid2job s.procs jid = true := by
  unfold namesUnfinished at hg
  dsimp only at hg
  rw [if_pos hp, hl, List.head?_cons, Option.bind_some, hn, Option.all_some] at hg
  exact hg

/-- The guard where the handler takes up a status. -/
theorem namesUnfinished_reap {pid : Pid} {status : WaitStatus} {procs : List Proc}
    (hg : s.namesUnfinished e = true) (hwait : s.Waiting e pid)
    (hw : waitpid s.procs pid = some (status, procs)) {jid : Nat} (hj : s.pc.target = some jid) :
    hasProcess s.jid2job procs jid = true := by
  cases e with
  | reap pid' =>
    obtain ⟨rfl, -⟩ := hwait
    unfold namesUnfinished at hg
    dsimp only at hg
    rw [hj, Option.all_some, hw, Option.all_some] at hg
    exact hg
  | waitpid pid' =>
    obtain ⟨-, -, jid', job, hp, -⟩ := hwait
    rw [hp] at hj
    cases hj
  | _ => cases hwait

theorem Targeted.move (h : s.Targeted) (hn : (s.procs.map Proc.pid).Nodup)
    (hg : s.namesUnfinished e = true) (hm : Move s e t) : t.Targeted := by
  cases hm with
  | sigchld | setAttr | others | handlerStart | handlerReturn | lineEmpty =>
    exact fun jid hj => (h jid hj).imp fun job hT => ⟨hT.get, hT.process, hT.pgid⟩
  | child hc =>
    intro jid hj
    obtain ⟨job, hT⟩ := h jid hj
    exact ⟨job, hT.get, process_of_child (changeProc_child hn hc) hT.process, hT.pgid⟩
  | @handled e pid status procs jid' job' out hwait hm hw hj' hg' =>
    intro jid hj
    obtain ⟨job, hT⟩ := h jid hj
    obtain ⟨job₁, hget, hp⟩ := hasProcess_iff.1 (namesUnfinished_reap hg hwait hw hj)
    obtain rfl : job = job₁ := Option.some.inj (hT.get.symm.trans hget)
    by_cases hjid : jid = jid'
    · subst hjid
      obtain rfl : job = job' := Option.some.inj (hget.symm.trans hg')
      refine ⟨_, SlotTable.get_set_self _ _ _, ?_, fun hpc => ?_⟩
      · rw [Job.handled_serial]
        exact hp
      · rw [Job.handled_pgid]
        exact hT.pgid hpc
    · exact ⟨job, (SlotTable.get_set_ne _ hjid _).trans hget, hp, hT.pgid⟩
  | @dispatch node rest pc out hh hp hl ht =>
    intro jid hj
    have named : namedJob s.jid2job node.pipe = some jid ∧ ∀ stage x, pc ≠ .give stage x := by
      cases ht with
      | killpg sig hn' | fg hn' | bg hn' =>
        cases hj
        exact ⟨hn', fun _ _ h => nomatch h⟩
      | _ => cases hj
    obtain ⟨job, hget, hproc⟩ := hasProcess_iff.1 (namesUnfinished_dispatch hg hp hl named.1)
    exact ⟨job, hget, hproc, fun hpc => absurd hpc (named.2 _ _)⟩
  | @fgStatus jid hh hp | @bgStatus jid hh hp =>
    obtain ⟨job, hT⟩ := h jid (by rw [hp]; rfl)
    exact hT.keep rfl (SlotTable.get_modify_self hT.get _) rfl rfl rfl fun hpc => nomatch hpc
  | @fgCont jid job pending hh hp hg' =>
    obtain ⟨job', hT⟩ := h jid (by rw [hp]; rfl)
    cases hT.get.symm.trans hg'
    refine hT.keep rfl hg' rfl rfl (killpg_child _ _ _) fun hpc => ?_
    cases hpc
    rfl
  | @giveBlock target hh hp =>
    cases target with
    | job jid pgrp =>
      obtain ⟨job, hT⟩ := h jid (by rw [hp]; rfl)
      refine hT.keep rfl hT.get rfl rfl rfl fun hpc => ?_
      cases hpc
      exact hT.pgid hp
    | shell => exact .of_none rfl
  | @deadEnd i exiting hh hp => cases exiting <;> exact .of_none rfl
  | _ => exact .of_none rfl

theorem Targeted.init {s : State} (h : s.Initial) : s.Targeted := by
  obtain ⟨shellPgrp, attr, openMax, -, rfl⟩ := h
  exact .of_none rfl

theorem Run.targeted (hr : Run namesUnfinished s) : s.Targeted :=
  Lts.Reach.invariant (I := State.Targeted) (fun _ => Targeted.init)
    (fun _ _ _ hr hI hg hs => hI.move (Sound.pids (Run.sound hr)) hg (step_move hs).2) hr

/-- The group of a job that has a process is the group of that process. -/
theorem Target.group {jid : Nat} {job : Job} (h : s.Target jid job) (hs : s.ledger.Sound) :
    ∃ p ∈ s.procs, p.owner = job.serial ∧ p.pgid = job.pgid := by
  obtain ⟨p, hp, ho⟩ := h.process
  exact ⟨p, hp, ho, (hs.recorded _ (children_mem hp) (account_of_get h.get) ho.symm).2⟩

/-- Where a step calls `killpg`. -/
theorem killpg_step {pgrp : Pid} {sig : Signal} (hm : Move s e t)
    (hk : t.killed = s.killed ++ [(pgrp, sig)]) :
    ∃ jid job, s.pc.target = some jid ∧ s.jid2job.get jid = some job ∧ job.pgid = pgrp := by
  have same : t.killed = s.killed → False := fun he => by simp [he] at hk
  cases hm with
  | @killpg jid _ job _ hh hp hg | @fgCont jid job _ hh hp hg | @bgCont jid job _ hh hp hg =>
    have hpair := List.append_cancel_left hk
    cases hpair
    exact ⟨jid, job, by rw [hp]; rfl, hg, rfl⟩
  | _ => exact absurd rfl fun he => same he

/-- **A builtin signals the group of its own job**, in every run in which it names a job with a
process, and the handler does not reap the last one before the builtin has done its part: the group
passed to `killpg` or to `termstate_give_terminal_to` is that of a process of the job that has not
been reaped. So `tcsetpgrp` does not fail. -/
theorem namesUnfinished_run (hr : Run namesUnfinished s) :
    (∀ e t pgrp sig, step s e = some t → t.killed = s.killed ++ [(pgrp, sig)] →
      ∃ jid job, s.pc.target = some jid ∧ s.jid2job.get jid = some job ∧
        ∃ p ∈ s.procs, p.owner = job.serial ∧ p.pgid = pgrp) ∧
    (∀ stage jid pgrp, s.pc = .give stage (.job jid pgrp) → stage = .block ∨ stage = .setPgrp →
      ∃ job, s.jid2job.get jid = some job ∧ ∃ p ∈ s.procs, p.owner = job.serial ∧ p.pgid = pgrp) ∧
    s.pc ≠ .fatal .tcsetpgrp := by
  refine ⟨fun e t pgrp sig hs hk => ?_, fun stage jid pgrp hp hstage => ?_, ?_⟩
  · obtain ⟨jid, job, hj, hg, rfl⟩ := killpg_step (step_move hs).2 hk
    obtain ⟨job', hT⟩ := hr.targeted jid hj
    obtain rfl : job = job' := Option.some.inj (hg.symm.trans hT.get)
    exact ⟨jid, job, hj, hg, hT.group hr.sound⟩
  · have hj : s.pc.target = some jid := by
      rcases hstage with rfl | rfl <;> rw [hp] <;> rfl
    obtain ⟨job, hT⟩ := hr.targeted jid hj
    rw [hT.pgid hp]
    exact ⟨job, hT.get, hT.group hr.sound⟩
  · refine Lts.Reach.invariant (I := fun s => s.pc ≠ .fatal .tcsetpgrp) ?_ ?_ hr
    · rintro s ⟨shellPgrp, attr, openMax, -, rfl⟩ h
      cases h
    · intro s e t hr _ _ hs hf
      obtain ⟨hl, hm⟩ := step_move hs
      rcases hm.fatal hl hf with ⟨hx, -⟩ | ⟨-, jid, pgrp, hp, hgone⟩
      · cases hx
      · obtain ⟨job, hT⟩ := Run.targeted hr jid (by rw [hp]; rfl)
        obtain ⟨p, hmem, -, hpgid⟩ := hT.group (Run.sound hr)
        have hgroup : s.groupExists pgrp = true := by
          have hany : s.procs.any (fun p => p.pgid = pgrp) = true :=
            List.any_eq_true.2 ⟨p, hmem, decide_eq_true (hpgid.trans (hT.pgid hp).symm)⟩
          unfold groupExists
          rw [hany, Bool.or_true, Bool.true_or]
        rw [hgroup] at hgone
        cases hgone

/-- A job is started in the background. -/
def startBackground : List Event :=
  [.line ['s', '&'], .main, .main, .main, .main, .setUp fun _ => 0, .spawned 100] ++
    List.replicate 11 .main

/-- `fg 1`, up to the call of `tcsetpgrp`. -/
def resumeFirst : List Event :=
  .line ['f', 'g', ' ', '1'] :: List.replicate 4 .main

theorem namesUnfinished_run_fg : ∃ s,
    Lts.exec step namesUnfinished (State.init 50 7 .usual) (startBackground ++ resumeFirst) =
      some s ∧ s.pc = .give .setPgrp (.job 1 100) ∧
      ∃ job, s.jid2job.get 1 = some job ∧ ∃ p ∈ s.procs, p.owner = job.serial ∧ p.pgid = 100 := by
  have hrun : (Lts.exec step namesUnfinished (State.init 50 7 .usual)
      (startBackground ++ resumeFirst)).map State.pc = some (.give .setPgrp (.job 1 100)) := by
    decide
  obtain ⟨s, hs, hp⟩ := Option.map_eq_some_iff.1 hrun
  exact ⟨s, hs, hp, (namesUnfinished_run (Run.exec (by decide) hs)).2.1 .setPgrp 1 100 hp
    (Or.inr rfl)⟩

/-- `fg` names a job whose process has been reaped at the prompt: its group has no process, and the
shell ends. -/
theorem namesUnfinished_finished : ∃ s t, Run (fun _ _ => true) s ∧
    s.pc = .give .setPgrp (.job 1 100) ∧ s.procs = [] ∧ step s .main = some t ∧
      t.pc = .fatal .tcsetpgrp := by
  have hrun : ((Lts.exec step (fun _ _ => true) (State.init 50 7 .usual)
      (startBackground ++ [.child 100 (.exit 0), .sigchldHandler, .reap 100, .handlerReturn] ++
        resumeFirst)).bind fun s => (step s .main).map fun t => (s.pc, s.procs, t.pc)) =
      some (.give .setPgrp (.job 1 100), [], .fatal .tcsetpgrp) := by
    decide
  obtain ⟨s, hs, hstep⟩ := Option.bind_eq_some_iff.1 hrun
  obtain ⟨t, ht, he⟩ := Option.map_eq_some_iff.1 hstep
  simp only [Prod.mk.injEq] at he
  exact ⟨s, t, Run.exec (by decide) hs, he.1, he.2.1, ht, he.2.2⟩

end State

end Cush
