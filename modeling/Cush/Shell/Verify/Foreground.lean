import Cush.Shell.Verify.Notices

/-!
# The job in the foreground

From `add_job` or from `fg` on until `wait_for_job` is through, the main program works on one job.
No other job is `FOREGROUND` and counts a process: `handle_child_status` makes no job `FOREGROUND`,
and `wait_for_job` returns when its job no longer is, or counts no process.
-/

namespace Cush

/-- The job that the main program runs in the foreground, or is spawning. -/
def Pc.onJob : Pc → Option Nat
  | .setUp ctx | .spawn ctx _ => some ctx.jid
  | .closeFds _ jid _ false => some jid
  | .waitForJob jid | .fgCont jid | .fgBlock jid => some jid
  | .give _ (.job jid _) => some jid
  | _ => none

/-- The job that the main program holds a pointer to, other than that of a deleted one. -/
def Pc.worksOn : Pc → Option Nat
  | .killpg jid _ | .fgStatus jid | .bgStatus jid | .bgCont jid => some jid
  | pc => pc.onJob

/-- The pipeline and the job that `handle_job` starts, before it waits for the job or not. -/
def Pc.starting : Pc → Option (PipeNode × Nat)
  | .setUp ctx | .spawn ctx _ => some (ctx.node, ctx.jid)
  | .closeFds node jid _ false => some (node, jid)
  | _ => none

/-- No status puts a job in the foreground. -/
theorem Job.handled_foreground {job : Job} {attr : Termios} {status : WaitStatus}
    (h : (job.handled attr status).status = .foreground) : job.status = .foreground := by
  rcases status with (code | sig) | sig
  · simp only [Job.handled] at h
    split at h
    · cases h
    · exact h
  · exact h
  · simp only [Job.handled] at h
    split at h <;> cases h

theorem Job.handled_alive_le (job : Job) (attr : Termios) (status : WaitStatus) :
    (job.handled attr status).numProcessesAlive ≤ job.numProcessesAlive := by
  rcases status with (code | sig) | sig <;> simp only [Job.handled] <;> omega

namespace State

variable {s t : State} {e : Event} {ok : State → Event → Bool}

theorem keepsWaiting_iff {job : Job} :
    keepsWaiting job = true ↔ job.status = .foreground ∧ 0 < job.numProcessesAlive := by
  unfold keepsWaiting
  rw [Bool.and_eq_true, decide_eq_true_eq, decide_eq_true_eq]

theorem keepsWaiting_handled {job : Job} {attr : Termios} {status : WaitStatus}
    (h : keepsWaiting (job.handled attr status) = true) : keepsWaiting job = true := by
  obtain ⟨hst, halive⟩ := keepsWaiting_iff.1 h
  have hle := job.handled_alive_le attr status
  exact keepsWaiting_iff.2 ⟨Job.handled_foreground hst, by omega⟩

/-! ## The job is there -/

def Present (s : State) : Prop :=
  ∀ jid, s.pc.worksOn = some jid → ∃ job, s.jid2job.get jid = some job

theorem Present.of_none (h : t.pc.worksOn = none) : t.Present :=
  fun _ hc => nomatch h.symm.trans hc

theorem DispatchTo.present {jid2job : SlotTable Job} {node : PipeNode} {pc : Pc}
    (h : DispatchTo jid2job node pc) {jid : Nat} (hw : pc.worksOn = some jid) :
    ∃ job, jid2job.get jid = some job := by
  cases h with
  | killpg sig hn hj | fg hn hj | bg hn hj =>
    cases hw
    exact ⟨_, hj⟩
  | _ => cases hw

/-- A job that is written to stays. -/
theorem get_modify_some {jid2job : SlotTable Job} {jid jid' : Nat} {f : Job → Job} {job : Job}
    (h : jid2job.get jid' = some job) : ∃ job', (jid2job.modify jid f).get jid' = some job' := by
  rw [SlotTable.get_modify]
  split
  · rw [h]
    exact ⟨f job, rfl⟩
  · exact ⟨job, h⟩

theorem Present.move (h : s.Present) (hm : Move s e t) : t.Present := by
  cases hm with
  | child | sigchld | setAttr | others | handlerStart | handlerReturn | lineEmpty => exact h
  | handled out hwait hm hw hj hg =>
    intro jid hon
    obtain ⟨job, hjob⟩ := h jid hon
    dsimp only
    rw [SlotTable.get_set]
    split
    · exact ⟨_, rfl⟩
    · exact ⟨job, hjob⟩
  | dispatch out hh hp hl ht => exact fun jid hw => ht.present hw
  | @fgStatus jid hh hp | @bgStatus jid hh hp =>
    intro jid' hon
    cases hon
    obtain ⟨job, hjob⟩ := h jid (by rw [hp]; rfl)
    exact get_modify_some hjob
  | fgCont hh hp hg =>
    intro jid' hon
    cases hon
    exact ⟨_, hg⟩
  | addJob =>
    intro jid' hon
    cases hon
    exact ⟨_, SlotTable.get_set_self _ _ _⟩
  | @spawned ctx fa cmd rest job pid hh hp ht hg =>
    intro jid' hon
    cases hon
    exact get_modify_some hg
  | @closeFds node jid fds fail => exact .of_none rfl
  | @giveBlock target hh hp =>
    cases target with
    | job jid pgrp =>
      intro jid' hon
      cases hon
      exact h jid (by rw [hp]; rfl)
    | shell => exact .of_none rfl
  | @giveRestore target hh hp =>
    cases target with
    | job jid pgrp =>
      intro jid' hon
      cases hon
      exact h jid (by rw [hp]; rfl)
    | shell => exact .of_none rfl
  | @deadEnd i exiting => cases exiting <;> exact .of_none rfl
  | @setUp ctx cmd rest mem fa fdIndex hh hp | @setUpEnd ctx hh hp
  | @closeFdsWait node jid fds o hh hp | @fgBlock jid hh hp | @giveJob jid pgrp hh hp
  | @gaveJob jid pgrp hh hp =>
    intro jid' hon
    cases hon
    exact h _ (by rw [hp]; rfl)
  | _ => exact .of_none rfl

theorem Run.present (hr : Run ok s) : s.Present := by
  refine Lts.Reach.invariant (I := State.Present) ?_
    (fun _ _ _ _ hI _ hs => hI.move (step_move hs).2) hr
  rintro s ⟨shellPgrp, attr, openMax, -, rfl⟩
  exact .of_none rfl

/-! ## The job that is being started -/

/-- A job keeps the status that `add_job` has given it for as long as it is being started. -/
def Started (s : State) : Prop :=
  ∀ node jid, s.pc.starting = some (node, jid) → ∃ job, s.jid2job.get jid = some job ∧
    job.pipe = node ∧ job.status = if node.pipe.bgJob then .background else .foreground

theorem Started.of_none (h : t.pc.starting = none) : t.Started :=
  fun _ _ hc => nomatch h.symm.trans hc

theorem Masked.starting (h : s.Masked) {pid : Pid} (hw : s.Waiting e pid) :
    s.pc.starting = none := by
  rcases h.waiting hw with ⟨-, hb⟩ | ⟨-, jid, hp⟩
  · cases hp : s.pc with
    | setUp | spawn | closeFds =>
      rw [hp] at hb
      cases hb
    | _ => rfl
  · rw [hp]
    rfl

theorem DispatchTo.starting {jid2job : SlotTable Job} {node : PipeNode} {pc : Pc}
    (h : DispatchTo jid2job node pc) : pc.starting = none := by
  cases h <;> rfl

theorem Started.move (h : s.Started) (hM : s.Masked) (hm : Move s e t) : t.Started := by
  cases hm with
  | child | sigchld | setAttr | others | handlerStart | handlerReturn | lineEmpty => exact h
  | handled out hwait => exact .of_none (hM.starting hwait)
  | dispatch out hh hp hl ht => exact .of_none ht.starting
  | @deadEnd i exiting => cases exiting <;> exact .of_none rfl
  | addJob hh hp hj hlt hjob =>
    subst hjob
    intro node jid hst
    cases hst
    exact ⟨_, SlotTable.get_set_self _ _ _, rfl, rfl⟩
  | @spawned ctx fa cmd rest job pid hh hp ht hg =>
    intro node jid hst
    cases hst
    obtain ⟨job', hg', hpipe, hstatus⟩ := h ctx.node ctx.jid (by rw [hp]; rfl)
    cases hg.symm.trans hg'
    exact ⟨_, SlotTable.get_modify_self hg _, hpipe, hstatus⟩
  | @setUp ctx cmd rest mem fa fdIndex hh hp | @setUpEnd ctx hh hp =>
    intro node jid hst
    cases hst
    exact h ctx.node ctx.jid (by rw [hp]; rfl)
  | _ => exact .of_none rfl

theorem Run.started (hr : Run ok s) : s.Started := by
  refine Lts.Reach.invariant (I := State.Started) ?_
    (fun _ _ _ hr hI _ hs => hI.move (Run.masked hr) (step_move hs).2) hr
  rintro s ⟨shellPgrp, attr, openMax, -, rfl⟩
  exact .of_none rfl

/-! ## No other job is in the foreground -/

/-- A job in the foreground that counts a process is the one the main program works on. -/
def Attended (s : State) : Prop :=
  ∀ jid job, s.jid2job.get jid = some job → keepsWaiting job = true → s.pc.live = true →
    s.pc.onJob = some jid

theorem Attended.move (h : s.Attended) (hS : s.Started) (hl : s.pc.live = true) (hm : Move s e t) :
    t.Attended := by
  intro jid job hg hk hlive
  cases hm with
  | child | sigchld | setAttr | others | handlerStart | handlerReturn | lineEmpty =>
    exact h jid job hg hk hl
  | handled out hwait hm hw hj hget =>
    rcases SlotTable.get_set_eq_some.1 hg with ⟨rfl, hnew⟩ | ⟨-, hold⟩
    · cases hnew
      exact h jid _ hget (keepsWaiting_handled hk) hl
    · exact h jid job hold hk hl
  | addJob hh hp hj hlt hjob =>
    rcases SlotTable.get_set_eq_some.1 hg with ⟨rfl, -⟩ | ⟨-, hold⟩
    · rfl
    · have hon := h jid job hold hk hl
      rw [hp] at hon
      cases hon
  | fgStatus hh hp =>
    rcases SlotTable.get_modify_eq_some.1 hg with ⟨rfl, -⟩ | ⟨-, hold⟩
    · rfl
    · have hon := h jid job hold hk hl
      rw [hp] at hon
      cases hon
  | bgStatus hh hp =>
    rcases SlotTable.get_modify_eq_some.1 hg with ⟨rfl, old, -, rfl⟩ | ⟨-, hold⟩
    · have hst := (keepsWaiting_iff.1 hk).1
      cases hst
    · have hon := h jid job hold hk hl
      rw [hp] at hon
      cases hon
  | spawned hh hp ht hget =>
    rcases SlotTable.get_modify_eq_some.1 hg with ⟨rfl, -⟩ | ⟨hjid, hold⟩
    · rfl
    · have hon := h jid job hold hk hl
      rw [hp] at hon
      exact absurd (Option.some.inj hon).symm hjid
  | spawnFailed out tty hh hp ht hget =>
    rcases SlotTable.get_set_eq_some.1 hg with ⟨-, hnew⟩ | ⟨hjid, hold⟩
    · cases hnew
    · have hon := h jid job hold hk hl
      rw [hp] at hon
      exact absurd (Option.some.inj hon).symm hjid
  | @closeFds node jid' fds fail o out hh hp hb =>
    have hon := h jid job hg hk hl
    rw [hp] at hon
    cases fail with
    | true => cases hon
    | false =>
      -- the job is in the background
      cases hon
      obtain ⟨job', hg', -, hstatus⟩ := hS node jid (by rw [hp]; rfl)
      cases hg.symm.trans hg'
      rw [if_pos (hb.resolve_left Bool.false_ne_true), (keepsWaiting_iff.1 hk).1] at hstatus
      cases hstatus
  | @waitEnd jid' old hh hp hget hend =>
    have hon := h jid job hg hk hl
    rw [hp] at hon
    cases hon
    cases hg.symm.trans hget
    rw [hend] at hk
    cases hk
  | deadDelete out hh hp hget =>
    rcases SlotTable.get_set_eq_some.1 hg with ⟨-, hnew⟩ | ⟨-, hold⟩
    · cases hnew
    · have hon := h jid job hold hk hl
      rw [hp] at hon
      cases hon
  | @giveBlock target hh hp | @giveRestore target hh hp =>
    have hon := h jid job hg hk hl
    rw [hp] at hon
    cases target with
    | job => exact hon
    | shell => cases hon
  | lost | unblocked | eof | crash | abort | waitFatal | giveFatal => cases hlive
  | _ =>
    have hon := h jid job hg hk hl
    rw [‹s.pc = _›] at hon
    first
      | exact hon
      | cases hon

/-- Where the main program works on no job, a job in the foreground has finished. -/
theorem Attended.finished (h : s.Attended) (hl : s.pc.live = true) (hp : s.pc.onJob = none)
    {jid : Nat} {job : Job} (hg : s.jid2job.get jid = some job) (hf : job.status = .foreground) :
    job.numProcessesAlive ≤ 0 := by
  by_contra hlt
  have hon := h jid job hg (keepsWaiting_iff.2 ⟨hf, by omega⟩) hl
  rw [hp] at hon
  cases hon

theorem Run.attended (hr : Run ok s) : s.Attended := by
  refine Lts.Reach.invariant (I := State.Attended) ?_ ?_ hr
  · rintro s ⟨shellPgrp, attr, openMax, -, rfl⟩ jid job hg
    cases hg
  · intro s e t hr hI _ hs
    exact hI.move (Run.started hr) (step_move hs).1 (step_move hs).2

end State

end Cush
