import Cush.Shell.Verify.Resume
import Cush.Shell.Verify.Foreground
import Cush.Shell.Verify.Notices
import Mathlib.Data.Prod.Lex

/-!
# The shell comes to rest

What the shell does on its own comes to an end: `work` goes down with every step that is neither an
input of the user nor a change around the shell. The end is reached at the prompt, with no child
that has something to report, or in `wait_for_job`, with a job whose processes all run, unless the
shell has ended. No `SIGCHLD` is lost on the way: as long as a child has something to report, the
signal is pending or the handler is running.
-/

namespace Cush

/-- The steps of the main program, with the answers of the kernel to its calls, and of the
handler. What becomes of the prompt is up to the user. -/
def Event.ofShell : Event → Bool
  | .line _ | .eof | .noUser | .child .. | .sigchld | .setAttr .. | .others _ => false
  | _ => true

/-! ## The work that is left -/

/-- The steps that `termstate_give_terminal_to` has to go. -/
def GiveStage.ahead : GiveStage → Nat
  | .block => 4
  | .setPgrp => 3
  | .restore => 2
  | .unblock => 1

/-- How far a point is from the end of the body of the loop over the pipelines, and of the loop over
the lines. -/
def Pc.ahead : Pc → Nat
  | .exited | .fatal _ | .crashed | .aborted => 0
  | .readline => 1
  | .deleteDeadJobs .. => 2
  | .listNext => 3
  | .jobs _ | .killpg .. | .bgCont _ => 4
  | .bgStatus _ => 5
  | .give stage .shell => 5 + stage.ahead
  | .unblockSigchld => 10
  | .waitForJob _ => 11
  | .fgBlock _ => 12
  | .give stage (.job ..) => 12 + stage.ahead
  | .fgCont _ => 17
  | .fgStatus _ => 18
  | .closeFds .. => 19
  | .setUp _ | .spawn .. => 20
  | .addJob .. => 21
  | .blockSigchld .. => 22
  | .createPipes .. => 23
  | .handleJob _ => 24
  | .dispatch => 25

/-- What is left of the loop that a point is in, for a table of `n` entries. -/
def Pc.rounds (n : Nat) : Pc → Nat
  | .jobs i | .deleteDeadJobs i _ => n - i
  | .createPipes _ fds i => fds.length - i
  | .setUp ctx => 2 * ctx.todo.length + 1
  | .spawn ctx _ => 2 * ctx.todo.length
  | _ => 0

theorem Pc.ahead_pos {pc : Pc} (h : pc.live = true) : 0 < pc.ahead := by
  cases pc with
  | exited | fatal | crashed | aborted => cases h
  | give stage target => cases target <;> exact Nat.lt_add_right _ (by decide)
  | _ => exact Nat.succ_pos _

namespace State

variable {s t : State} {e : Event} {ok : State → Event → Bool}

/-- The children that have something to report. -/
def outstanding (s : State) : Nat :=
  s.procs.countP fun p => p.waitStatus.isSome

/-- The steps of the handler that are due, other than the calls of `waitpid`. -/
def handlerWork (s : State) : Nat :=
  (if s.sigchldPending then 2 else 0) + (if s.handler.isSome then 1 else 0)

/-- The work that is left to the shell: its lines, then what is left of the current one, then the
rounds of the loop it is in, then the children and the handler. -/
def work (s : State) : ℕ ×ₗ ℕ ×ₗ ℕ ×ₗ ℕ ×ₗ ℕ :=
  toLex (s.line.length, toLex (s.pc.ahead, toLex (s.pc.rounds s.jid2job.slots.length,
    toLex (s.outstanding, s.handlerWork))))

theorem work_line (h : t.line.length < s.line.length) : t.work < s.work :=
  Prod.Lex.toLex_lt_toLex.2 (Or.inl h)

section SameLine

variable (hl : t.line = s.line)
include hl

theorem work_ahead (h : t.pc.ahead < s.pc.ahead) : t.work < s.work :=
  Prod.Lex.toLex_lt_toLex.2
    (Or.inr ⟨congrArg List.length hl, Prod.Lex.toLex_lt_toLex.2 (Or.inl h)⟩)

theorem work_rounds (ha : t.pc.ahead = s.pc.ahead)
    (h : t.pc.rounds t.jid2job.slots.length < s.pc.rounds s.jid2job.slots.length) :
    t.work < s.work :=
  Prod.Lex.toLex_lt_toLex.2 (Or.inr ⟨congrArg List.length hl,
    Prod.Lex.toLex_lt_toLex.2 (Or.inr ⟨ha, Prod.Lex.toLex_lt_toLex.2 (Or.inl h)⟩)⟩)

variable (hp : t.pc = s.pc) (hn : t.jid2job.slots.length = s.jid2job.slots.length)
include hp hn

theorem work_children (h : t.outstanding < s.outstanding) : t.work < s.work :=
  Prod.Lex.toLex_lt_toLex.2 (Or.inr ⟨congrArg List.length hl, Prod.Lex.toLex_lt_toLex.2
    (Or.inr ⟨congrArg Pc.ahead hp, Prod.Lex.toLex_lt_toLex.2 (Or.inr ⟨by rw [hp, hn],
      Prod.Lex.toLex_lt_toLex.2 (Or.inl h)⟩)⟩)⟩)

theorem work_handler (hc : t.procs = s.procs) (h : t.handlerWork < s.handlerWork) :
    t.work < s.work :=
  Prod.Lex.toLex_lt_toLex.2 (Or.inr ⟨congrArg List.length hl, Prod.Lex.toLex_lt_toLex.2
    (Or.inr ⟨congrArg Pc.ahead hp, Prod.Lex.toLex_lt_toLex.2 (Or.inr ⟨by rw [hp, hn],
      Prod.Lex.toLex_lt_toLex.2 (Or.inr ⟨by simp only [outstanding, hc], h⟩)⟩)⟩)⟩)

end SameLine

/-! ## Every step takes some of it -/

/-- A child whose status is taken up has nothing to report. -/
theorem outstanding_waitpid {procs procs' : List Proc} {pid : Pid} {status : WaitStatus}
    (hw : waitpid procs pid = some (status, procs')) :
    procs'.countP (fun p => p.waitStatus.isSome) < procs.countP fun p => p.waitStatus.isSome := by
  obtain ⟨p, hp, rfl, ⟨sig, rfl, hs, rfl⟩ | ⟨st, rfl, hs, rfl⟩⟩ := waitpid_cases hw
  · rw [List.countP_map]
    refine Lts.countP_lt (fun q _ hq => ?_) hp (by rw [Proc.waitStatus, hs]; rfl) ?_
    · simp only [Function.comp_apply] at hq
      split at hq
      · cases hq
      · exact hq
    · simp only [Function.comp_apply, if_pos]
      rfl
  · rw [List.countP_filter]
    exact Lts.countP_lt (fun q _ hq => (Bool.and_eq_true_iff.1 hq).1) hp
      (by rw [Proc.waitStatus, hs]; rfl) (by simp)

/-- `delete_dead_jobs` passes an entry of the table, or is done. -/
theorem work_deleteDeadJobs {i : Nat} {exiting : Bool} (hp : s.pc = .deleteDeadJobs i exiting) :
    (s.deleteDeadJobs i exiting).work < s.work := by
  unfold deleteDeadJobs
  split
  · refine work_ahead rfl ?_
    rw [hp]
    cases exiting <;> simp [Pc.ahead]
  · rename_i k hk
    obtain ⟨hle, job, hg⟩ := SlotTable.next_some hk
    have hround : ∀ {u : State}, u.line = s.line → u.pc = .deleteDeadJobs (k + 1) exiting →
        u.jid2job.slots.length = s.jid2job.slots.length → u.work < s.work := by
      intro u hl hu hn
      refine work_rounds hl (by rw [hp, hu]; rfl) ?_
      have hlt := SlotTable.lt_length hg
      rw [hp, hu, hn]
      dsimp only [Pc.rounds]
      omega
    simp only [hg]
    split
    · split
      · simp only [deleteJob, forJob, State.print, hg]
        exact hround rfl rfl (SlotTable.length_set hg _)
      · simp only [deleteJob, forJob, hg]
        exact hround rfl rfl (SlotTable.length_set hg _)
    · exact hround rfl rfl rfl

theorem DispatchTo.ahead {jid2job : SlotTable Job} {node : PipeNode} {pc : Pc}
    (h : DispatchTo jid2job node pc) : pc.ahead < Pc.dispatch.ahead := by
  cases h <;> simp [Pc.ahead]

/-- `SIGCHLD` is delivered where it is pending. -/
theorem step_sigchldHandler (hs : step s .sigchldHandler = some t) : s.sigchldPending = true := by
  unfold step at hs
  split at hs
  · dsimp only at hs
    split at hs
    · unfold sigchldHandler at hs
      split at hs
      · rename_i hm
        exact hm.1
      · cases hs
    · cases hs
  · cases hs

theorem step_deleteDeadJobs {i : Nat} {exiting : Bool} (hp : s.pc = .deleteDeadJobs i exiting)
    (hs : step s .main = some t) : t = s.deleteDeadJobs i exiting := by
  obtain ⟨-, -, ha⟩ := step_main hs
  simp only [answerStep, hp, mainStep, Option.some.injEq] at ha
  exact ha.symm

/-- **Every step of the shell takes some of its work.** -/
theorem work_step (he : e.ofShell = true) (hs : step s e = some t) : t.work < s.work := by
  obtain ⟨hl, hm⟩ := step_move hs
  cases hm with
  | child | sigchld | setAttr | others | lineEmpty | line | eof => cases he
  | handlerStart hh =>
    refine work_handler rfl rfl rfl rfl ?_
    simp [handlerWork, hh, step_sigchldHandler hs]
  | handlerReturn hh =>
    refine work_handler rfl rfl rfl rfl ?_
    simp [handlerWork, hh]
  | handled out hwait hm hw hj hg =>
    exact work_children rfl rfl (SlotTable.length_set hg _) (outstanding_waitpid hw)
  | lost | unblocked | crash | abort => exact work_ahead rfl (Pc.ahead_pos hl)
  | dispatch out hh hp hn ht => exact work_ahead rfl (by rw [hp]; exact DispatchTo.ahead ht)
  | listNext hh hp hn => exact work_line (by rw [hn]; exact Nat.lt_succ_self _)
  | jobsPrint hh hp hn hg =>
    refine work_rounds rfl (by rw [hp]; rfl) ?_
    have hle := (SlotTable.next_some hn).1
    have hlt := SlotTable.lt_length hg
    rw [hp]
    dsimp only [Pc.rounds]
    omega
  | pipe2 openFds hh hp hi hf =>
    refine work_rounds rfl (by rw [hp]; rfl) ?_
    rw [hp]
    dsimp only [Pc.rounds]
    omega
  | setUp hh hp ht =>
    refine work_rounds rfl (by rw [hp]; rfl) ?_
    rw [hp]
    exact Nat.lt_succ_self _
  | spawned hh hp ht hg =>
    refine work_rounds rfl (by rw [hp]; rfl) ?_
    rw [hp]
    dsimp only [Pc.rounds, spawnOk]
    rw [ht, List.length_cons]
    omega
  | deadEnd hh hp | deadKeep hh hp | deadDelete out hh hp =>
    rw [step_deleteDeadJobs hp hs]
    exact work_deleteDeadJobs hp
  | giveBlock hh hp | giveRestore hh hp =>
    rename_i target
    refine work_ahead rfl ?_
    rw [hp]
    cases target <;> simp [Pc.ahead, GiveStage.ahead]
  | dispatchEnd hh hp | jobsEnd hh hp | killpg hh hp | fgStatus hh hp | fgCont hh hp | fgBlock hh hp
  | bgStatus hh hp | bgCont hh hp | handleJob hh hp | malloc hh hp | createPipesEnd hh hp
  | blockSigchld hh hp | addJob hh hp | setUpEnd hh hp | spawnFailed _ _ hh hp
  | closeFdsWait _ hh hp | closeFds _ _ hh hp | waitEnd hh hp | waitFatal hh hp
  | unblockSigchld hh hp | giveJob hh hp | giveFatal hh hp | giveShell hh hp | gaveJob hh hp
  | gaveShell hh hp =>
    refine work_ahead rfl ?_
    rw [hp]
    simp [Pc.ahead, GiveStage.ahead]

/-! ## A job that is not recorded as stopped -/

/-- The children of a job that is not recorded as stopped have not been reported as stopped, unless
`fg` or `bg` is about to continue them. -/
def StopsRecorded (s : State) : Prop :=
  s.pc.live = true → ∀ jid job, s.jid2job.get jid = some job → job.status.isStopped = false →
    ∀ p ∈ s.procs, p.owner = job.serial → ∀ sig, p.state = .stopped sig true →
      s.pc.resuming = some jid

/-- A step that reports no stop, and after which the jobs that are not recorded as stopped were not
before. -/
theorem StopsRecorded.keep (h : s.StopsRecorded) (hl : s.pc.live = true)
    (hp : ∀ p ∈ t.procs, ∀ sig, p.state = .stopped sig true →
      ∃ q ∈ s.procs, q.owner = p.owner ∧ q.state = .stopped sig true)
    (hj : ∀ jid job, t.jid2job.get jid = some job → job.status.isStopped = false →
      ∃ job', s.jid2job.get jid = some job' ∧ job'.serial = job.serial ∧
        job'.status.isStopped = false)
    (hr : s.pc.resuming = none ∨ t.pc.resuming = s.pc.resuming) : t.StopsRecorded := by
  intro _ jid job hg hst p hmem ho sig hs
  obtain ⟨q, hq, hqo, hqs⟩ := hp p hmem sig hs
  obtain ⟨job', hg', hser, hst'⟩ := hj jid job hg hst
  have hres := h hl jid job' hg' hst' q hq (hqo.trans (ho.trans hser.symm)) sig hqs
  rcases hr with hr | hr
  · exact absurd (hr.symm.trans hres) (by simp)
  · exact hr.trans hres

/-- A stop that happens is not reported yet. -/
theorem change_reported {p p' : Proc} {c : Change} {sig : Signal} (h : p.change c = some p') :
    p'.state ≠ .stopped sig true := by
  intro hs
  obtain rfl := Proc.change_stopped h hs
  unfold Proc.change at h
  split at h <;> repeat' split at h
  all_goals cases h
  all_goals cases hs

theorem StopsRecorded.child {pid : Pid} {c : Change} {procs : List Proc} (h : s.StopsRecorded)
    (hl : s.pc.live = true) (hc : changeProc s.procs pid c = some procs) (hp : t.procs = procs)
    (hj : t.jid2job = s.jid2job) (hpc : t.pc = s.pc) : t.StopsRecorded := by
  refine h.keep hl (fun p hmem sig hs => ?_) (fun _ job hg hst => ⟨job, hj ▸ hg, rfl, hst⟩)
    (Or.inr (congrArg Pc.resuming hpc))
  obtain ⟨q, q', hq, -, hchange, rfl⟩ := changeProc_cases hc
  rw [hp] at hmem
  obtain ⟨r, hr, rfl⟩ := List.mem_map.1 hmem
  split at hs
  · exact absurd hs (change_reported hchange)
  · rename_i hne
    rw [if_neg hne]
    exact ⟨r, hr, rfl, hs⟩

theorem isStopped_terminated {job : Job} {attr : Termios} {st : ExitStatus}
    (h : job.status.isStopped = true) :
    (job.handled attr (.terminated st)).status.isStopped = true := by
  cases st with
  | exited code =>
    simp only [Job.handled]
    split
    · rename_i hb
      rw [hb.1] at h
      cases h
    · exact h
  | signaled sig => exact h

theorem isStopped_stopped (job : Job) (attr : Termios) (sig : Signal) :
    (job.handled attr (.stopped sig)).status.isStopped = true := by
  simp only [Job.handled]
  split <;> rfl

theorem StopsRecorded.handled {pid : Pid} {status : WaitStatus} {procs : List Proc} {jid : Nat}
    {job : Job} (h : s.StopsRecorded) (hs : s.ledger.Sound) (hb : s.ledger.Balanced)
    (hl : s.pc.live = true) (hw : waitpid s.procs pid = some (status, procs))
    (hj : getJobFromPid s.jid2job pid = some jid) (hg : s.jid2job.get jid = some job)
    (hp : t.procs = procs)
    (ht : t.jid2job = s.jid2job.set jid (some (job.handled s.ttyAttr status)))
    (hpc : t.pc = s.pc) : t.StopsRecorded := by
  intro _ jid' job' hg' hst p hmem ho sig hstate
  rw [hpc]
  rw [ht] at hg'
  rw [hp] at hmem
  obtain ⟨q, hq, rfl, ⟨sig', rfl, -, rfl⟩ | ⟨st, rfl, -, rfl⟩⟩ := waitpid_cases hw
  · rcases SlotTable.get_set_eq_some.1 hg' with ⟨-, hnew⟩ | ⟨hne, hold⟩
    · cases hnew
      rw [isStopped_stopped] at hst
      cases hst
    · obtain ⟨r, hr, rfl⟩ := List.mem_map.1 hmem
      split at ho
      · -- the child that has been reported belongs to the job that is found
        rename_i hpid
        have howner := owner_of_find hb hr (hpid ▸ hj) hg
        exact absurd (hs.serial_inj (account_of_get hold) (account_of_get hg)
          (ho.symm.trans howner.symm)) hne
      · rename_i hpid
        rw [if_neg hpid] at hstate
        exact h hl jid' job' hold hst r hr ho sig hstate
  · have hmem := List.mem_of_mem_filter hmem
    rcases SlotTable.get_set_eq_some.1 hg' with ⟨rfl, hnew⟩ | ⟨-, hold⟩
    · cases hnew
      refine h hl jid' job hg (Bool.eq_false_iff.2 fun hst' => ?_) p hmem
        (ho.trans (job.handled_serial _ _)) sig hstate
      rw [isStopped_terminated hst'] at hst
      cases hst
    · exact h hl jid' job' hold hst p hmem ho sig hstate

theorem StopsRecorded.signal {pgrp : Pid} {sig : Signal} (h : s.StopsRecorded)
    (hl : s.pc.live = true) (hp : t.procs = Cush.killpg s.procs pgrp sig)
    (hj : t.jid2job = s.jid2job) (hr : s.pc.resuming = none) : t.StopsRecorded := by
  refine h.keep hl (fun p hmem sig hs => ?_) (fun _ job hg hst => ⟨job, hj ▸ hg, rfl, hst⟩)
    (Or.inl hr)
  rw [hp] at hmem
  obtain ⟨q, hq, rfl⟩ := List.mem_map.1 hmem
  split at hs
  · rename_i hpg
    rw [if_pos hpg]
    exact ⟨q, hq, (q.signal_same _).owner.symm, Proc.signal_stopped hs⟩
  · rename_i hpg
    rw [if_neg hpg]
    exact ⟨q, hq, rfl, hs⟩

/-- `SIGCONT` continues the children of the job. -/
theorem StopsRecorded.sigcont {jid : Nat} {job : Job} (h : s.StopsRecorded) (hs : s.ledger.Sound)
    (hl : s.pc.live = true) (hg : s.jid2job.get jid = some job)
    (hres : s.pc.resuming = some jid) (hp : t.procs = Cush.killpg s.procs job.pgid .sigcont)
    (hj : t.jid2job = s.jid2job) : t.StopsRecorded := by
  intro _ jid' job' hg' hst p hmem ho sig hstate
  exfalso
  rw [hj] at hg'
  rw [hp] at hmem
  obtain ⟨q, hq, rfl⟩ := List.mem_map.1 hmem
  split at hstate
  · exact q.signal_sigcont sig true hstate
  · rename_i hgroup
    rw [if_neg hgroup] at ho
    obtain rfl : jid = jid' :=
      Option.some.inj (hres.symm.trans (h hl jid' job' hg' hst q hq ho sig hstate))
    cases hg.symm.trans hg'
    exact hgroup (hs.recorded _ (children_mem hq) (account_of_get hg) ho.symm).2

theorem StopsRecorded.of_dead (hd : t.pc.live = false) : t.StopsRecorded :=
  fun hl => (nomatch hd.symm.trans hl)

theorem StopsRecorded.move (h : s.StopsRecorded) (hs : s.ledger.Sound) (hb : s.ledger.Balanced)
    (hl : s.pc.live = true) (hm : Move s e t) : t.StopsRecorded := by
  have same : t.procs = s.procs → t.jid2job = s.jid2job →
      (s.pc.resuming = none ∨ t.pc.resuming = s.pc.resuming) → t.StopsRecorded :=
    fun hp hj => h.keep hl (fun p hmem _ hst => ⟨p, hp ▸ hmem, rfl, hst⟩)
      fun _ job hg hst => ⟨job, hj ▸ hg, rfl, hst⟩
  cases hm with
  | child hc => exact h.child hl hc rfl rfl rfl
  | sigchld | setAttr | others | handlerStart | handlerReturn | lineEmpty =>
    exact same rfl rfl (Or.inr rfl)
  | handled out hwait hm hw hj hg => exact h.handled hs hb hl hw hj hg rfl rfl rfl
  | lost | unblocked | crash | abort | eof => exact .of_dead rfl
  | killpg hh hp => exact h.signal hl rfl rfl (by rw [hp]; rfl)
  | fgCont hh hp hg | bgCont hh hp hg => exact h.sigcont hs hl hg (by rw [hp]; rfl) rfl rfl
  | @fgStatus jid hh hp | @bgStatus jid hh hp =>
    intro _ jid' job' hg' hst p hmem ho sig hstate
    rcases SlotTable.get_modify_eq_some.1 hg' with ⟨rfl, -⟩ | ⟨-, hold⟩
    · rfl
    · have hres := h hl jid' job' hold hst p hmem ho sig hstate
      rw [hp] at hres
      cases hres
  | addJob hh hp hj hlt hjob =>
    intro _ jid' job' hg' hst p hmem ho sig hstate
    rcases SlotTable.get_set_eq_some.1 hg' with ⟨-, hnew⟩ | ⟨-, hold⟩
    · -- the new job has no children yet
      have hlt := hs.owner_lt p.child (children_mem hmem)
      cases hnew
      rw [hjob] at ho
      exact absurd ho (Nat.ne_of_lt hlt)
    · have hres := h hl jid' job' hold hst p hmem ho sig hstate
      rw [hp] at hres
      cases hres
  | spawned hh hp ht hg =>
    refine h.keep hl (fun p hmem sig hstate => ?_) (fun jid' job' hg' hst => ?_)
      (Or.inl (by rw [hp]; rfl))
    · rcases List.mem_append.1 hmem with hmem | hmem
      · exact ⟨p, hmem, rfl, hstate⟩
      · rw [List.mem_singleton.1 hmem] at hstate
        cases hstate
    · rcases SlotTable.get_modify_eq_some.1 hg' with ⟨rfl, job, hjob, rfl⟩ | ⟨-, hold⟩
      · exact ⟨job, hjob, rfl, hst⟩
      · exact ⟨job', hold, rfl, hst⟩
  | spawnFailed out tty hh hp | deadDelete out hh hp =>
    refine h.keep hl (fun p hmem _ hstate => ⟨p, hmem, rfl, hstate⟩) (fun jid' job' hg' hst => ?_)
      (Or.inl (by rw [hp]; rfl))
    rcases SlotTable.get_set_eq_some.1 hg' with ⟨-, hnew⟩ | ⟨-, hold⟩
    · cases hnew
    · exact ⟨job', hold, rfl, hst⟩
  | line hh hp | dispatchEnd hh hp | dispatch out hh hp | listNext hh hp | jobsPrint hh hp
  | jobsEnd hh hp | fgBlock hh hp | handleJob hh hp | malloc hh hp | pipe2 openFds hh hp
  | createPipesEnd hh hp | blockSigchld hh hp | setUp hh hp | setUpEnd hh hp
  | closeFdsWait _ hh hp | closeFds _ _ hh hp | waitEnd hh hp | waitFatal hh hp
  | unblockSigchld hh hp | giveBlock hh hp | giveJob hh hp | giveFatal hh hp | giveShell hh hp
  | giveRestore hh hp | gaveJob hh hp | gaveShell hh hp | deadEnd hh hp | deadKeep hh hp =>
    exact same rfl rfl (Or.inl (by rw [hp]; rfl))

theorem Run.stopsRecorded (hr : Run noReuse s) : s.StopsRecorded :=
  Lts.Reach.invariant (I := State.StopsRecorded)
    (fun s h => by
      obtain ⟨shellPgrp, attr, openMax, -, rfl⟩ := h
      exact fun _ _ _ _ _ _ hp => nomatch hp)
    (fun _ _ _ hr hI _ hs => hI.move (Run.sound hr) (Run.balanced hr) (step_move hs).1
      (step_move hs).2) hr

/-! ## Where the shell stops -/

/-- There is a command to spawn. -/
def Supplied (s : State) : Prop :=
  ∀ ctx fa, s.pc = .spawn ctx fa → ctx.todo ≠ []

theorem Supplied.of_none (h : s.pc.spawning = none) : s.Supplied := by
  intro ctx fa hp
  rw [hp] at h
  cases h

theorem Supplied.move (h : s.Supplied) (hM : s.Masked) (hm : Move s e t) : t.Supplied := by
  cases hm with
  | child | sigchld | setAttr | others | handlerStart | handlerReturn | lineEmpty => exact h
  | handled out hwait => exact .of_none (hM.spawning hwait)
  | dispatch out hh hp hl ht => exact .of_none ht.spawning
  | @deadEnd i exiting hh hp => cases exiting <;> exact .of_none rfl
  | setUp hh hp ht hs =>
    intro ctx fa hp'
    cases hp'
    simp [ht]
  | addJob | spawned =>
    intro ctx fa hp'
    cases hp'
  | _ => exact .of_none rfl

theorem Run.supplied (hr : Run ok s) : s.Supplied :=
  Lts.Reach.invariant (I := State.Supplied)
    (fun s h => by
      obtain ⟨shellPgrp, attr, openMax, -, rfl⟩ := h
      exact .of_none rfl)
    (fun _ _ _ hr hI _ hs => hI.move (Run.masked hr) (step_move hs).2) hr

/-- The shell cannot go on by itself. -/
def Halted (s : State) : Prop :=
  ∀ e, e.ofShell = true → s.noReuse e = true → step s e = none

/-- A child that has something to report can be waited for. -/
theorem waitpid_of_reportable {procs : List Proc} (hn : (procs.map Proc.pid).Nodup)
    (h : reportable procs = true) : ∃ pid r, waitpid procs pid = some r := by
  obtain ⟨p, hp, hw⟩ := reportable_iff.1 h
  obtain ⟨status, hs⟩ := Option.isSome_iff_exists.1 hw
  refine ⟨p.pid, ?_⟩
  unfold waitpid
  cases hf : procs.find? fun q => q.pid = p.pid with
  | none => exact absurd (decide_eq_true rfl) (List.find?_eq_none.1 hf p hp)
  | some q =>
    obtain rfl := eq_of_pid hn (find_pid hf).1 hp (find_pid hf).2
    dsimp only
    rw [hs]
    cases status <;> exact ⟨_, rfl⟩

theorem waitChild_of_reportable (hn : (s.procs.map Proc.pid).Nodup)
    (h : reportable s.procs = true) : ∃ pid, s.waitChild pid ≠ none := by
  obtain ⟨pid, r, hw⟩ := waitpid_of_reportable hn h
  refine ⟨pid, ?_⟩
  unfold waitChild
  rw [hw]
  simp

theorem Halted.handler (h : s.Halted) (hs : s.ledger.Sound) (hl : s.pc.live = true) :
    s.handler = none := by
  cases hh : s.handler with
  | none => rfl
  | some mask =>
    exfalso
    cases hrep : reportable s.procs with
    | false =>
      have hret := h .handlerReturn rfl rfl
      simp [step, hl, hh, State.handlerReturn, hrep] at hret
    | true =>
      obtain ⟨pid, hne⟩ := waitChild_of_reportable (Sound.pids hs) hrep
      have hreap := h (.reap pid) rfl rfl
      simp only [step, hl, hh, if_true, Option.isSome_some] at hreap
      exact hne hreap

theorem Halted.pending (h : s.Halted) (hl : s.pc.live = true) (hh : s.handler = none)
    (hm : s.mask.sigchld = false) : s.sigchldPending = false := by
  cases hq : s.sigchldPending with
  | false => rfl
  | true =>
    have hstart := h .sigchldHandler rfl rfl
    simp [step, hl, hh, State.sigchldHandler, hq, hm] at hstart

/-- The main program can go on, unless it waits for the user or for a child. -/
theorem Halted.pc (h : s.Halted) (hS : s.Supplied) (hl : s.pc.live = true)
    (hh : s.handler = none) : s.pc = .readline ∨
      ∃ jid job, s.pc = .waitForJob jid ∧ s.jid2job.get jid = some job ∧
        keepsWaiting job = true := by
  have hmain := h .main rfl rfl
  simp only [step, hl, hh, if_true, Option.isNone_none, answerStep] at hmain
  cases hp : s.pc with
  | readline => exact Or.inl rfl
  | waitForJob jid =>
    simp only [hp, mainStep] at hmain
    cases hg : s.jid2job.get jid with
    | none => simp [hg] at hmain
    | some job =>
      cases hk : keepsWaiting job with
      | true => exact Or.inr ⟨jid, job, rfl, hg, hk⟩
      | false => simp [hg, hk] at hmain
  | createPipes node fds i =>
    by_cases hi : i < fds.length
    · have hpipe := h (.pipe2 none) rfl rfl
      simp [step, hp, Pc.live, hh, answerStep, hi, createPipe] at hpipe
    · simp [hp, hi] at hmain
  | handleJob node =>
    by_cases hn : node.pipe.commands.length > 1
    · have hmalloc := h (.malloc (List.replicate (fdLen node.pipe) 0)) rfl rfl
      simp [step, hp, Pc.live, hh, answerStep, State.malloc, hn] at hmalloc
    · simp [hp, hn, mainStep] at hmain
  | setUp ctx =>
    cases ht : ctx.todo with
    | nil => simp [hp, ht, mainStep] at hmain
    | cons cmd rest =>
      have hset := h (.setUp fun _ => 0) rfl rfl
      simp [step, hp, Pc.live, hh, answerStep, ht] at hset
  | spawn ctx fa =>
    cases ht : ctx.todo with
    | nil => exact absurd ht (hS ctx fa hp)
    | cons cmd rest =>
      have hfail := h (.spawnFailed none) rfl rfl
      simp [step, hp, Pc.live, hh, answerStep, ht] at hfail
  | exited | fatal | crashed | aborted =>
    rw [hp] at hl
    cases hl
  | _ => simp [hp, mainStep] at hmain

theorem Halted.reportable (h : s.Halted) (hs : s.ledger.Sound) {jid : Nat} {job : Job}
    (hh : s.handler = none) (hp : s.pc = .waitForJob jid) (hg : s.jid2job.get jid = some job)
    (hk : keepsWaiting job = true) : reportable s.procs = false := by
  cases hrep : Cush.reportable s.procs with
  | false => rfl
  | true =>
    obtain ⟨pid, hne⟩ := waitChild_of_reportable (Sound.pids hs) hrep
    have hwait := h (.waitpid pid) rfl rfl
    simp only [step, hp, Pc.live, hh, if_true, Option.isNone_none, answerStep, hg, hk] at hwait
    exact absurd hwait hne

/-- Where the shell waits: for the user or for the foreground job, whose processes all run; in both
cases no child has anything to report. -/
inductive AtRest (s : State) : Prop
  | ended (h : s.pc.live = false)
  | prompt (hp : s.pc = .readline) (hh : s.handler = none) (hq : s.sigchldPending = false)
      (hrep : reportable s.procs = false)
  | waiting {jid : Nat} {job : Job} (hp : s.pc = .waitForJob jid)
      (hg : s.jid2job.get jid = some job) (hk : keepsWaiting job = true)
      (hrep : reportable s.procs = false) (hex : ∃ p ∈ s.procs, p.owner = job.serial)
      (hrun : ∀ p ∈ s.procs, p.owner = job.serial → p.state = .running)

/-- The processes of a job that is waited for run, once no child has anything to report. -/
theorem Run.waiting_running (hr : Run noReuse s) {jid : Nat} {job : Job}
    (hp : s.pc = .waitForJob jid) (hg : s.jid2job.get jid = some job)
    (hk : keepsWaiting job = true) (hrep : reportable s.procs = false) :
    (∃ p ∈ s.procs, p.owner = job.serial) ∧
      ∀ p ∈ s.procs, p.owner = job.serial → p.state = .running := by
  obtain ⟨hst, halive⟩ := keepsWaiting_iff.1 hk
  constructor
  · rw [hr.counts hg] at halive
    obtain ⟨p, hmem, ho⟩ := List.countP_pos_iff.1 (Int.natCast_pos.1 halive)
    exact ⟨p, hmem, of_decide_eq_true ho⟩
  · intro p hmem ho
    have hw : ¬ p.waitStatus.isSome = true := List.any_eq_false.1 hrep p hmem
    cases hs : p.state with
    | running => rfl
    | stopped sig reported =>
      cases reported with
      | false => exact absurd (waitStatus_stopped hs) hw
      | true =>
        have hres := hr.stopsRecorded (by rw [hp]; rfl) jid job hg (by rw [hst]; rfl) p hmem ho
          sig hs
        rw [hp] at hres
        cases hres
    | zombie st =>
      refine absurd ?_ hw
      rw [Proc.waitStatus, hs]
      rfl

theorem Halted.atRest (h : s.Halted) (hr : Run noReuse s) : s.AtRest := by
  cases hl : s.pc.live with
  | false => exact .ended hl
  | true =>
    have hh := h.handler hr.sound hl
    rcases h.pc hr.supplied hl hh with hp | ⟨jid, job, hp, hg, hk⟩
    · have hm : s.mask.sigchld = false := by
        rw [hr.masked.main hh hl, hp]
        rfl
      have hq := h.pending hl hh hm
      refine .prompt hp hh hq (Bool.eq_false_iff.2 fun hrep => ?_)
      rcases hr.noticed hrep with hq' | hh'
      · rw [hq] at hq'
        cases hq'
      · rw [hh] at hh'
        cases hh'
    · have hrep := h.reportable hr.sound hh hp hg hk
      obtain ⟨hex, hrun⟩ := hr.waiting_running hp hg hk hrep
      exact .waiting hp hg hk hrep hex hrun

/-- Only a child that has something to report is waited for. -/
theorem reportable_of_waitpid {procs : List Proc} {pid : Pid} {r : WaitStatus × List Proc}
    (h : waitpid procs pid = some r) : reportable procs = true := by
  obtain ⟨p, hp, -, hs⟩ := waitpid_cases h
  refine reportable_iff.2 ⟨p, hp, ?_⟩
  rcases hs with ⟨sig, -, hs, -⟩ | ⟨st, -, hs, -⟩
  · exact waitStatus_stopped hs
  · rw [Proc.waitStatus, hs]
    rfl

theorem waitChild_none (h : reportable s.procs = false) (pid : Pid) : s.waitChild pid = none := by
  unfold waitChild
  cases hw : waitpid s.procs pid with
  | none => rfl
  | some r =>
    rw [reportable_of_waitpid hw] at h
    cases h

theorem AtRest.halted (h : s.AtRest) (hM : s.Masked) (he : e.ofShell = true) :
    step s e = none := by
  cases h with
  | ended hd =>
    unfold step
    rw [hd]
    rfl
  | prompt hp hh hq hrep =>
    cases e with
    | line | eof | noUser | child | sigchld | setAttr | others => cases he
    | sigchldHandler => simp [step, hp, hh, Pc.live, State.sigchldHandler, hq]
    | _ => simp [step, hp, hh, Pc.live, answerStep, mainStep]
  | waiting hp hg hk hrep hex hrun =>
    have hh : s.handler = none := by
      cases hh : s.handler with
      | none => rfl
      | some mask =>
        have hb := (hM.handler hh).2.2
        rw [hp] at hb
        cases hb
    cases e with
    | line | eof | noUser | child | sigchld | setAttr | others => cases he
    | sigchldHandler =>
      have hm := hM.main hh (by rw [hp]; rfl)
      rw [hp] at hm
      simp [step, hp, hh, Pc.live, State.sigchldHandler, hm, Pc.blocks]
    | main =>
      obtain ⟨p, hmem, -⟩ := hex
      have hne := List.ne_nil_of_mem hmem
      simp [step, hp, hh, Pc.live, answerStep, mainStep, hg, hk, hne]
    | waitpid pid =>
      simp [step, hp, hh, Pc.live, answerStep, hg, hk, waitChild_none hrep pid]
    | _ => simp [step, hp, hh, Pc.live, answerStep]

/-! ## Every run -/

/-- **The steps of the shell come to an end**: without a line from the user, a change of a child or
another `SIGCHLD`, no run of the main program and the handler goes on for ever, however they are
interleaved and whatever the kernel answers. -/
theorem shell_steps_end : WellFounded (Lts.Later step fun _ e => e.ofShell = true) :=
  Lts.Later.wellFounded wellFounded_lt work fun _ _ _ he hs => work_step he hs

/-- **Where the shell stops**: it is at rest. It stops at the prompt only when no child has anything
to report, and in `wait_for_job` only when every process of the job runs and no other child has
anything to report either. From every state of a run it gets there by itself. -/
theorem rest_run (hr : Run noReuse s) :
    ((∀ e, e.ofShell = true → step s e = none) ↔ s.AtRest) ∧
      ∃ l t, Path (fun s e => e.ofShell && s.noReuse e) s l t ∧ t.AtRest := by
  refine ⟨⟨fun h => Halted.atRest (fun e he _ => h e he) hr,
    fun h e he => h.halted hr.masked he⟩, ?_⟩
  have hwf : WellFounded (Lts.Later step fun s e => (e.ofShell && s.noReuse e) = true) :=
    Lts.Later.wellFounded wellFounded_lt work
      fun _ _ _ hok hs => work_step (Bool.and_eq_true_iff.1 hok).1 hs
  obtain ⟨l, t, hpath, hlast⟩ := Lts.Path.rests hwf (.nil (s := s))
  have hrt : Run noReuse t :=
    Lts.Path.reach (hpath.mono fun _ _ hok => (Bool.and_eq_true_iff.1 hok).2) hr
  exact ⟨l, t, hpath,
    Halted.atRest (fun e he hn => hlast e (Bool.and_eq_true_iff.2 ⟨he, hn⟩)) hrt⟩

theorem rest_run_foreground : ∃ s,
    Lts.exec step noReuse (State.init 50 7 .usual) startForeground = some s ∧
    ∀ e, e.ofShell = true → step s e = none := by
  have hrun : (Lts.exec step noReuse (State.init 50 7 .usual) startForeground).map
      (fun s => (s.pc, (s.jid2job.get 1).map (fun job => (job.serial, keepsWaiting job)),
        s.procs)) = some (.waitForJob 1, some (0, true), [⟨100, 100, 0, .running, []⟩]) := by
    decide
  obtain ⟨s, hs, he⟩ := Option.map_eq_some_iff.1 hrun
  simp only [Prod.mk.injEq] at he
  obtain ⟨hp, hjob, hprocs⟩ := he
  obtain ⟨job, hg, hj⟩ := Option.map_eq_some_iff.1 hjob
  obtain ⟨hser, hk⟩ := Prod.ext_iff.1 hj
  refine ⟨s, hs, (rest_run (Run.exec (by decide) hs)).1.2 (.waiting hp hg hk ?_ ?_ ?_)⟩
  · rw [hprocs]
    rfl
  · exact ⟨_, by rw [hprocs]; exact List.mem_singleton_self _, hser.symm⟩
  · intro p hmem _
    rw [hprocs] at hmem
    rw [List.mem_singleton.1 hmem]

end State

end Cush
