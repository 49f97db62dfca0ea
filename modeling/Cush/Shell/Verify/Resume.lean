import Cush.Shell.Verify.Counting

/-!
# Jobs that `fg` and `bg` resume

`fg` and `bg` write the status of the job, and send `SIGCONT` in a later step. A stop that happened
before the `SIGCONT` is discarded by it, unless the handler has taken it up. So a job that is
recorded as stopped when the builtin returns has been stopped again, unless the handler took up a
stop of the job between the two steps.
-/

namespace Cush

def JobStatus.isStopped : JobStatus → Bool
  | .stopped | .needsTerminal => true
  | _ => false

/-- The job whose status `fg` or `bg` has written, before they send `SIGCONT`. -/
def Pc.resuming : Pc → Option Nat
  | .fgCont jid | .bgCont jid => some jid
  | _ => none

namespace State

variable {s t : State} {e : Event}

/-- The handler takes up no stop of a job between the step of `fg` or `bg` that writes its status
and the one that sends `SIGCONT`. -/
def noStaleStop (s : State) : Event → Bool
  | .reap pid =>
    (s.pc.resuming.bind s.jid2job.get).all fun job =>
      s.procs.all fun p => !(p.pid = pid && p.owner = job.serial &&
        p.waitStatus matches some (.stopped _))
  | _ => true

/-- A job that is resumed is not recorded as stopped. -/
def Resuming (s : State) : Prop :=
  ∀ jid job, s.pc.resuming = some jid → s.jid2job.get jid = some job → job.status.isStopped = false

/-- Stops of the resumed job that are recorded, or still to be reported, happened after the
`SIGCONT`. -/
structure Resumed (s : State) (serial : Nat) : Prop where
  procs : ∀ p ∈ s.procs, p.owner = serial → ∀ sig, p.state = .stopped sig false → serial ∈ s.stops
  jobs : ∀ {jid job}, s.jid2job.get jid = some job → job.serial = serial →
    job.status.isStopped = true → serial ∈ s.stops

/-- The children and the jobs of a step that stops none. -/
theorem Resumed.keep {serial : Nat} (h : s.Resumed serial) (hstops : t.stops = s.stops)
    (hp : ∀ p ∈ t.procs, ∀ sig, p.state = .stopped sig false →
      ∃ q ∈ s.procs, q.owner = p.owner ∧ q.state = .stopped sig false)
    (hj : ∀ {jid job}, t.jid2job.get jid = some job → job.status.isStopped = true →
      ∃ jid' job', s.jid2job.get jid' = some job' ∧ job'.serial = job.serial ∧
        job'.status.isStopped = true) : t.Resumed serial := by
  constructor
  · intro p hmem ho sig hs
    obtain ⟨q, hq, hqo, hqs⟩ := hp p hmem sig hs
    rw [hstops]
    exact h.procs q hq (hqo.trans ho) sig hqs
  · intro jid job hg hser hst
    obtain ⟨jid', job', hg', hser', hst'⟩ := hj hg hst
    rw [hstops]
    exact h.jobs hg' (hser'.trans hser) hst'

theorem Resumed.same {serial : Nat} (h : s.Resumed serial) (hstops : t.stops = s.stops)
    (hp : t.procs = s.procs) (hj : t.jid2job = s.jid2job) : t.Resumed serial :=
  h.keep hstops (fun p hmem _ hs => ⟨p, hp ▸ hmem, rfl, hs⟩)
    fun hg hst => ⟨_, _, hj ▸ hg, rfl, hst⟩

theorem waitStatus_stopped {p : Proc} {sig : Signal} (h : p.state = .stopped sig false) :
    p.waitStatus.isSome = true := by
  unfold Proc.waitStatus
  rw [h]
  rfl

/-- Jobs that are the old ones or not stopped. -/
theorem stopped_set {jid : Nat} {v : Option Job}
    (hv : ∀ job, v = some job → job.status.isStopped = true →
      ∃ job', s.jid2job.get jid = some job' ∧ job'.serial = job.serial ∧
        job'.status.isStopped = true)
    {jid' : Nat} {job : Job} (hg : (s.jid2job.set jid v).get jid' = some job)
    (hst : job.status.isStopped = true) :
    ∃ jid' job', s.jid2job.get jid' = some job' ∧ job'.serial = job.serial ∧
      job'.status.isStopped = true := by
  rcases SlotTable.get_set_eq_some.1 hg with ⟨-, hnew⟩ | ⟨-, hold⟩
  · obtain ⟨job', hg', hser, hst'⟩ := hv job hnew hst
    exact ⟨jid, job', hg', hser, hst'⟩
  · exact ⟨jid', job, hold, rfl, hst⟩

theorem stopped_modify {jid : Nat} {f : Job → Job} {jid' : Nat} {job : Job}
    (hg : (s.jid2job.modify jid f).get jid' = some job) (hst : job.status.isStopped = true)
    (hf : ∀ job, (f job).serial = job.serial ∧
      ((f job).status.isStopped = true → job.status.isStopped = true)) :
    ∃ jid' job', s.jid2job.get jid' = some job' ∧ job'.serial = job.serial ∧
      job'.status.isStopped = true := by
  rcases SlotTable.get_modify_eq_some.1 hg with ⟨-, job', hjob, rfl⟩ | ⟨-, hold⟩
  · exact ⟨jid, job', hjob, (hf job').1.symm, (hf job').2 hst⟩
  · exact ⟨jid', job, hold, rfl, hst⟩

/-- A job is stopped by the stop of a process only. -/
theorem handled_stopped {job : Job} {attr : Termios} {st : ExitStatus}
    (h : (job.handled attr (.terminated st)).status.isStopped = true) :
    job.status.isStopped = true := by
  cases st with
  | exited code =>
    simp only [Job.handled] at h
    split at h
    · cases h
    · exact h
  | signaled sig => exact h

/-- The process whose status is taken up belongs to the job that is found. -/
theorem owner_of_find (hs : s.ledger.Balanced) {p : Proc} (hp : p ∈ s.procs) {jid : Nat} {job : Job}
    (hj : getJobFromPid s.jid2job p.pid = some jid) (hg : s.jid2job.get jid = some job) :
    job.serial = p.owner :=
  hs.owned p.child (children_mem hp) (account_of_get hg) (mem_pids_of_find hj hg)

/-- A child changes its state. -/
theorem Resumed.child {serial : Nat} {pid : Pid} {c : Change} {procs : List Proc}
    (h : s.Resumed serial) (hc : changeProc s.procs pid c = some procs) :
    Resumed { s with procs, sigchldPending := true, stops := s.stopsAfter pid c } serial := by
  have mono : ∀ {n}, n ∈ s.stops → n ∈ s.stopsAfter pid c := by
    intro n hn
    cases c with
    | stop sig => exact List.mem_append_left _ hn
    | _ => exact hn
  refine ⟨fun p hp ho sig hs => ?_, fun hg hser hst => mono (h.jobs hg hser hst)⟩
  obtain ⟨q, q', hq, hqpid, hchange, rfl⟩ := changeProc_cases hc
  obtain ⟨r, hr, rfl⟩ := List.mem_map.1 hp
  by_cases hrp : r.pid = pid
  · rw [if_pos hrp] at ho hs
    obtain rfl := Proc.change_stopped hchange hs
    have howner : q.owner = serial := (Proc.change_same hchange).owner.symm.trans ho
    refine List.mem_append_right _ (List.mem_map.2 ⟨q, ?_, howner⟩)
    exact List.mem_filter.2 ⟨hq, decide_eq_true hqpid⟩
  · rw [if_neg hrp] at ho hs
    exact mono (h.procs r hr ho sig hs)

/-- A status is taken up. -/
theorem Resumed.handled {serial : Nat} {pid : Pid} {status : WaitStatus} {procs : List Proc}
    {jid : Nat} {job : Job} (h : s.Resumed serial) (hb : s.ledger.Balanced)
    (hw : waitpid s.procs pid = some (status, procs))
    (hj : getJobFromPid s.jid2job pid = some jid) (hg : s.jid2job.get jid = some job)
    (hp : t.procs = procs)
    (ht : t.jid2job = s.jid2job.set jid (some (job.handled s.ttyAttr status)))
    (hstops : t.stops = s.stops) : t.Resumed serial := by
  have unreported : ∀ q ∈ t.procs, ∀ sig, q.state = .stopped sig false → q ∈ s.procs :=
    fun q hq _ hs => waitpid_unreported hw (hp ▸ hq) (waitStatus_stopped hs)
  obtain ⟨p, hmem, rfl, ⟨sig, rfl, hstate, -⟩ | ⟨st, rfl, -, -⟩⟩ := waitpid_cases hw
  · constructor
    · intro q hq ho sig' hs
      rw [hstops]
      exact h.procs q (unreported q hq sig' hs) ho sig' hs
    · intro jid' job' hg' hser hst
      rw [ht] at hg'
      rw [hstops]
      rcases SlotTable.get_set_eq_some.1 hg' with ⟨-, hnew⟩ | ⟨-, hold⟩
      · cases hnew
        have howner := owner_of_find hb hmem hj hg
        exact h.procs p hmem (howner.symm.trans ((job.handled_serial _ _).symm.trans hser)) sig
          hstate
      · exact h.jobs hold hser hst
  · refine h.keep hstops (fun q hq sig hs => ⟨q, unreported q hq sig hs, rfl, hs⟩) fun hg' hst => ?_
    rw [ht] at hg'
    refine stopped_set (fun job' he hst' => ?_) hg' hst
    cases he
    exact ⟨job, hg, (job.handled_serial _ _).symm, handled_stopped hst'⟩

/-- `SIGCONT` discards the stops of the processes of the job. -/
theorem Resumed.sigcont {jid : Nat} {job : Job} (hs : s.ledger.Sound)
    (hg : s.jid2job.get jid = some job) (hst : job.status.isStopped = false)
    (hp : t.procs = Cush.killpg s.procs job.pgid .sigcont) (ht : t.jid2job = s.jid2job) :
    t.Resumed job.serial := by
  constructor
  · intro p hmem ho sig hstate
    rw [hp] at hmem
    obtain ⟨q, hq, rfl⟩ := List.mem_map.1 hmem
    have hgroup : q.pgid = job.pgid := by
      have howner : q.owner = job.serial := by
        split at ho
        · exact (q.signal_same .sigcont).owner.symm.trans ho
        · exact ho
      exact (hs.recorded _ (children_mem hq) (account_of_get hg) howner.symm).2
    rw [if_pos hgroup] at hstate
    exact absurd hstate (q.signal_sigcont sig false)
  · intro jid' job' hg' hser hst'
    rw [ht] at hg'
    obtain rfl := hs.serial_inj (account_of_get hg') (account_of_get hg) hser
    rw [hg] at hg'
    cases hg'
    rw [hst] at hst'
    cases hst'

/-! ## Every run -/

theorem Resuming.of_none (h : t.pc.resuming = none) : t.Resuming :=
  fun _ _ hp => nomatch h.symm.trans hp

theorem DispatchTo.resuming {jid2job : SlotTable Job} {node : PipeNode} {pc : Pc}
    (h : DispatchTo jid2job node pc) : pc.resuming = none := by
  cases h <;> rfl

/-- The status that `fg` and `bg` write. -/
theorem Resuming.of_status {jid : Nat} {status : JobStatus} (hp : t.pc.resuming = some jid)
    (ht : t.jid2job = s.jid2job.modify jid fun job => { job with status })
    (hst : status.isStopped = false) : t.Resuming := by
  intro jid' job hp' hg
  cases hp.symm.trans hp'
  rw [ht] at hg
  rcases SlotTable.get_modify_eq_some.1 hg with ⟨-, job', -, rfl⟩ | ⟨hne, -⟩
  · exact hst
  · exact absurd rfl hne

theorem Resuming.handled {pid : Pid} {status : WaitStatus} {procs : List Proc} {jid : Nat}
    {job : Job} (h : s.Resuming) (hb : s.ledger.Balanced) (hg : s.noStaleStop e = true)
    (hwait : s.Waiting e pid) (hw : waitpid s.procs pid = some (status, procs))
    (hj : getJobFromPid s.jid2job pid = some jid) (hget : s.jid2job.get jid = some job)
    (hp : t.pc = s.pc)
    (ht : t.jid2job = s.jid2job.set jid (some (job.handled s.ttyAttr status))) : t.Resuming := by
  intro jid' job' hres hget'
  rw [hp] at hres
  rw [ht] at hget'
  rcases SlotTable.get_set_eq_some.1 hget' with ⟨rfl, hnew⟩ | ⟨-, hother⟩
  · cases hnew
    have hold := h jid' job hres hget
    obtain ⟨p, hmem, rfl, ⟨sig, rfl, hstate, -⟩ | ⟨st, rfl, -, -⟩⟩ := waitpid_cases hw
    · -- the guard excludes the stop of a process of this job
      exfalso
      cases e with
      | reap pid' =>
        obtain ⟨rfl, -⟩ := hwait
        have howner := owner_of_find hb hmem hj hget
        simp only [noStaleStop, hres, Option.bind_some, hget, Option.all_some,
          List.all_eq_true] at hg
        have hp := hg p hmem
        simp [howner, Proc.waitStatus, hstate] at hp
      | waitpid pid' =>
        obtain ⟨-, -, jid, job, hp, -⟩ := hwait
        rw [hp] at hres
        cases hres
      | _ => cases hwait
    · cases hst : ((job.handled s.ttyAttr (.terminated st)).status).isStopped with
      | false => rfl
      | true => exact absurd (handled_stopped hst) (by rw [hold]; exact Bool.false_ne_true)
  · exact h jid' job' hres hother

theorem Resuming.move (h : s.Resuming) (hb : s.ledger.Balanced) (hg : s.noStaleStop e = true)
    (hm : Move s e t) : t.Resuming := by
  cases hm with
  | child | sigchld | setAttr | others | handlerStart | handlerReturn | lineEmpty => exact h
  | handled out hwait hm hw hj hget => exact h.handled hb hg hwait hw hj hget rfl rfl
  | dispatch out hh hp hl ht => exact .of_none ht.resuming
  | fgStatus | bgStatus => exact .of_status rfl rfl rfl
  | @deadEnd i exiting => cases exiting <;> exact .of_none rfl
  | _ => exact .of_none rfl

theorem Resumed.move (h : ∀ n, s.resumed = some n → s.Resumed n) (hR : s.Resuming)
    (hs : s.ledger.Sound) (hb : s.ledger.Balanced) (hm : Move s e t) :
    ∀ n, t.resumed = some n → t.Resumed n := by
  intro n hn
  cases hm with
  | child hc => exact (h n hn).child hc
  | handled out hwait hm hw hj hg => exact (h n hn).handled hb hw hj hg rfl rfl rfl
  | lost hwait hw hj | unblocked hwait hw hm =>
    exact (h n hn).keep rfl
      (fun q hq sig hst => ⟨q, waitpid_unreported hw hq (waitStatus_stopped hst), rfl, hst⟩)
      fun hg hst => ⟨_, _, hg, rfl, hst⟩
  | listNext => cases hn
  | killpg hh hp hg =>
    refine (h n hn).keep rfl (fun p hmem sig hst => ?_) fun hg hst => ⟨_, _, hg, rfl, hst⟩
    obtain ⟨q, hq, rfl⟩ := List.mem_map.1 hmem
    refine ⟨q, hq, ?_⟩
    split at hst
    · rename_i hgroup
      rw [if_pos hgroup]
      exact ⟨(q.signal_same _).owner.symm, Proc.signal_stopped hst⟩
    · rename_i hgroup
      rw [if_neg hgroup]
      exact ⟨rfl, hst⟩
  | @fgStatus jid | @bgStatus jid =>
    exact (h n hn).keep rfl (fun p hmem _ hst => ⟨p, hmem, rfl, hst⟩) fun hg hst =>
      stopped_modify hg hst fun _ => ⟨rfl, fun hf => nomatch hf⟩
  | @fgCont jid job pending hh hp hg | @bgCont jid job pending hh hp hg =>
    cases hn
    exact .sigcont hs hg (hR jid job (by rw [hp]; rfl) hg) rfl rfl
  | @addJob node fds jid job hh hp hj hlt hjob =>
    refine (h n hn).keep rfl (fun p hmem _ hst => ⟨p, hmem, rfl, hst⟩) fun hg hst => ?_
    refine stopped_set (fun job' he hst' => ?_) hg hst
    cases he
    subst hjob
    dsimp only at hst'
    split at hst' <;> cases hst'
  | @spawned ctx fa cmd rest job pid =>
    refine (h n hn).keep rfl (fun p hmem sig hst => ?_) fun hg hst =>
      stopped_modify hg hst fun _ => ⟨rfl, id⟩
    rcases List.mem_append.1 hmem with hmem' | hmem'
    · exact ⟨p, hmem', rfl, hst⟩
    · rw [List.mem_singleton.1 hmem'] at hst
      cases hst
  | spawnFailed | deadDelete =>
    exact (h n hn).keep rfl (fun p hmem _ hst => ⟨p, hmem, rfl, hst⟩) fun hg hst =>
      stopped_set (fun job he => by cases he) hg hst
  | _ => exact (h n hn).same rfl rfl rfl

theorem Run.resuming (hr : Run (fun s e => s.noReuse e && s.noStaleStop e) s) :
    s.Resuming ∧ ∀ n, s.resumed = some n → s.Resumed n := by
  refine Lts.Reach.invariant
    (I := fun s => s.Resuming ∧ ∀ n, s.resumed = some n → s.Resumed n) ?_ ?_ hr
  · rintro s ⟨shellPgrp, attr, openMax, -, rfl⟩
    exact ⟨.of_none rfl, fun n hn => nomatch hn⟩
  · rintro s e t hr ⟨hR, hI⟩ hg hs
    have hb := Run.balanced (Run.left hr)
    exact ⟨hR.move hb (Bool.and_eq_true_iff.1 hg).2 (step_move hs).2,
      Resumed.move hI hR (Run.sound hr) hb (step_move hs).2⟩

/-- **A job that is recorded as stopped after `fg` or `bg` has been stopped since their `SIGCONT`**,
in every run in which the handler takes up no stop of the job between the step that writes its
status and the one that sends the signal. -/
theorem resumed_run (hr : Run (fun s e => s.noReuse e && s.noStaleStop e) s) {n jid : Nat}
    {job : Job} (hn : s.resumed = some n) (hg : s.jid2job.get jid = some job)
    (hser : job.serial = n) (hst : job.status = .stopped ∨ job.status = .needsTerminal) :
    n ∈ s.stops := by
  refine (hr.resuming.2 n hn).jobs hg hser ?_
  rcases hst with hst | hst <;> rw [hst] <;> rfl

/-- `stop 1`, whose stop is taken up at the prompt, and `bg 1`; then the process is stopped again.
-/
def stopTwice : List Event :=
  [.line ['s', '&'], .main, .main, .main, .main, .setUp fun _ => 0, .spawned 100] ++
    List.replicate 11 .main ++ [.child 100 (.stop .sigtstp), .sigchldHandler, .reap 100,
      .handlerReturn, .line ['b', 'g', ' ', '1'], .main, .main, .main,
      .child 100 (.stop .sigtstp), .sigchldHandler, .reap 100, .handlerReturn]

theorem resumed_run_twice : ∃ s, Lts.exec step (fun s e => s.noReuse e && s.noStaleStop e)
      (State.init 50 7 .usual) stopTwice = some s ∧ s.pc = .listNext ∧
    (s.jid2job.get 1).map Job.status = some .stopped ∧ 0 ∈ s.stops := by
  have hrun : (Lts.exec step (fun s e => s.noReuse e && s.noStaleStop e) (State.init 50 7 .usual)
      stopTwice).map (fun s => (s.pc, s.resumed, (s.jid2job.get 1).map fun job =>
        (job.serial, job.status))) = some (.listNext, some 0, some (0, .stopped)) := by
    decide
  obtain ⟨s, hs, he⟩ := Option.map_eq_some_iff.1 hrun
  simp only [Prod.mk.injEq] at he
  obtain ⟨hp, hres, hjob⟩ := he
  obtain ⟨job, hg, hj⟩ := Option.map_eq_some_iff.1 hjob
  obtain ⟨hser, hst⟩ := Prod.ext_iff.1 hj
  refine ⟨s, hs, hp, ?_, resumed_run (Run.exec (by decide) hs) hres hg hser (Or.inl hst)⟩
  rw [hg]
  exact congrArg some hst

/-- The process of the job is stopped and the handler takes that up, after `fg` has written the
status and before it sends `SIGCONT`: the job stays recorded as stopped, and its process runs. -/
theorem resumed_staleStop : ∃ s, Run noReuse s ∧ s.pc = .listNext ∧ s.resumed = some 0 ∧
    (s.jid2job.get 1).map (fun job => (job.serial, job.status)) = some (0, .stopped) ∧
    s.stops = [] ∧ s.procs.map (fun p => (p.owner, p.state)) = [(0, .running)] := by
  have hrun : (Lts.exec step noReuse (State.init 50 7 .usual)
      ([.line ['s', '&'], .main, .main, .main, .main, .setUp fun _ => 0, .spawned 100] ++
        List.replicate 11 .main ++ [.line ['f', 'g', ' ', '1'], .main, .main,
          .child 100 (.stop .sigtstp), .sigchldHandler, .reap 100, .handlerReturn] ++
        List.replicate 11 .main)).map (fun s => ((s.pc, s.resumed, s.stops),
          (s.jid2job.get 1).map fun job => (job.serial, job.status),
          s.procs.map fun p => (p.owner, p.state))) =
      some ((.listNext, some 0, []), some (0, .stopped), [(0, .running)]) := by
    decide
  obtain ⟨s, hs, he⟩ := Option.map_eq_some_iff.1 hrun
  simp only [Prod.mk.injEq] at he
  obtain ⟨⟨hp, hres, hstops⟩, hjob, hprocs⟩ := he
  exact ⟨s, Run.exec (by decide) hs, hp, hres, hjob, hstops, hprocs⟩

end State

end Cush
