import Cush.Shell.Verify.Terminal

/-!
# One pipeline after the other

After `handle_job` has spawned the commands of a pipeline in the foreground, the main program stays
in `wait_for_job` until the last process of the pipeline has been reaped or one of them has stopped.
Statuses of other jobs are taken up meanwhile and change nothing for the job that is waited for.
-/

namespace Cush

namespace State

variable {s t : State} {e : Event} {ok : State → Event → Bool}

/-- A process of the job has not been reaped, and none has stopped. -/
def Unfinished (s : State) (serial : Nat) : Prop :=
  s.unreaped serial ≠ 0 ∧
    ∀ p ∈ s.procs, p.owner = serial → ∀ sig reported, p.state ≠ .stopped sig reported

/-- The main program waits for a job in the foreground, or is about to. -/
structure Waits (s : State) (node : PipeNode) (jid : Nat) (fds : Option (List Fd)) (serial : Nat) :
    Prop where
  pc : s.pc = .closeFds node jid fds false ∨ s.pc = .waitForJob jid
  job : ∃ job, s.jid2job.get jid = some job ∧ job.serial = serial ∧ job.status = .foreground

section Waits

variable {node : PipeNode} {jid serial : Nat} {fds : Option (List Fd)}

theorem Waits.blocks (h : s.Waits node jid fds serial) : s.pc.blocks = true := by
  rcases h.pc with hp | hp <;> rw [hp] <;> rfl

/-- The handler does not run. -/
theorem Waits.handler (h : s.Waits node jid fds serial) (hM : s.Masked) : s.handler = none := by
  cases hh : s.handler with
  | none => rfl
  | some m =>
    have hb := (hM.handler hh).2.2
    rw [h.blocks] at hb
    cases hb

/-- The end of a process leaves a job in the foreground. -/
theorem handled_terminated_status {job : Job} {attr : Termios} {st : ExitStatus}
    (h : job.status = .foreground) :
    (job.handled attr (.terminated st)).status = .foreground := by
  cases st with
  | exited code =>
    simp only [Job.handled]
    rw [if_neg]
    · exact h
    · rintro ⟨hb, -⟩
      rw [h] at hb
      cases hb
  | signaled sig => exact h

theorem Waits.handled (h : s.Waits node jid fds serial) (hb : s.ledger.Balanced)
    (hun : s.Unfinished serial) {pid : Pid} {status : WaitStatus} {procs : List Proc} {jid' : Nat}
    {job : Job} (hw : waitpid s.procs pid = some (status, procs))
    (hj : getJobFromPid s.jid2job pid = some jid') (hg : s.jid2job.get jid' = some job)
    (hp : t.pc = s.pc)
    (ht : t.jid2job = s.jid2job.set jid' (some (job.handled s.ttyAttr status))) :
    t.Waits node jid fds serial := by
  refine ⟨hp ▸ h.pc, ?_⟩
  obtain ⟨own, hown, hser, hst⟩ := h.job
  rw [ht]
  by_cases hjid : jid = jid'
  · subst hjid
    cases hg.symm.trans hown
    refine ⟨_, SlotTable.get_set_self _ _ _, (job.handled_serial _ _).trans hser, ?_⟩
    obtain ⟨p, hmem, rfl, ⟨sig, rfl, hstate, -⟩ | ⟨st, rfl, -, -⟩⟩ := waitpid_cases hw
    · -- a process of the job would have stopped
      have howner := hb.owned p.child (children_mem hmem) (account_of_get hg)
        (mem_pids_of_find hj hg)
      exact absurd hstate (hun.2 p hmem (howner.symm.trans hser) sig false)
    · exact handled_terminated_status hst
  · exact ⟨own, (SlotTable.get_set_ne _ hjid _).trans hown, hser, hst⟩

/-- Nothing but the end of the job ends the wait. -/
theorem Waits.move (h : s.Waits node jid fds serial) (hr : Run noReuse s)
    (hun : s.Unfinished serial) (hbg : node.pipe.bgJob = false) (hm : Move s e t)
    (hlive : t.pc.live = true) : t.Waits node jid fds serial := by
  have hh := h.handler hr.masked
  obtain ⟨own, hown, hser, hst⟩ := h.job
  cases hm with
  | child | sigchld | setAttr | others => exact ⟨h.pc, h.job⟩
  | handlerStart hh hmask =>
    have hmain := hr.masked.main hh (by rcases h.pc with hp | hp <;> rw [hp] <;> rfl)
    rw [hmask, h.blocks] at hmain
    cases hmain
  | handlerReturn hs =>
    rw [hh] at hs
    cases hs
  | handled out hwait hm hw hj hg => exact h.handled hr.balanced hun hw hj hg rfl rfl
  | @closeFdsWait node' jid' fds' o hh hp hb =>
    rcases h.pc with hpc | hpc
    · cases hp.symm.trans hpc
      exact ⟨Or.inr rfl, h.job⟩
    · cases hp.symm.trans hpc
  | @closeFds node' jid' fds' fail o out hh hp hb =>
    rcases h.pc with hpc | hpc
    · cases hp.symm.trans hpc
      rw [hbg] at hb
      rcases hb with hb | hb <;> cases hb
    · cases hp.symm.trans hpc
  | @waitEnd jid' job hh hp hg hk =>
    rcases h.pc with hpc | hpc
    · cases hp.symm.trans hpc
    · cases hp.symm.trans hpc
      cases hg.symm.trans hown
      have hcount := hr.counts hown
      have hne := hun.1
      rw [hser] at hcount
      have hwaits : keepsWaiting own = true := keepsWaiting_iff.2 ⟨hst, by omega⟩
      rw [hk] at hwaits
      cases hwaits
  | lost | unblocked | eof | crash | abort | waitFatal | giveFatal => cases hlive
  | _ =>
    have hpc := h.pc
    rw [‹s.pc = _›] at hpc
    rcases hpc with hpc | hpc <;> cases hpc

theorem Path.waits (hr : Run noReuse s) (hp : s.pc = .closeFds node jid fds false)
    (hbg : node.pipe.bgJob = false) {job : Job} (hg : s.jid2job.get jid = some job)
    {l : List (State × Event)} (hpath : Path noReuse s l t)
    (hun : ∀ x ∈ l, x.1.Unfinished job.serial) (hlive : t.pc.live = true) :
    t.Waits node jid fds job.serial := by
  induction hpath with
  | nil =>
    obtain ⟨job', hg', -, hstatus⟩ := hr.started node jid (by rw [hp]; rfl)
    cases hg.symm.trans hg'
    rw [hbg] at hstatus
    exact ⟨Or.inl hp, job, hg, rfl, hstatus⟩
  | @snoc l t u e hpath hok hs ih =>
    have ht : Run noReuse t := Lts.Path.reach hpath hr
    have hw := ih (fun x hx => hun x (List.mem_append_left _ hx)) (step_move hs).1
    have hunt := hun (t, e) (List.mem_append_right _ (List.mem_singleton_self _))
    exact hw.move ht hunt hbg (step_move hs).2 hlive

end Waits

/-- A status of another job, taken up by `wait_for_job`. -/
theorem waitForJob_other (hr : Run noReuse s) {jid jid' : Nat} {job job' : Job} {pid : Pid}
    (hp : s.pc = .waitForJob jid) (hg : s.jid2job.get jid = some job)
    (hs : step s (.waitpid pid) = some t) {p : Proc} (hmem : p ∈ s.procs) (hpid : p.pid = pid)
    (hg' : s.jid2job.get jid' = some job') (ho : p.owner = job'.serial) (hne : jid' ≠ jid) :
    (t.pc = s.pc ∧ t.jid2job.get jid = some job ∧ keepsWaiting job = true) ∧
      (∃ new, t.jid2job = s.jid2job.set jid' (some new) ∧ new.serial = job'.serial) ∧
      t.ttyPgrp = s.ttyPgrp ∧ t.ttyAttr = s.ttyAttr := by
  subst hpid
  have hrec := hr.sound.recorded _ (children_mem hmem) (account_of_get hg') ho.symm
  have hwait := waiting_of_step hs (Or.inr rfl)
  have hk : keepsWaiting job = true := by
    obtain ⟨-, -, jid₁, job₁, hp₁, hg₁, hk⟩ := hwait
    cases hp.symm.trans hp₁
    cases hg.symm.trans hg₁
    exact hk
  have hj : getJobFromPid s.jid2job p.pid = some jid' := by
    cases hj : getJobFromPid s.jid2job p.pid with
    | none => exact absurd hrec.1 (getJobFromPid_none hj hg')
    | some jid₁ =>
      obtain ⟨job₁, hg₁, hmem₁⟩ := getJobFromPid_some hj
      rw [hr.balanced.disjoint (account_of_get hg₁) (account_of_get hg') hmem₁ hrec.1]
  obtain ⟨status, procs, out, hw, rfl⟩ := hwait.handled hr.masked hs hj hg'
  have hback : job'.givesBack status = false := by
    cases hback : job'.givesBack status with
    | false => rfl
    | true =>
      have hon := hr.attended _ _ hg' (keepsWaiting_of_givesBack hr hw hj hg' hback)
        (by rw [hp]; rfl)
      rw [hp] at hon
      exact absurd (Option.some.inj hon).symm hne
  refine ⟨⟨rfl, ?_, hk⟩, ⟨_, rfl, job'.handled_serial _ _⟩, ?_, ?_⟩
  · exact (SlotTable.get_set_ne _ hne.symm _).trans hg
  · exact if_neg (by rw [hback]; exact Bool.false_ne_true)
  · exact if_neg (by rw [hback]; exact Bool.false_ne_true)

/-- **A pipeline in the foreground is waited for.** Once its commands have been spawned, the main
program stays before or in `wait_for_job` as long as a process of the pipeline has not been reaped
and none has stopped, whatever happens to the children; so nothing of the rest of the line is
started. A status of a process of another job that `wait_for_job` takes up changes that job only,
and the wait goes on. -/
theorem waitForJob_run (hr : Run noReuse s) :
    (∀ node jid fds job l t, s.pc = .closeFds node jid fds false → node.pipe.bgJob = false →
      s.jid2job.get jid = some job → Path noReuse s l t →
      (∀ x ∈ l, x.1.Unfinished job.serial) → t.pc.live = true →
        t.pc = .closeFds node jid fds false ∨ t.pc = .waitForJob jid) ∧
    ∀ jid jid' job job' pid t, s.pc = .waitForJob jid → s.jid2job.get jid = some job →
      step s (.waitpid pid) = some t → (∃ p ∈ s.procs, p.pid = pid ∧ p.owner = job'.serial) →
      s.jid2job.get jid' = some job' → jid' ≠ jid →
        (t.pc = s.pc ∧ t.jid2job.get jid = some job ∧ keepsWaiting job = true) ∧
          (∃ new, t.jid2job = s.jid2job.set jid' (some new) ∧ new.serial = job'.serial) ∧
          t.ttyPgrp = s.ttyPgrp ∧ t.ttyAttr = s.ttyAttr := by
  refine ⟨fun node jid fds job l t hp hbg hg hpath hun hlive => ?_, ?_⟩
  · exact (hpath.waits hr hp hbg hg hun hlive).pc
  · rintro jid jid' job job' pid t hp hg hs ⟨p, hmem, hpid, ho⟩ hg' hne
    exact waitForJob_other hr hp hg hs hmem hpid hg' ho hne

/-- `s &`, and a second command in the foreground; the first process exits. -/
def waitBoth : List Event :=
  [.line ['s', '&'], .main, .main, .main, .main, .setUp fun _ => 0, .spawned 100] ++
    List.replicate 11 .main ++
  [.line ['s'], .main, .main, .main, .main, .setUp fun _ => 0, .spawned 101, .main, .main,
    .child 100 (.exit 0)]

theorem waitForJob_run_both : ∃ s t,
    Lts.exec step noReuse (State.init 50 7 .usual) waitBoth = some s ∧ s.pc = .waitForJob 2 ∧
      step s (.waitpid 100) = some t ∧ t.pc = s.pc ∧ t.jid2job.get 2 = s.jid2job.get 2 := by
  have hrun : ((Lts.exec step noReuse (State.init 50 7 .usual) waitBoth).bind fun s =>
      (step s (.waitpid 100)).map fun _ => (s.pc, s.procs.map (fun p => (p.pid, p.owner)),
        (s.jid2job.get 1).map Job.serial, (s.jid2job.get 2).map Job.serial)) =
      some (.waitForJob 2, [(100, 0), (101, 1)], some 0, some 1) := by
    decide
  obtain ⟨s, hs, hstep⟩ := Option.bind_eq_some_iff.1 hrun
  obtain ⟨t, ht, he⟩ := Option.map_eq_some_iff.1 hstep
  simp only [Prod.mk.injEq] at he
  obtain ⟨hp, hprocs, h1, h2⟩ := he
  obtain ⟨job', hg', hser⟩ := Option.map_eq_some_iff.1 h1
  obtain ⟨job, hg, -⟩ := Option.map_eq_some_iff.1 h2
  have hmem : (100, 0) ∈ s.procs.map fun p => (p.pid, p.owner) := by
    rw [hprocs]
    decide
  obtain ⟨p, hp', hpe⟩ := List.mem_map.1 hmem
  obtain ⟨hpid, ho⟩ := Prod.ext_iff.1 hpe
  obtain ⟨⟨hpc, hsame, -⟩, -⟩ :=
    (waitForJob_run (Run.exec (by decide) hs)).2 2 1 job job' 100 t hp hg ht
      ⟨p, hp', hpid, ho.trans hser.symm⟩ hg' (by decide)
  exact ⟨s, t, hs, hp, ht, hpc, hsame.trans hg.symm⟩

end State

end Cush
