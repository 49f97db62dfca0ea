import Cush.Shell.Verify.Credits
import Cush.Shell.Verify.Foreground

/-!
# What `jobs` lists

`jobs` prints every job of the table. A job whose last process has ended is only taken out of the
table after the line, and is marked as `DONE` only if it was in the background and its last process
has exited: one that ended in any other way is printed with the status that it had. The listing is
right if there is no such job when it starts, and none of those still to be printed becomes one.
-/

namespace Cush

/-- A job that counts no process and has not been marked as `DONE`. -/
def Job.leftOver (job : Job) : Bool :=
  job.numProcessesAlive = 0 && job.status ≠ .done

/-- Whether a status ends the last process of a job without marking the job as `DONE`. -/
def Job.endsUnmarked (job : Job) : WaitStatus → Bool
  | .stopped _ => false
  | .terminated (.exited _) =>
    job.numProcessesAlive = 1 && job.status ≠ .background && job.status ≠ .done
  | .terminated (.signaled _) => job.numProcessesAlive = 1 && job.status ≠ .done

theorem Job.leftOver_handled (job : Job) (attr : Termios) (status : WaitStatus)
    (h : 0 < job.numProcessesAlive) :
    (job.handled attr status).leftOver = job.endsUnmarked status := by
  rcases status with (code | sig) | sig
  · simp only [Job.handled, leftOver, endsUnmarked]
    by_cases h1 : job.numProcessesAlive = 1
    · simp only [h1, Int.sub_self, decide_true, and_true, Bool.true_and]
      by_cases hb : job.status = .background
      · simp [hb]
      · simp [hb]
    · simp [h1, show job.numProcessesAlive - 1 ≠ 0 by omega]
  · simp only [Job.handled, leftOver, endsUnmarked]
    congr 2
    exact propext ⟨fun _ => by omega, fun _ => by omega⟩
  · simp only [Job.handled, leftOver, endsUnmarked]
    simp [show job.numProcessesAlive ≠ 0 by omega]

/-! ## The texts of the statuses -/

theorem getStatus_done {status : JobStatus} : getStatus status = "Done" ↔ status = .done := by
  cases status <;> decide

theorem getStatus_running {status : JobStatus} :
    getStatus status = "Running" ↔ status = .background := by
  cases status <;> decide

theorem getStatus_foreground {status : JobStatus} :
    getStatus status = "Foreground" ↔ status = .foreground := by
  cases status <;> decide

namespace State

variable {s t : State} {e : Event} {ok : State → Event → Bool}

/-- What the entry of a job shows is the case. -/
def RightEntry (s : State) (job : Job) : Prop :=
  (0 < s.unreaped job.serial ∨ getStatus job.status = "Done") ∧
    (getStatus job.status = "Running" → 0 < s.unreaped job.serial) ∧
    getStatus job.status ≠ "Foreground"

/-- Every entry that `jobs` has still to print is right. -/
def ListsRight (s : State) : Prop :=
  ∀ i, s.pc = .jobs i → ∀ k job, i ≤ k → s.jid2job.get k = some job → s.RightEntry job

/-- No job is left over when `jobs` starts, and none that it has still to print becomes one. -/
def tidy (s : State) : Event → Bool
  | .main =>
    match s.pc, s.line with
    | .dispatch, node :: _ =>
      node.pipe.builtin ≠ some .jobs || (s.jid2job.find Job.leftOver).isNone
    | _, _ => true
  | .reap pid =>
    match s.pc with
    | .jobs i =>
      (getJobFromPid s.jid2job pid).all fun jid => jid < i ||
        (s.jid2job.get jid).all fun job =>
          (waitpid s.procs pid).all fun (status, _) => !job.endsUnmarked status
    | _ => true
  | _ => true

/-! ## Right entries -/

/-- While `jobs` runs, the entries of the jobs that are not left over are right, and no others. -/
theorem rightEntry_iff (hr : Run attributes s) (hl : s.pc.live = true) (hp : s.pc.onJob = none)
    {jid : Nat} {job : Job} (hg : s.jid2job.get jid = some job) :
    s.RightEntry job ↔ job.leftOver = false := by
  have hcount := hr.counted hg
  unfold RightEntry Job.leftOver
  rw [getStatus_done, getStatus_running, ne_eq, getStatus_foreground, Bool.and_eq_false_iff,
    decide_eq_false_iff_not, decide_eq_false_iff_not, not_not]
  constructor
  · rintro ⟨hun | hdone, -, -⟩
    · exact Or.inl (by omega)
    · exact Or.inr hdone
  · rintro (halive | hdone)
    · have hun : 0 < s.unreaped job.serial := by omega
      refine ⟨Or.inl hun, fun _ => hun, fun hf => ?_⟩
      have hle := hr.attended.finished hl hp hg hf
      omega
    · rw [hdone]
      exact ⟨Or.inr rfl, fun h => (nomatch h), fun h => (nomatch h)⟩

/-- The jobs that `jobs` has still to print are not left over. -/
def ListsTidy (s : State) : Prop :=
  ∀ i, s.pc = .jobs i → ∀ k job, i ≤ k → s.jid2job.get k = some job → job.leftOver = false

theorem listsRight_iff (hr : Run attributes s) : s.ListsRight ↔ s.ListsTidy := by
  refine forall_congr' fun i => imp_congr_right fun hp => forall_congr' fun k =>
    forall_congr' fun job => imp_congr_right fun _ => imp_congr_right fun hg => ?_
  exact rightEntry_iff hr (by rw [hp]; rfl) (by rw [hp]; rfl) hg

theorem ListsTidy.of_pc (h : ∀ i, t.pc ≠ .jobs i) : t.ListsTidy :=
  fun i hp => absurd hp (h i)

/-! ## `jobs` starts -/

/-- `handle_builtin` with `jobs`. -/
theorem dispatch_jobs {node : PipeNode} {rest : List PipeNode} (hs : step s .main = some t)
    (hp : s.pc = .dispatch) (hl : s.line = node :: rest) (hb : node.pipe.builtin = some .jobs) :
    t.pc = .jobs 0 ∧ t.jid2job = s.jid2job := by
  unfold AstPipeline.builtin at hb
  split at hb
  · rename_i name args dup cmds hc
    rw [step_dispatch hp hs, dispatch_command hl hc rfl]
    unfold handleBuiltin
    rw [hb]
    exact ⟨rfl, rfl⟩
  · cases hb

theorem listsTidy_dispatch {node : PipeNode} {rest : List PipeNode} (hs : step s .main = some t)
    (hp : s.pc = .dispatch) (hl : s.line = node :: rest) (hb : node.pipe.builtin = some .jobs) :
    t.ListsTidy ↔ s.tidy .main = true := by
  obtain ⟨hpt, htable⟩ := dispatch_jobs hs hp hl hb
  unfold tidy
  rw [hp, hl]
  dsimp only
  simp only [hb, ne_eq, not_true, decide_false, Bool.false_or, Option.isNone_iff_eq_none]
  constructor
  · intro h
    cases hfind : s.jid2job.find Job.leftOver with
    | none => rfl
    | some k =>
      obtain ⟨⟨job, hg, hleft⟩, -⟩ := SlotTable.find_some hfind
      rw [h 0 hpt k job (Nat.zero_le k) (htable ▸ hg)] at hleft
      cases hleft
  · intro hnone i _ k job _ hg
    rw [htable] at hg
    exact SlotTable.find_none hnone hg

/-! ## A status is taken up while `jobs` runs -/

theorem listsTidy_reap {i : Nat} {pid : Pid} (hr : Run attributes s) (h : s.ListsTidy)
    (hp : s.pc = .jobs i) (hs : step s (.reap pid) = some t) :
    t.ListsTidy ↔ s.tidy (.reap pid) = true := by
  have hguard : s.tidy (.reap pid) = (getJobFromPid s.jid2job pid).all fun jid => jid < i ||
      (s.jid2job.get jid).all fun job =>
        (waitpid s.procs pid).all fun (status, _) => !job.endsUnmarked status := by
    unfold tidy
    rw [hp]
  rw [hguard]
  cases (step_move hs).2 with
  | @handled _ pid status procs jid job out hwait hm hw hj hg =>
    obtain ⟨rfl, -⟩ := hwait
    rw [hj, Option.all_some, hg, Option.all_some, hw, Option.all_some, Bool.or_eq_true,
      decide_eq_true_eq, Bool.not_eq_true']
    -- the job has the process whose status it is
    obtain ⟨p, hmem, rfl, -⟩ := waitpid_cases hw
    have howner := owner_of_attributed hr.attributed hmem hj hg
    have hpos : 0 < s.unreaped job.serial :=
      List.countP_pos_iff.2 ⟨p, hmem, decide_eq_true howner.symm⟩
    have hcount := hr.counted hg
    have hleft := job.leftOver_handled s.ttyAttr status (by omega)
    constructor
    · intro ht
      by_cases hlt : jid < i
      · exact Or.inl hlt
      · right
        rw [← hleft]
        exact ht i hp jid _ (by omega) (SlotTable.get_set_self _ _ _)
    · intro hcond i' hp' k job' hk hget
      have hi : i' = i := Pc.jobs.inj (hp'.symm.trans hp)
      subst hi
      rcases SlotTable.get_set_eq_some.1 hget with ⟨rfl, hnew⟩ | ⟨-, hold⟩
      · cases hnew
        rw [hleft]
        exact hcond.resolve_left (by omega)
      · exact h i' hp k job' hk hold
  | lost hwait hw hj =>
    obtain ⟨rfl, -⟩ := hwait
    rw [hj, Option.all_none]
    exact iff_of_true (.of_pc fun _ h => nomatch h) rfl
  | unblocked hwait hw hm =>
    rw [hr.masked.sigchld hwait] at hm
    cases hm
  | crash hh o ds out tty hrf he | abort hh sc hist m o hrf he => cases he

/-! ## Every step -/

/-- The other steps meet the condition. -/
theorem ListsTidy.keep (h : s.ListsTidy) (hm : Move s e t)
    (hd : ∀ node rest, e = .main → s.pc = .dispatch → s.line = node :: rest →
      node.pipe.builtin ≠ some .jobs)
    (hw : ∀ i pid, s.pc = .jobs i → e ≠ .reap pid) : t.ListsTidy := by
  cases hm with
  | child | sigchld | setAttr | others | handlerStart | handlerReturn | lineEmpty =>
    exact fun i hp => h i hp
  | handled out hwait =>
    refine .of_pc fun i hp => ?_
    rcases hwait.event with rfl | rfl
    · exact hw i _ hp rfl
    · obtain ⟨-, -, jid, job, hpc, -⟩ := hwait
      cases hp.symm.trans hpc
  | dispatch out hh hp hl ht =>
    cases ht with
    | jobs hb => exact absurd hb (hd _ _ rfl hp hl)
    | _ => exact .of_pc fun _ h => nomatch h
  | jobsPrint hh hp hn hg =>
    intro i' hp' k job hk hget
    cases hp'
    have hle := (SlotTable.next_some hn).1
    exact h _ hp k job (by omega) hget
  | @deadEnd i exiting => cases exiting <;> exact .of_pc fun _ h => nomatch h
  | _ => exact .of_pc fun _ h => nomatch h

theorem listsTidy_step (hr : Run attributes s) (h : s.ListsTidy) (hs : step s e = some t) :
    t.ListsTidy ↔ s.tidy e = true := by
  by_cases hd : ∃ node rest, e = .main ∧ s.pc = .dispatch ∧ s.line = node :: rest ∧
      node.pipe.builtin = some .jobs
  · obtain ⟨node, rest, rfl, hp, hl, hb⟩ := hd
    exact listsTidy_dispatch hs hp hl hb
  by_cases hw : ∃ i pid, s.pc = .jobs i ∧ e = .reap pid
  · obtain ⟨i, pid, hp, rfl⟩ := hw
    exact listsTidy_reap hr h hp hs
  refine iff_of_true (h.keep (step_move hs).2 ?_ ?_) ?_
  · exact fun node rest he hp hl hb => hd ⟨node, rest, he, hp, hl, hb⟩
  · exact fun i pid hp he => hw ⟨i, pid, hp, he⟩
  · cases e with
    | main =>
      unfold tidy
      dsimp only
      split
      · rename_i node rest hp hl
        rw [Bool.or_eq_true, decide_eq_true_eq]
        exact Or.inl fun hb => hd ⟨node, rest, rfl, hp, hl, hb⟩
      · rfl
    | reap pid =>
      unfold tidy
      dsimp only
      split
      · rename_i i hp
        exact absurd ⟨i, pid, hp, rfl⟩ hw
      · rfl
    | _ => rfl

theorem Run.listsTidy (hr : Run (fun s e => s.attributes e && s.tidy e) s) : s.ListsTidy := by
  refine Lts.Reach.invariant (I := State.ListsTidy) ?_ ?_ hr
  · rintro s ⟨shellPgrp, attr, openMax, -, rfl⟩
    exact .of_pc fun _ h => nomatch h
  · intro s e t hr hI hok hs
    exact (listsTidy_step (Run.left hr) hI hs).2 (Bool.and_eq_true_iff.1 hok).2

/-- What `jobs` prints are entries of jobs in the table. -/
theorem jobs_prints {i : Nat} {o : Output} (hp : s.pc = .jobs i) (hs : step s .main = some t)
    (ho : t.out = s.out ++ [o]) : ∃ k job, i ≤ k ∧ s.jid2job.get k = some job ∧
      o = .job job.jid job.status (printCmdline job.pipe.pipe) := by
  obtain ⟨-, -, ha⟩ := step_main hs
  unfold answerStep mainStep at ha
  rw [hp] at ha
  cases ha
  unfold jobsNext at ho
  split at ho
  · exact absurd ho (by simp)
  · rename_i k hk
    obtain ⟨hle, job, hg⟩ := SlotTable.next_some hk
    unfold printJob at ho
    rw [hg] at ho
    exact ⟨k, job, hle, hg, (List.singleton_inj.1 (List.append_cancel_left ho)).symm⟩

/-- **The listing is right** in every run in which statuses are credited to the right jobs and which
meets the condition of `tidy`: every entry that `jobs` prints is one of a job that has a process
that has not been reaped or is shown as `Done`, one shown as `Running` has such a process, and none
is shown as `Foreground`. After a step the entries still to be printed are right if and only if the
step meets the condition. -/
theorem jobs_run (hr : Run (fun s e => s.attributes e && s.tidy e) s) :
    (∀ i t o, s.pc = .jobs i → step s .main = some t → t.out = s.out ++ [o] →
      ∃ k job, s.jid2job.get k = some job ∧
        o = .job job.jid job.status (printCmdline job.pipe.pipe) ∧ s.RightEntry job) ∧
    ∀ e t, step s e = some t → s.attributes e = true → (t.ListsRight ↔ s.tidy e = true) := by
  have hra : Run attributes s := Run.left hr
  refine ⟨fun i t o hp hs ho => ?_, fun e t hs hok => ?_⟩
  · obtain ⟨k, job, hle, hg, he⟩ := jobs_prints hp hs ho
    exact ⟨k, job, hg, he, (listsRight_iff hra).2 hr.listsTidy i hp k job hle hg⟩
  · rw [listsRight_iff (.step hra hok hs)]
    exact listsTidy_step hra hr.listsTidy hs

/-- `s &`, and then `jobs`. -/
def listRunning : List Event :=
  [.line ['s', '&'], .main, .main, .main, .main, .setUp fun _ => 0, .spawned 100] ++
    List.replicate 11 .main ++ [.line ['j', 'o', 'b', 's'], .main]

theorem jobs_run_running : ∃ s t, Lts.exec step (fun s e => s.attributes e && s.tidy e)
      (State.init 50 7 .usual) listRunning = some s ∧ step s .main = some t ∧
    t.out = s.out ++ [.job 1 .background ['s']] ∧ ∃ k job, s.jid2job.get k = some job ∧
      s.RightEntry job := by
  have hrun : ((Lts.exec step (fun s e => s.attributes e && s.tidy e) (State.init 50 7 .usual)
      listRunning).bind fun s => (step s .main).map fun t => (s.pc, s.out, t.out)) =
      some (.jobs 0, [.background 1 100], [.background 1 100, .job 1 .background ['s']]) := by
    decide
  obtain ⟨s, hs, hstep⟩ := Option.bind_eq_some_iff.1 hrun
  obtain ⟨t, ht, he⟩ := Option.map_eq_some_iff.1 hstep
  simp only [Prod.mk.injEq] at he
  obtain ⟨hp, hso, hto⟩ := he
  have ho : t.out = s.out ++ [.job 1 .background ['s']] := by
    rw [hso, hto]
    rfl
  obtain ⟨k, job, hg, -, hright⟩ := (jobs_run (Run.exec (by decide) hs)).1 0 t _ hp ht ho
  exact ⟨s, t, hs, ht, ho, k, job, hg, hright⟩

/-- `s ; jobs`, where the command has exited. -/
def listFinished : List Event :=
  [.line ['s', ';', 'j', 'o', 'b', 's'], .main, .main, .main, .main, .setUp fun _ => 0,
    .spawned 100, .main, .main, .child 100 (.exit 0), .waitpid 100] ++ List.replicate 8 .main

/-- The job has no process left, and is shown as `Foreground`. -/
theorem jobs_finished : ∃ s t job, Run (fun _ _ => true) s ∧ s.pc = .jobs 0 ∧
    step s .main = some t ∧ t.out = s.out ++ [.job 1 .foreground ['s']] ∧
    s.jid2job.get 1 = some job ∧ s.unreaped job.serial = 0 ∧ ¬ s.RightEntry job := by
  have hrun : ((Lts.exec step (fun _ _ => true) (State.init 50 7 .usual) listFinished).bind fun s =>
      (step s .main).map fun t => ((s.pc, s.out, t.out), s.procs.map Proc.pid,
        (s.jid2job.get 1).map Job.status)) =
      some ((.jobs 0, [], [.job 1 .foreground ['s']]), [], some .foreground) := by
    decide
  obtain ⟨s, hs, hstep⟩ := Option.bind_eq_some_iff.1 hrun
  obtain ⟨t, ht, he⟩ := Option.map_eq_some_iff.1 hstep
  simp only [Prod.mk.injEq] at he
  obtain ⟨⟨hp, hso, hto⟩, hprocs, hjob⟩ := he
  obtain ⟨job, hg, hst⟩ := Option.map_eq_some_iff.1 hjob
  have hzero : s.unreaped job.serial = 0 := by
    unfold unreaped
    rw [List.map_eq_nil_iff.1 hprocs]
    rfl
  refine ⟨s, t, job, Run.exec (by decide) hs, hp, ht, ?_, hg, hzero, fun hright => ?_⟩
  · rw [hso, hto]
    rfl
  · exact hright.2.2 (getStatus_foreground.2 hst)

end State

end Cush
