import Cush.Shell.Verify.Foreground
import Cush.Shell.Verify.Table

/-!
# One job in the foreground

`add_job` and `fg` make a job `FOREGROUND`, and neither takes the status from another job. A stop
takes it from the job itself, but the end of the last process does not: such a job stays
`FOREGROUND` until `delete_dead_jobs` deletes it after the line. A second one is there whenever the
line puts another job in the foreground before that.
-/

namespace Cush

/-- A job that is `FOREGROUND` although no process of it is left. -/
def Job.finishedForeground (job : Job) : Bool :=
  job.status = .foreground && job.numProcessesAlive ≤ 0

namespace State

variable {s t : State} {e : Event} {ok : State → Event → Bool}

/-- At most one job is in the foreground. -/
def AtMostOne (s : State) : Prop :=
  ∀ i j a b, s.jid2job.get i = some a → s.jid2job.get j = some b → a.status = .foreground →
    b.status = .foreground → i = j

/-- Where a job is put in the foreground, no other one has been left there. -/
def startsAlone (s : State) : Event → Bool
  | .main =>
    match s.pc with
    | .addJob node _ => node.pipe.bgJob || (s.jid2job.find Job.finishedForeground).isNone
    | .fgStatus jid =>
      (s.jid2job.find fun job => job.finishedForeground && job.jid ≠ jid).isNone
    | _ => true
  | _ => true

/-- The steps that put a job in the foreground. -/
def PutsForeground (s : State) (jid : Nat) : Prop :=
  (∃ node fds, s.pc = .addJob node fds ∧ node.pipe.bgJob = false ∧
    jid = s.jid2job.firstFree 1) ∨ s.pc = .fgStatus jid

/-- A job that is in the foreground was there before or is put there. -/
theorem foreground_back {jid : Nat} {job : Job} (h : JobFrom s e jid job)
    (hf : job.status = .foreground) :
    (∃ old, s.jid2job.get jid = some old ∧ old.status = .foreground) ∨
      (e = .main ∧ s.PutsForeground jid) := by
  cases h with
  | same hg => exact Or.inl ⟨job, hg, hf⟩
  | handled hwait hw hj hg => exact Or.inl ⟨_, hg, Job.handled_foreground hf⟩
  | fgStatus he hp => exact Or.inr ⟨he, Or.inr hp⟩
  | bgStatus => cases hf
  | spawned he hp hj hg => exact Or.inl ⟨_, hg, hf⟩
  | @added node fds he hp hj =>
    right
    refine ⟨he, Or.inl ⟨node, fds, hp, ?_, hj⟩⟩
    cases hb : node.pipe.bgJob with
    | false => rfl
    | true =>
      simp only [hb] at hf
      cases hf

theorem finishedForeground_iff {job : Job} :
    job.finishedForeground = true ↔ job.status = .foreground ∧ job.numProcessesAlive ≤ 0 := by
  unfold Job.finishedForeground
  rw [Bool.and_eq_true, decide_eq_true_eq, decide_eq_true_eq]

/-- The step of `add_job`. -/
theorem startsAlone_addJob {node : PipeNode} {fds : Option (List Fd)} (h : s.Attended)
    (hp : s.pc = .addJob node fds) (hb : node.pipe.bgJob = false) :
    s.startsAlone .main = true ↔ ∀ jid job, s.jid2job.get jid = some job →
      job.status ≠ .foreground := by
  unfold startsAlone
  rw [hp]
  dsimp only
  rw [hb, Bool.false_or, Option.isNone_iff_eq_none]
  constructor
  · intro hnone jid job hg hf
    have hle := h.finished (by rw [hp]; rfl) (by rw [hp]; rfl) hg hf
    have hfin := finishedForeground_iff.2 ⟨hf, hle⟩
    rw [SlotTable.find_none hnone hg] at hfin
    cases hfin
  · intro hall
    cases hfind : s.jid2job.find Job.finishedForeground with
    | none => rfl
    | some jid =>
      obtain ⟨⟨job, hg, hfin⟩, -⟩ := SlotTable.find_some hfind
      exact absurd (finishedForeground_iff.1 hfin).1 (hall jid job hg)

/-- The step of `fg`. -/
theorem startsAlone_fgStatus {jid : Nat} (h : s.Attended) (hL : s.Listed)
    (hp : s.pc = .fgStatus jid) :
    s.startsAlone .main = true ↔ ∀ jid' job, s.jid2job.get jid' = some job →
      job.status = .foreground → jid' = jid := by
  unfold startsAlone
  rw [hp]
  dsimp only
  rw [Option.isNone_iff_eq_none]
  constructor
  · intro hnone jid' job hg hf
    have hle := h.finished (by rw [hp]; rfl) (by rw [hp]; rfl) hg hf
    have hno := SlotTable.find_none hnone hg
    rw [finishedForeground_iff.2 ⟨hf, hle⟩, Bool.true_and, decide_eq_false_iff_not, not_not] at hno
    exact (hL.slot hg).1.symm.trans hno
  · intro hall
    cases hfind : s.jid2job.find fun job => job.finishedForeground && decide (job.jid ≠ jid) with
    | none => rfl
    | some k =>
      obtain ⟨⟨job, hg, hc⟩, -⟩ := SlotTable.find_some hfind
      obtain ⟨hfin, hne⟩ := Bool.and_eq_true_iff.1 hc
      have hk := hall k job hg (finishedForeground_iff.1 hfin).1
      exact absurd ((hL.slot hg).1.trans hk) (of_decide_eq_true hne)

/-- A step puts one job in the foreground. -/
theorem PutsForeground.unique {i j : Nat} (hi : s.PutsForeground i) (hj : s.PutsForeground j) :
    i = j := by
  rcases hi with ⟨node, fds, hp, -, hi⟩ | hp
  · rcases hj with ⟨-, -, -, -, hj⟩ | hp'
    · exact hi.trans hj.symm
    · cases hp.symm.trans hp'
  · rcases hj with ⟨node, fds, hp', -, -⟩ | hp'
    · cases hp.symm.trans hp'
    · cases hp.symm.trans hp'
      rfl

theorem AtMostOne.step (h : s.AtMostOne) (hr : Run ok s) (hok : s.startsAlone e = true)
    (hs : step s e = some t) : t.AtMostOne := by
  have hm := (step_move hs).2
  -- a job that was in the foreground before is the one that is put there
  have alone : ∀ {i j old}, s.jid2job.get i = some old → old.status = .foreground →
      e = .main ∧ s.PutsForeground j → i = j := by
    rintro i j old hold hf ⟨rfl, ⟨node, fds, hp, hb, -⟩ | hp⟩
    · exact absurd hf ((startsAlone_addJob hr.attended hp hb).1 hok i old hold)
    · exact (startsAlone_fgStatus hr.attended hr.listed hp).1 hok i old hold hf
  intro i j a b ha hb hfa hfb
  rcases foreground_back (JobFrom.move hr.masked hm ha) hfa with ⟨a', ha', hfa'⟩ | hnewa
  · rcases foreground_back (JobFrom.move hr.masked hm hb) hfb with ⟨b', hb', hfb'⟩ | hnewb
    · exact h i j a' b' ha' hb' hfa' hfb'
    · exact alone ha' hfa' hnewb
  · rcases foreground_back (JobFrom.move hr.masked hm hb) hfb with ⟨b', hb', hfb'⟩ | hnewb
    · exact (alone hb' hfb' hnewa).symm
    · exact hnewa.2.unique hnewb.2

theorem Run.atMostOne (hr : Run startsAlone s) : s.AtMostOne := by
  refine Lts.Reach.invariant (I := State.AtMostOne) ?_
    (fun _ _ _ hr hI hok hs => hI.step hr hok hs) hr
  rintro s ⟨shellPgrp, attr, openMax, -, rfl⟩ i j a b ha
  cases ha

/-- A step that misses the condition leaves two jobs in the foreground. -/
theorem startsAlone_of_atMostOne (hr : Run ok s) (hs : step s e = some t)
    (hl : t.pc.live = true) (h : t.AtMostOne) : s.startsAlone e = true := by
  cases (step_move hs).2 with
  | @addJob node fds jid new hh hp hj hlt hjob =>
    cases hb : node.pipe.bgJob with
    | true =>
      unfold startsAlone
      rw [hp]
      dsimp only
      rw [hb, Bool.true_or]
    | false =>
      refine (startsAlone_addJob hr.attended hp hb).2 fun k job hg hf => ?_
      have hfree : s.jid2job.get jid = none := by
        rw [hj]
        exact (SlotTable.firstFree_spec _ _).2.1
      have hne : k ≠ jid := by
        rintro rfl
        cases hg.symm.trans hfree
      subst hjob
      have hk := h k jid _ _ ((SlotTable.get_set_ne _ hne _).trans hg)
        (SlotTable.get_set_self _ _ _) hf (by rw [hb]; rfl)
      exact hne hk
  | @fgStatus jid hh hp =>
    refine (startsAlone_fgStatus hr.attended hr.listed hp).2 fun k job hg hf => ?_
    by_contra hne
    obtain ⟨new, hnew⟩ := hr.present jid (by rw [hp]; rfl)
    have hget : (s.jid2job.modify jid fun job => { job with status := .foreground }).get k =
        some job := by
      rw [SlotTable.get_modify, if_neg hne]
      exact hg
    exact hne (h k jid _ _ hget (SlotTable.get_modify_self hnew _) hf rfl)
  | lost | unblocked | eof | crash | abort | waitFatal | giveFatal => cases hl
  | handled out hwait => rcases hwait.event with rfl | rfl <;> rfl
  | _ =>
    first
      | rfl
      | (unfold startsAlone; rw [‹s.pc = _›])

/-- **At most one job is in the foreground** in every run in which, whenever `add_job` or `fg` puts
a job there, none that has finished has been left there. A step from a state of such a run leads to
a state with at most one if and only if it meets the condition. -/
theorem atMostOne_run (hr : Run startsAlone s) :
    s.AtMostOne ∧ ∀ e t, step s e = some t → t.pc.live = true →
      (t.AtMostOne ↔ s.startsAlone e = true) :=
  ⟨hr.atMostOne, fun _ _ hs hl =>
    ⟨startsAlone_of_atMostOne hr hs hl, fun hok => hr.atMostOne.step hr hok hs⟩⟩

/-- A command in the foreground is stopped and resumed by `fg`. -/
def stopAndResume : List Event :=
  [.line ['s'], .main, .main, .main, .main, .setUp fun _ => 0, .spawned 100, .main, .main,
    .child 100 (.stop .sigtstp), .waitpid 100] ++ List.replicate 10 .main ++
  [.line ['f', 'g', ' ', '1'], .main, .main]

theorem atMostOne_run_resume : ∃ s,
    Lts.exec step startsAlone (State.init 50 7 .usual) stopAndResume = some s ∧
      (s.jid2job.get 1).map Job.status = some .foreground ∧ s.AtMostOne := by
  have hrun : (Lts.exec step startsAlone (State.init 50 7 .usual) stopAndResume).map (fun s =>
      (s.jid2job.get 1).map Job.status) = some (some .foreground) := by
    decide
  obtain ⟨s, hs, he⟩ := Option.map_eq_some_iff.1 hrun
  exact ⟨s, hs, he, (atMostOne_run (Run.exec (by decide) hs)).1⟩

/-- `a ; b`, where the first command has exited. -/
def startSecond : List Event :=
  [.line ['a', ';', 'b'], .main, .main, .main, .main, .setUp fun _ => 0, .spawned 100, .main, .main,
    .child 100 (.exit 0), .waitpid 100] ++ List.replicate 11 .main

/-- Both jobs are in the foreground. -/
theorem atMostOne_second : ∃ s, Run (fun _ _ => true) s ∧ s.pc.live = true ∧
    [1, 2].map (fun jid => (s.jid2job.get jid).map fun job =>
      (job.status, job.numProcessesAlive)) =
        [some (.foreground, 0), some (.foreground, 0)] ∧ ¬ s.AtMostOne := by
  have hrun : (Lts.exec step (fun _ _ => true) (State.init 50 7 .usual) startSecond).map (fun s =>
      (s.pc.live, [1, 2].map fun jid => (s.jid2job.get jid).map fun job =>
        (job.status, job.numProcessesAlive))) =
      some (true, [some (.foreground, 0), some (.foreground, 0)]) := by
    decide
  obtain ⟨s, hs, he⟩ := Option.map_eq_some_iff.1 hrun
  obtain ⟨hlive, hjobs⟩ := Prod.ext_iff.1 he
  refine ⟨s, Run.exec (by decide) hs, hlive, hjobs, fun h => ?_⟩
  have h1 := congrArg (fun l => l[0]?.join) hjobs
  have h2 := congrArg (fun l => l[1]?.join) hjobs
  obtain ⟨a, ha, hfa⟩ := Option.map_eq_some_iff.1 h1
  obtain ⟨b, hb, hfb⟩ := Option.map_eq_some_iff.1 h2
  have heq := h 1 2 a b ha hb (congrArg Prod.fst hfa) (congrArg Prod.fst hfb)
  cases heq

end State

end Cush
