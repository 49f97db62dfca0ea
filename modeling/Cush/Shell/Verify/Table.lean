import Cush.Shell.Verify.Books

/-!
# The table of jobs and the list of jobs

`add_job` enters a job in the array `jid2job` and in `job_list`, and `delete_job` takes it out of
both. `JobChange` lists what a step can do to the two, and the rest follows from it: they hold the
same jobs, the list in the order of creation, and a job is found under its own id for as long as it
exists.
-/

namespace Cush

namespace State

variable {s t : State} {e : Event}

/-! ## What a step does to the jobs -/

/-- A step leaves the jobs alone, writes to one, adds one, or deletes one. -/
inductive JobChange (s t : State) : Prop
  | same (ht : t.jid2job = s.jid2job) (hl : t.jobList = s.jobList)
      (hn : t.nextSerial = s.nextSerial)
  | written {jid : Nat} {job job' : Job} (hg : s.jid2job.get jid = some job)
      (ht : t.jid2job = s.jid2job.set jid (some job')) (hs : job'.serial = job.serial)
      (hj : job'.jid = job.jid) (hl : t.jobList = s.jobList) (hn : t.nextSerial = s.nextSerial)
  | added {jid : Nat} {job : Job} (hi : jid = s.jid2job.firstFree 1) (hlt : jid < MAXJOBS)
      (ht : t.jid2job = s.jid2job.set jid (some job)) (hj : job.jid = jid)
      (hs : job.serial = s.nextSerial) (hl : t.jobList = s.jobList ++ [job.serial])
      (hn : t.nextSerial = s.nextSerial + 1)
  | deleted {jid : Nat} {job : Job} (hg : s.jid2job.get jid = some job)
      (ht : t.jid2job = s.jid2job.set jid none) (hl : t.jobList = s.jobList.erase job.serial)
      (hn : t.nextSerial = s.nextSerial)

theorem Job.handled_jid (job : Job) (attr : Termios) (status : WaitStatus) :
    (job.handled attr status).jid = job.jid := by
  rcases status with (_ | _) | _ <;> rfl

/-- Writing through `modify`, whether there is a job or not. -/
theorem JobChange.modify {jid : Nat} {f : Job → Job} (ht : t.jid2job = s.jid2job.modify jid f)
    (hf : ∀ job, (f job).serial = job.serial ∧ (f job).jid = job.jid)
    (hl : t.jobList = s.jobList) (hn : t.nextSerial = s.nextSerial) : JobChange s t := by
  cases hg : s.jid2job.get jid with
  | none =>
    have hsame : s.jid2job.modify jid f = s.jid2job := by
      unfold SlotTable.modify
      rw [hg]
    exact .same (ht.trans hsame) hl hn
  | some job =>
    rw [SlotTable.modify_of_get hg] at ht
    exact .written hg ht (hf job).1 (hf job).2 hl hn

/-- Every step is one of these. -/
theorem JobChange.move (hm : Move s e t) : JobChange s t := by
  cases hm with
  | handled out hwait hm hw hj hg =>
    exact .written hg rfl (Job.handled_serial _ _ _) (Job.handled_jid _ _ _) rfl rfl
  | fgStatus | bgStatus => exact .modify rfl (fun _ => ⟨rfl, rfl⟩) rfl rfl
  | addJob hh hp hj hlt hjob =>
    subst hjob
    exact .added hj hlt rfl rfl rfl rfl rfl
  | spawned => exact .modify rfl (fun _ => ⟨rfl, rfl⟩) rfl rfl
  | spawnFailed out tty hh hp ht hg => exact .deleted hg rfl rfl rfl
  | deadDelete out hh hp hg => exact .deleted hg rfl rfl rfl
  | _ => exact .same rfl rfl rfl

/-- Where a job of the table comes from: it was there and has been left alone or written to, or it
is new. -/
inductive JobFrom (s : State) (e : Event) (jid : Nat) : Job → Prop
  | same {job : Job} (hg : s.jid2job.get jid = some job)
      (hn : ∀ pid, s.Waiting e pid → getJobFromPid s.jid2job pid ≠ some jid) : JobFrom s e jid job
  | handled {pid : Pid} {status : WaitStatus} {procs : List Proc} {job : Job}
      (hwait : s.Waiting e pid) (hw : waitpid s.procs pid = some (status, procs))
      (hj : getJobFromPid s.jid2job pid = some jid) (hg : s.jid2job.get jid = some job) :
      JobFrom s e jid (job.handled s.ttyAttr status)
  | fgStatus {job : Job} (he : e = .main) (hp : s.pc = .fgStatus jid)
      (hg : s.jid2job.get jid = some job) : JobFrom s e jid { job with status := .foreground }
  | bgStatus {job : Job} (he : e = .main) (hp : s.pc = .bgStatus jid)
      (hg : s.jid2job.get jid = some job) : JobFrom s e jid { job with status := .background }
  | spawned {ctx : SpawnCtx} {fa : FileActions} {pid : Pid} {job : Job} (he : e = .spawned pid)
      (hp : s.pc = .spawn ctx fa) (hj : jid = ctx.jid) (hg : s.jid2job.get jid = some job) :
      JobFrom s e jid
        { job with
          pgid := if ctx.spawned.isEmpty then pid else job.pgid
          pids := job.pids ++ [pid]
          numProcessesAlive := job.numProcessesAlive + 1 }
  | added {node : PipeNode} {fds : Option (List Fd)} (he : e = .main)
      (hp : s.pc = .addJob node fds) (hj : jid = s.jid2job.firstFree 1) :
      JobFrom s e jid
        { pipe := node, jid, status := if node.pipe.bgJob then .background else .foreground,
          numProcessesAlive := 0, savedTtyState := none, pgid := 0, pids := [],
          serial := s.nextSerial }

/-- The job was there, and the event is none that takes up a status. -/
theorem JobFrom.kept {jid : Nat} {job : Job} (hg : s.jid2job.get jid = some job)
    (he : ∀ pid, ¬ s.Waiting e pid) : JobFrom s e jid job :=
  .same hg fun pid hw => absurd hw (he pid)

theorem not_waiting_ofMain (he : e.ofMain = true) (pid : Pid) : ¬ s.Waiting e pid := by
  intro hw
  rcases hw.event with rfl | rfl <;> cases he

/-- Every job of the table comes from one of these. -/
theorem JobFrom.move (hM : s.Masked) (hm : Move s e t) {jid : Nat} {job : Job}
    (hg : t.jid2job.get jid = some job) : JobFrom s e jid job := by
  cases hm with
  | handled out hwait hm hw hj hget =>
    rcases SlotTable.get_set_eq_some.1 hg with ⟨rfl, hnew⟩ | ⟨hne, hold⟩
    · cases hnew
      exact .handled hwait hw hj hget
    · refine .same hold fun pid' hwait' hj' => hne ?_
      cases hwait.unique hwait'
      exact Option.some.inj (hj'.symm.trans hj)
  | lost hwait hw hj =>
    refine .same hg fun pid' hwait' hj' => ?_
    cases hwait.unique hwait'
    cases hj.symm.trans hj'
  | unblocked hwait hw hm =>
    rw [hM.sigchld hwait] at hm
    cases hm
  | crash hh o ds out tty hrf he | abort hh sc hist m o hrf he =>
    exact .kept hg (not_waiting_ofMain he)
  | fgStatus hh hp =>
    rcases SlotTable.get_modify_eq_some.1 hg with ⟨rfl, old, hold, rfl⟩ | ⟨hne, hold⟩
    · exact .fgStatus rfl hp hold
    · exact .kept hold fun _ hw => hw
  | bgStatus hh hp =>
    rcases SlotTable.get_modify_eq_some.1 hg with ⟨rfl, old, hold, rfl⟩ | ⟨hne, hold⟩
    · exact .bgStatus rfl hp hold
    · exact .kept hold fun _ hw => hw
  | addJob hh hp hj hlt hjob =>
    rcases SlotTable.get_set_eq_some.1 hg with ⟨rfl, hnew⟩ | ⟨hne, hold⟩
    · cases hnew
      subst hjob
      exact .added rfl hp hj
    · exact .kept hold fun _ hw => hw
  | spawned hh hp ht hget =>
    rcases SlotTable.get_modify_eq_some.1 hg with ⟨rfl, old, hold, rfl⟩ | ⟨hne, hold⟩
    · exact .spawned rfl hp rfl hold
    · exact .kept hold fun _ hw => hw
  | spawnFailed | deadDelete =>
    rcases SlotTable.get_set_eq_some.1 hg with ⟨rfl, hnew⟩ | ⟨hne, hold⟩
    · cases hnew
    · exact .kept hold fun _ hw => hw
  | _ => exact .kept hg fun _ hw => hw

/-- A job that is there after a step was there before it, at the same place, or is new. -/
theorem JobFrom.back {jid : Nat} {job : Job} (h : JobFrom s e jid job) :
    job.serial = s.nextSerial ∨
      ∃ job', s.jid2job.get jid = some job' ∧ job'.serial = job.serial := by
  cases h with
  | same hg | fgStatus he hp hg | bgStatus he hp hg | spawned he hp hj hg =>
    exact Or.inr ⟨_, hg, rfl⟩
  | @handled pid status procs old hwait hw hj hg =>
    exact Or.inr ⟨old, hg, (old.handled_serial _ _).symm⟩
  | added => exact Or.inl rfl

theorem JobChange.next_le (h : JobChange s t) : s.nextSerial ≤ t.nextSerial := by
  cases h with
  | same _ _ hn | written _ _ _ _ _ hn | deleted _ _ _ hn => exact Nat.le_of_eq hn.symm
  | added _ _ _ _ _ _ hn =>
    rw [hn]
    exact Nat.le_succ _

/-! ## The two structures are in step -/

structure Listed (s : State) : Prop where
  slot : ∀ {jid job}, s.jid2job.get jid = some job → job.jid = jid ∧ 1 ≤ jid ∧ jid < MAXJOBS
  sorted : s.jobList.Pairwise (· < ·)
  mem : ∀ n, n ∈ s.jobList ↔ ∃ jid job, s.jid2job.get jid = some job ∧ job.serial = n

/-- The list of jobs after one has been taken off. -/
theorem mem_erase_sorted {l : List Nat} (h : l.Pairwise (· < ·)) (m n : Nat) :
    n ∈ l.erase m ↔ n ≠ m ∧ n ∈ l := by
  have hnodup : l.Nodup := h.imp Nat.ne_of_lt
  exact hnodup.mem_erase_iff

/-- A job is written back. -/
theorem Listed.written {jid : Nat} {old new : Job} (h : s.Listed)
    (hg : s.jid2job.get jid = some old) (ht : t.jid2job = s.jid2job.set jid (some new))
    (hser : new.serial = old.serial) (hj : new.jid = old.jid) (hl : t.jobList = s.jobList) :
    t.Listed := by
  constructor
  · intro i job hi
    rw [ht] at hi
    rcases SlotTable.get_set_eq_some.1 hi with ⟨rfl, hnew⟩ | ⟨hne, hold⟩
    · cases hnew
      rw [hj]
      exact h.slot hg
    · exact h.slot hold
  · rw [hl]
    exact h.sorted
  · intro n
    rw [hl, h.mem n, ht]
    constructor
    · rintro ⟨i, job, hi, rfl⟩
      by_cases he : i = jid
      · subst he
        cases hg.symm.trans hi
        exact ⟨i, new, SlotTable.get_set_self _ _ _, hser⟩
      · exact ⟨i, job, (SlotTable.get_set_ne _ he _).trans hi, rfl⟩
    · rintro ⟨i, job, hi, rfl⟩
      rcases SlotTable.get_set_eq_some.1 hi with ⟨rfl, hnew⟩ | ⟨hne, hold⟩
      · cases hnew
        exact ⟨i, old, hg, hser.symm⟩
      · exact ⟨i, job, hold, rfl⟩

/-- A job is added at an index that is free, with a serial number above all others. -/
theorem Listed.added {jid : Nat} {new : Job} (h : s.Listed) (hs : s.ledger.Sound)
    (hfree : s.jid2job.get jid = none) (hle : 1 ≤ jid) (hlt : jid < MAXJOBS)
    (ht : t.jid2job = s.jid2job.set jid (some new)) (hj : new.jid = jid)
    (hser : new.serial = s.nextSerial) (hl : t.jobList = s.jobList ++ [new.serial]) :
    t.Listed := by
  constructor
  · intro i job hi
    rw [ht] at hi
    rcases SlotTable.get_set_eq_some.1 hi with ⟨rfl, hnew⟩ | ⟨hne, hold⟩
    · cases hnew
      exact ⟨hj, hle, hlt⟩
    · exact h.slot hold
  · rw [hl]
    apply List.pairwise_append.2
    refine ⟨h.sorted, List.pairwise_singleton _ _, ?_⟩
    intro m hm n hn
    obtain ⟨i, job, hget, rfl⟩ := (h.mem m).1 hm
    rw [List.mem_singleton.1 hn, hser]
    exact hs.serial_lt (account_of_get hget)
  · intro n
    rw [hl, List.mem_append, List.mem_singleton, h.mem n, ht]
    constructor
    · rintro (⟨i, job, hget, rfl⟩ | rfl)
      · have hne : i ≠ jid := by
          rintro rfl
          cases hfree.symm.trans hget
        exact ⟨i, job, (SlotTable.get_set_ne _ hne _).trans hget, rfl⟩
      · exact ⟨jid, new, SlotTable.get_set_self _ _ _, rfl⟩
    · rintro ⟨i, job, hi, rfl⟩
      rcases SlotTable.get_set_eq_some.1 hi with ⟨rfl, hnew⟩ | ⟨hne, hold⟩
      · cases hnew
        exact Or.inr rfl
      · exact Or.inl ⟨i, job, hold, rfl⟩

/-- A job is deleted. -/
theorem Listed.deleted {jid : Nat} {old : Job} (h : s.Listed) (hs : s.ledger.Sound)
    (hg : s.jid2job.get jid = some old) (ht : t.jid2job = s.jid2job.set jid none)
    (hl : t.jobList = s.jobList.erase old.serial) : t.Listed := by
  constructor
  · intro i job hi
    rw [ht] at hi
    rcases SlotTable.get_set_eq_some.1 hi with ⟨-, hnew⟩ | ⟨hne, hold⟩
    · cases hnew
    · exact h.slot hold
  · rw [hl]
    exact h.sorted.sublist List.erase_sublist
  · intro n
    rw [hl, mem_erase_sorted h.sorted, h.mem n, ht]
    constructor
    · rintro ⟨hne, i, job, hget, rfl⟩
      have hi : i ≠ jid := by
        rintro rfl
        cases hg.symm.trans hget
        exact hne rfl
      exact ⟨i, job, (SlotTable.get_set_ne _ hi _).trans hget, rfl⟩
    · rintro ⟨i, job, hi, rfl⟩
      rcases SlotTable.get_set_eq_some.1 hi with ⟨-, hnew⟩ | ⟨hne, hold⟩
      · cases hnew
      · refine ⟨fun he => hne ?_, i, job, hold, rfl⟩
        exact hs.serial_inj (account_of_get hold) (account_of_get hg) he

theorem Listed.change (h : s.Listed) (hs : s.ledger.Sound) (hc : JobChange s t) : t.Listed := by
  cases hc with
  | same ht hl hn =>
    constructor
    · rw [ht]
      exact h.slot
    · rw [hl]
      exact h.sorted
    · rw [hl, ht]
      exact h.mem
  | written hg ht hser hj hl hn => exact h.written hg ht hser hj hl
  | added hi hlt ht hj hser hl hn =>
    obtain ⟨hle, hfree, -⟩ := SlotTable.firstFree_spec s.jid2job 1
    rw [← hi] at hle hfree
    exact h.added hs hfree hle hlt ht hj hser hl
  | deleted hg ht hl hn => exact h.deleted hs hg ht hl

theorem Listed.init {s : State} (h : s.Initial) : s.Listed := by
  obtain ⟨shellPgrp, attr, openMax, -, rfl⟩ := h
  refine ⟨fun hg => (nomatch hg), .nil, fun n => ⟨fun hn => (nomatch hn), ?_⟩⟩
  rintro ⟨i, job, hg, -⟩
  cases hg

variable {ok : State → Event → Bool}

theorem Run.listed (hr : Run ok s) : s.Listed :=
  Lts.Reach.invariant (I := State.Listed) (fun _ => Listed.init)
    (fun _ _ _ hr hI _ hs => hI.change (Run.sound hr) (.move (step_move hs).2)) hr

/-- A job that was created before the path started has been at its place all along. -/
theorem Path.back {l : List (State × Event)} (hr : Run ok s) (hp : Path ok s l t) :
    s.nextSerial ≤ t.nextSerial ∧ ∀ {jid job}, t.jid2job.get jid = some job →
      job.serial < s.nextSerial → ∃ job', s.jid2job.get jid = some job' ∧
        job'.serial = job.serial := by
  induction hp with
  | nil => exact ⟨Nat.le_refl _, fun hg _ => ⟨_, hg, rfl⟩⟩
  | snoc hpath _ hs ih =>
    obtain ⟨hle, hback⟩ := ih
    have hm := (step_move hs).2
    have hM := Run.masked (Lts.Path.reach hpath hr)
    refine ⟨Nat.le_trans hle (JobChange.move hm).next_le, fun hg hlt => ?_⟩
    rcases (JobFrom.move hM hm hg).back with he | ⟨job', hg', he⟩
    · omega
    · obtain ⟨job'', hg'', he'⟩ := hback hg' (he ▸ hlt)
      exact ⟨job'', hg'', he'.trans he⟩

/-- What `get_job_from_jid` finds. -/
theorem Listed.getJobFromJid (h : s.Listed) (jid : Int) (job : Job) :
    getJobFromJid s.jid2job jid = some job ↔
      (∃ i, s.jid2job.get i = some job) ∧ (job.jid : Int) = jid ∧ job.serial ∈ s.jobList := by
  constructor
  · intro hg
    have hget := getJobFromJid_get hg
    have hpos : 0 < jid := by
      unfold Cush.getJobFromJid at hg
      split at hg
      · rename_i hb
        exact hb.1
      · cases hg
    refine ⟨⟨_, hget⟩, ?_, (h.mem _).2 ⟨_, job, hget, rfl⟩⟩
    rw [(h.slot hget).1]
    omega
  · rintro ⟨⟨i, hg⟩, rfl, -⟩
    obtain ⟨hj, hle, hlt⟩ := h.slot hg
    unfold Cush.getJobFromJid
    rw [if_pos (by omega), hj]
    exact hg

/-- `add_job` takes the least id that is free. -/
theorem addJob_least {node : PipeNode} {fds : Option (List Fd)} (hp : s.pc = .addJob node fds)
    (hs : step s .main = some t) (ht : t.pc ≠ .aborted) :
    ∃ jid job, t.jid2job = s.jid2job.set jid (some job) ∧ job.jid = jid ∧ 1 ≤ jid ∧
      s.jid2job.get jid = none ∧ ∀ k, 1 ≤ k → k < jid → ∃ job, s.jid2job.get k = some job := by
  have he : t = s.addJob node fds := by
    obtain ⟨-, -, ha⟩ := step_main hs
    unfold answerStep mainStep at ha
    rw [hp] at ha
    exact (Option.some.inj ha).symm
  unfold State.addJob at he
  dsimp only at he
  split at he
  · obtain ⟨hle, hfree, hused⟩ := SlotTable.firstFree_spec s.jid2job 1
    refine ⟨_, _, congrArg State.jid2job he, rfl, hle, hfree, hused⟩
  · rw [he] at ht
    exact absurd rfl ht

/-- **The array and the list of jobs are in step in every run**: they hold the same jobs, the list
in the order of creation, each job at the index that is its id. A job keeps its id, a new one gets
the smallest id that is free, and `get_job_from_jid` finds the jobs of the list. -/
theorem jobList_run (hr : Run ok s) :
    s.Listed ∧ s.jobList.Nodup ∧ s.jid2job.get 0 = none ∧
    (∀ i j a b, s.jid2job.get i = some a → s.jid2job.get j = some b → a.jid = b.jid →
      a.serial = b.serial) ∧
    (∀ l t jid jid' job job', Path ok s l t → s.jid2job.get jid = some job →
      t.jid2job.get jid' = some job' → job'.serial = job.serial → jid' = jid) ∧
    (∀ node fds t, s.pc = .addJob node fds → step s .main = some t → t.pc ≠ .aborted →
      ∃ jid job, t.jid2job = s.jid2job.set jid (some job) ∧ job.jid = jid ∧ 1 ≤ jid ∧
        s.jid2job.get jid = none ∧
        ∀ k, 1 ≤ k → k < jid → ∃ job, s.jid2job.get k = some job) ∧
    ∀ jid job, getJobFromJid s.jid2job jid = some job ↔
      (∃ i, s.jid2job.get i = some job) ∧ (job.jid : Int) = jid ∧ job.serial ∈ s.jobList := by
  have hI := hr.listed
  refine ⟨hI, hI.sorted.imp Nat.ne_of_lt, ?_, ?_, ?_, ?_, hI.getJobFromJid⟩
  · cases hg : s.jid2job.get 0 with
    | none => rfl
    | some job => exact absurd (hI.slot hg).2.1 (by omega)
  · intro i j a b ha hb he
    rw [(hI.slot ha).1, (hI.slot hb).1] at he
    subst he
    cases ha.symm.trans hb
    rfl
  · intro l t jid jid' job job' hp hg hg' he
    obtain ⟨old, hold, hser⟩ := (hp.back hr).2 hg' (he ▸ hr.sound.serial_lt (account_of_get hg))
    exact hr.sound.serial_inj (account_of_get hold) (account_of_get hg) (hser.trans he)
  · intro node fds t hp hs hna
    exact addJob_least hp hs hna

/-- Two jobs in the background. -/
def startTwo : List Event :=
  let run (pid : Pid) : List Event :=
    [.main, .main, .main, .main, .setUp fun _ => 0, .spawned pid] ++ List.replicate 8 .main
  .line ['s', '&', 's', '&'] :: (run 100 ++ run 101)

theorem jobList_run_two : ∃ s job,
    Lts.exec step (fun _ _ => true) (State.init 50 7 .usual) startTwo = some s ∧
      s.jobList = [0, 1] ∧ s.jid2job.get 2 = some job ∧
      getJobFromJid s.jid2job 2 = some job := by
  have hrun : (Lts.exec step (fun _ _ => true) (State.init 50 7 .usual) startTwo).map
      (fun s => (s.jobList, (s.jid2job.get 2).map fun job => (job.jid, job.serial))) =
      some ([0, 1], some (2, 1)) := by
    decide
  obtain ⟨s, hs, he⟩ := Option.map_eq_some_iff.1 hrun
  obtain ⟨hl, hj⟩ := Prod.ext_iff.1 he
  obtain ⟨job, hg, hjob⟩ := Option.map_eq_some_iff.1 hj
  obtain ⟨hjid, hser⟩ := Prod.ext_iff.1 hjob
  refine ⟨s, job, hs, hl, hg, ?_⟩
  refine ((jobList_run (Run.exec (by decide) hs)).2.2.2.2.2.2 2 job).2 ⟨⟨2, hg⟩, ?_, ?_⟩
  · exact congrArg Nat.cast hjid
  · rw [show job.serial = 1 from hser, show s.jobList = [0, 1] from hl]
    exact List.mem_cons_of_mem _ List.mem_cons_self

end State

end Cush
