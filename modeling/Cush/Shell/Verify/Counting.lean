import Cush.Shell.Verify.Books

/-!
# Counting the processes of a job

As long as a new child never gets a pid that a job of the table still records, the ledger is
balanced: `num_processes_alive` is the number of processes of the job that have not been reaped. The
ledger also covers every child, so that `handle_child_status` always finds the job of a child,
unless `handle_job` has deleted a job that had processes: it does so where a command after the first
one of its pipeline fails to spawn.
-/

namespace Cush

open ProcessLedger

/-- `delete_dead_jobs` deletes jobs that count no process. -/
theorem Move.deleted {s t : State} {e : Event} {i jid : Nat} {exiting : Bool} {job : Job}
    (hm : Move s e t) (hp : s.pc = .deleteDeadJobs i exiting) (hg : s.jid2job.get jid = some job)
    (hn : t.jid2job.get jid = none) : job.numProcessesAlive = 0 := by
  have same : t.jid2job = s.jid2job → job.numProcessesAlive = 0 := by
    intro he
    rw [he, hg] at hn
    cases hn
  cases hm with
  | handled out hwait hm hw hj hg' =>
    rw [SlotTable.get_set] at hn
    split at hn
    · cases hn
    · rw [hg] at hn
      cases hn
  | fgStatus hh hp' | bgStatus hh hp' | addJob hh hp' | spawned hh hp' | spawnFailed _ _ hh hp' =>
    rw [hp] at hp'
    cases hp'
  | deadDelete out hh hp' hg' ha =>
    rw [SlotTable.get_set] at hn
    split at hn
    · rename_i hj
      rw [hj, hg'] at hg
      cases hg
      exact ha
    · rw [hg] at hn
      cases hn
  | _ => exact same rfl

namespace State

variable {s t : State} {e : Event}

/-- The kernel gives no new child a pid that a job of the table records. -/
def noReuse (s : State) : Event → Bool
  | .spawned pid => (getJobFromPid s.jid2job pid).isNone
  | _ => true

/-- The number of processes of a job that have not been reaped. -/
def unreaped (s : State) (serial : Nat) : Nat :=
  s.procs.countP fun p => p.owner = serial

theorem unreaped_ledger (s : State) (serial : Nat) :
    s.ledger.unreaped serial = s.unreaped serial := by
  unfold Ledger.unreaped ledger unreaped
  rw [List.countP_map]
  rfl

/-! ## The pids of the table -/

theorem getJobFromPid_some {jid2job : SlotTable Job} {pid : Pid} {jid : Nat}
    (h : getJobFromPid jid2job pid = some jid) :
    ∃ job, jid2job.get jid = some job ∧ pid ∈ job.pids := by
  obtain ⟨⟨job, hg, hp⟩, -⟩ := SlotTable.find_some h
  exact ⟨job, hg, List.contains_iff_mem.1 hp⟩

theorem getJobFromPid_none {jid2job : SlotTable Job} {pid : Pid} {jid : Nat} {job : Job}
    (h : getJobFromPid jid2job pid = none) (hg : jid2job.get jid = some job) : pid ∉ job.pids := by
  have hc := SlotTable.find_none h hg
  intro hp
  rw [List.contains_iff_mem.2 hp] at hc
  cases hc

theorem mem_pids_of_find {jid : Nat} {job : Job} {pid : Pid}
    (hj : getJobFromPid s.jid2job pid = some jid) (hg : s.jid2job.get jid = some job) :
    pid ∈ job.pids := by
  obtain ⟨job', hg', hp⟩ := getJobFromPid_some hj
  rw [hg] at hg'
  cases hg'
  exact hp

/-! ## Balance -/

theorem balanced_booked {L : Ledger Pid} (h : s.ledger.Balanced) (hs : s.ledger.Sound)
    (hn : s.noReuse e = true) (hb : Booked s e L) : L.Balanced := by
  cases hb with
  | stay => exact h
  | opened => exact h.openAccount hs 0
  | entered he hg hf =>
    subst he
    refine h.enter hs (account_of_get hg) hf fun j b hb hmem => ?_
    obtain ⟨job', hg', rfl⟩ := get_of_account hb
    exact getJobFromPid_none (Option.isNone_iff_eq_none.1 hn) hg' hmem
  | reaped hp hj hg =>
    exact h.book hs (account_of_get hg) (children_mem hp) (mem_pids_of_find hj hg)
  | lost hp hj =>
    refine h.drop hs (children_mem hp) fun i a ha hmem => ?_
    obtain ⟨job, hg, rfl⟩ := get_of_account ha
    exact getJobFromPid_none hj hg hmem
  | failed => exact h.closeAccount _
  | deleted => exact h.closeAccount _

theorem balanced_init {s : State} (h : s.Initial) : s.ledger.Balanced := by
  obtain ⟨shellPgrp, attr, openMax, -, rfl⟩ := h
  exact ⟨fun h => (nomatch h), fun _ h => (nomatch h), fun h => (nomatch h)⟩

theorem Run.balanced (hr : Run noReuse s) : s.ledger.Balanced :=
  Lts.Reach.invariant (I := fun s => s.ledger.Balanced) (fun _ => balanced_init)
    (fun _ _ _ hr hI hg hs => balanced_booked hI (Run.sound hr) hg
      (Run.booked hr (step_move hs).2)) hr

theorem Run.counts (hr : Run noReuse s) {jid : Nat} {job : Job}
    (hg : s.jid2job.get jid = some job) : job.numProcessesAlive = s.unreaped job.serial := by
  have ha := (Run.balanced hr).alive (account_of_get hg)
  rw [unreaped_ledger] at ha
  exact ha

/-- A job that is waited for has a process. -/
theorem Run.procs_ne_nil (hr : Run noReuse s) {jid : Nat} {job : Job}
    (hg : s.jid2job.get jid = some job) (hk : keepsWaiting job = true) : s.procs ≠ [] := by
  intro hnil
  have hcount := Run.counts hr hg
  have halive : job.numProcessesAlive > 0 := by
    unfold keepsWaiting at hk
    simp only [Bool.and_eq_true, decide_eq_true_eq] at hk
    exact hk.2
  have hzero : s.unreaped job.serial = 0 := by
    unfold unreaped
    rw [hnil]
    rfl
  omega

theorem Run.not_waitpid (hr : Run noReuse s) : s.pc ≠ .fatal .waitpid := by
  refine Lts.Reach.invariant (I := fun s => s.pc ≠ .fatal .waitpid) ?_ ?_ hr
  · rintro s ⟨shellPgrp, attr, openMax, -, rfl⟩ h
    cases h
  · intro s e t hr _ _ hs hf
    obtain ⟨hl, hm⟩ := step_move hs
    rcases hm.fatal hl hf with ⟨-, jid, job, -, hg, hk, hn⟩ | ⟨hx, -⟩
    · exact Run.procs_ne_nil hr hg hk hn
    · cases hx

/-- **The count of a job is right in every run**: `num_processes_alive` is the number of processes
of the job that have not been reaped. So it is never negative, `delete_dead_jobs` deletes jobs
without processes only, and `wait_for_job` never waits for a child that is not there. -/
theorem numProcessesAlive_run (hr : Run noReuse s) :
    (∀ jid job, s.jid2job.get jid = some job →
      job.numProcessesAlive = s.unreaped job.serial ∧ 0 ≤ job.numProcessesAlive) ∧
    (∀ i exiting e t jid job, s.pc = .deleteDeadJobs i exiting → step s e = some t →
      s.jid2job.get jid = some job → t.jid2job.get jid = none → s.unreaped job.serial = 0) ∧
    (∀ jid job, s.pc = .waitForJob jid → s.jid2job.get jid = some job → keepsWaiting job = true →
      s.procs ≠ []) ∧
    s.pc ≠ .fatal .waitpid := by
  refine ⟨fun jid job hg => ⟨hr.counts hg, ?_⟩, ?_, fun jid job _ hg hk => hr.procs_ne_nil hg hk,
    hr.not_waitpid⟩
  · rw [hr.counts hg]
    exact Int.natCast_nonneg _
  · intro i exiting e t jid job hp hs hg hn
    have hzero := Move.deleted (step_move hs).2 hp hg hn
    rw [hr.counts hg] at hzero
    exact Int.natCast_eq_zero.1 hzero

/-- A command is started in the foreground. -/
def startForeground : List Event :=
  [.line ['s'], .main, .main, .main, .main, .setUp fun _ => 0, .spawned 100, .main, .main]

theorem numProcessesAlive_run_foreground : ∃ s jid job,
    Lts.exec step noReuse (State.init 50 7 .usual) startForeground = some s ∧
      s.pc = .waitForJob jid ∧ s.jid2job.get jid = some job ∧
      job.numProcessesAlive = s.unreaped job.serial ∧ s.procs ≠ [] := by
  have hrun : (Lts.exec step noReuse (State.init 50 7 .usual) startForeground).map
      (fun s => (s.pc, (s.jid2job.get 1).map keepsWaiting)) = some (.waitForJob 1, some true) := by
    decide
  obtain ⟨s, hs, he⟩ := Option.map_eq_some_iff.1 hrun
  obtain ⟨job, hg, hk⟩ := Option.map_eq_some_iff.1 (Prod.ext_iff.1 he).2
  have hall := numProcessesAlive_run (Run.exec (by decide) hs)
  exact ⟨s, 1, job, hs, (Prod.ext_iff.1 he).1, hg, (hall.1 1 job hg).1,
    hall.2.2.1 1 job (Prod.ext_iff.1 he).1 hg hk⟩

/-! ## Cover -/

/-- No command after the first one of its pipeline fails to spawn. -/
def laterSpawns (s : State) : Event → Bool
  | .spawnFailed _ => s.pc.spawning.all fun ctx => ctx.spawned.isEmpty
  | _ => true

/-- A job that has recorded no pid has no process. -/
theorem unreaped_eq_zero (hs : s.ledger.Sound) {jid : Nat} {job : Job}
    (hg : s.jid2job.get jid = some job) (hp : job.pids = []) :
    s.ledger.unreaped job.serial = 0 := by
  refine List.countP_eq_zero.2 fun c hc => ?_
  simp only [decide_eq_true_eq]
  intro ho
  have hmem := (hs.recorded c hc (account_of_get hg) ho.symm).1
  change c.pid ∈ job.pids at hmem
  rw [hp] at hmem
  cases hmem

theorem covered_booked {L : Ledger Pid} (h : s.ledger.Covered) (hs : s.ledger.Sound)
    (hn : s.ledger.Counted) (hS : s.Spawning) (hl : s.laterSpawns e = true)
    (hbook : Booked s e L) : L.Covered := by
  cases hbook with
  | stay => exact h
  | opened hfree => exact h.openAccount hfree 0
  | entered he hg hf => exact h.enter (account_of_get hg)
  | reaped hp hj hg => exact h.book (account_of_get hg) _
  | lost hp hj => exact fun c hc => h c (List.mem_of_mem_filter hc)
  | @failed ctx fa job took he hp hg =>
    subst he
    obtain ⟨job', hg', ha⟩ := hS ctx (by rw [hp]; rfl)
    rw [hg] at hg'
    cases hg'
    have hempty : ctx.spawned = [] := by
      simp only [laterSpawns, hp, Pc.spawning, Option.all_some] at hl
      exact List.isEmpty_iff.1 hl
    exact h.closeAccount (account_of_get hg) (unreaped_eq_zero hs hg (ha.pids.2 hempty))
  | @deleted jid job hg ha =>
    refine h.closeAccount (account_of_get hg) ?_
    have halive := hn _ _ (account_of_get hg)
    exact Int.natCast_eq_zero.1 (halive.symm.trans ha)

/-- Every child that has not been reaped is a process of exactly one job of the table. -/
def ChildrenOwned (s : State) : Prop :=
  ∀ p ∈ s.procs, ∃ jid job, s.jid2job.get jid = some job ∧ p.pid ∈ job.pids ∧
    ∀ jid' job', s.jid2job.get jid' = some job' → p.pid ∈ job'.pids → jid' = jid

theorem childrenOwned (hs : s.ledger.Sound) (hb : s.ledger.Balanced) (hc : s.ledger.Covered) :
    s.ChildrenOwned := by
  intro p hp
  obtain ⟨jid, a, ha, ho⟩ := hc p.child (children_mem hp)
  obtain ⟨job, hg, rfl⟩ := get_of_account ha
  have hmem := (hs.recorded _ (children_mem hp) ha ho).1
  refine ⟨jid, job, hg, hmem, fun jid' job' hg' hmem' => ?_⟩
  exact hb.disjoint (account_of_get hg') ha hmem' hmem

theorem ChildrenOwned.find (h : s.ChildrenOwned) {p : Proc} (hp : p ∈ s.procs) :
    ∃ jid job, getJobFromPid s.jid2job p.pid = some jid ∧ s.jid2job.get jid = some job := by
  obtain ⟨jid, job, hg, hmem, -⟩ := h p hp
  cases hj : getJobFromPid s.jid2job p.pid with
  | none => exact absurd hmem (getJobFromPid_none hj hg)
  | some jid' =>
    obtain ⟨job', hg', -⟩ := getJobFromPid_some hj
    exact ⟨jid', job', rfl, hg'⟩

theorem Run.covered (hr : Run (fun s e => s.noReuse e && s.laterSpawns e) s) :
    s.ledger.Covered := by
  refine Lts.Reach.invariant (I := fun s => s.ledger.Covered) ?_ ?_ hr
  · rintro s ⟨shellPgrp, attr, openMax, -, rfl⟩ c hc
    cases hc
  · intro s e t hr hI hg hs
    have hb := Run.balanced (Run.left hr)
    exact covered_booked hI (Run.sound hr) (fun _ _ => hb.alive) (Run.spawning hr)
      (Bool.and_eq_true_iff.1 hg).2 (Run.booked hr (step_move hs).2)

/-- **The children of the shell belong to its jobs** in every run in which no command after the
first one of its pipeline fails to spawn: every child is a process of exactly one job, and the job
that `handle_child_status` looks up for the status of a child is there. -/
theorem childrenOwned_run (hr : Run (fun s e => s.noReuse e && s.laterSpawns e) s) :
    s.ChildrenOwned ∧ ∀ pid status procs, waitpid s.procs pid = some (status, procs) →
      ∃ jid job, getJobFromPid s.jid2job pid = some jid ∧ s.jid2job.get jid = some job := by
  have howned := childrenOwned hr.sound hr.left.balanced hr.covered
  refine ⟨howned, fun pid status procs hw => ?_⟩
  obtain ⟨p, hp, rfl, -⟩ := waitpid_cases hw
  exact howned.find hp

theorem childrenOwned_run_foreground : ∃ s,
    Lts.exec step (fun s e => s.noReuse e && s.laterSpawns e) (State.init 50 7 .usual)
      startForeground = some s ∧ s.procs.length = 1 ∧ s.ChildrenOwned := by
  have hrun : (Lts.exec step (fun s e => s.noReuse e && s.laterSpawns e) (State.init 50 7 .usual)
      startForeground).map (fun s => s.procs.length) = some 1 := by
    decide
  obtain ⟨s, hs, hlen⟩ := Option.map_eq_some_iff.1 hrun
  exact ⟨s, hs, hlen, (childrenOwned_run (Run.exec (by decide) hs)).1⟩

/-- `sleep 1 | nosuch`: the second command fails to spawn, the job is deleted, and the first process
exits. -/
def orphan : List Event :=
  [.line ['s', ' ', '|', ' ', 'n'], .main, .malloc [0, 0], .pipe2 (some (4, 5)), .main, .main,
    .main, .setUp fun _ => 0, .spawned 100, .setUp fun _ => 0, .spawnFailed none, .main, .main,
    .child 100 (.exit 0), .sigchldHandler]

/-- The handler waits for a child that belongs to no job, and dereferences a null pointer. -/
theorem childrenOwned_orphan : ∃ s t, Run noReuse s ∧ s.handler.isSome = true ∧
    ¬ s.ChildrenOwned ∧ step s (.reap 100) = some t ∧ t.pc = .crashed := by
  have hrun : ((Lts.exec step noReuse (State.init 50 7 .usual) orphan).bind fun s =>
      (step s (.reap 100)).map fun t => (s.handler.isSome, s.procs.map Proc.pid,
        getJobFromPid s.jid2job 100, t.pc)) = some (true, [100], none, .crashed) := by
    decide
  obtain ⟨s, hs, hstep⟩ := Option.bind_eq_some_iff.1 hrun
  obtain ⟨t, ht, he⟩ := Option.map_eq_some_iff.1 hstep
  simp only [Prod.mk.injEq] at he
  obtain ⟨hh, hp, hj, hpc⟩ := he
  refine ⟨s, t, Run.exec (by decide) hs, hh, fun howned => ?_, ht, hpc⟩
  obtain ⟨p, hmem, hpid⟩ : ∃ p ∈ s.procs, p.pid = 100 :=
    List.mem_map.1 (hp ▸ List.mem_singleton_self 100)
  obtain ⟨jid, job, hf, -⟩ := howned.find hmem
  rw [hpid, hj] at hf
  cases hf

end State

end Cush
