import Cush.Shell.Verify.Counting
import Cush.Shell.Verify.Leaders

/-!
# The job that a status is credited to

`_get_job_from_pid` returns the first job with a command of the pid, and a job keeps the pids of
processes that have been reaped for as long as it is in the table. The kernel can give such a pid to
a new process. If the job that still records it comes before the one of the new process, the status
of the new process is credited to the wrong job. The other way to go wrong is a job that
`handle_job` deletes while it has processes.
-/

namespace Cush

open ProcessLedger

namespace State

variable {s t : State} {e : Event}

/-- A new process gets no pid that a job before its own records. And where a job is deleted because
a command fails to spawn, no other job records the pid of a process of it. -/
def attributes (s : State) : Event → Bool
  | .spawned pid =>
    s.pc.spawning.all fun ctx => (getJobFromPid s.jid2job pid).all fun jid => ctx.jid ≤ jid
  | .spawnFailed _ =>
    s.pc.spawning.all fun ctx => (s.jid2job.get ctx.jid).all fun job =>
      s.procs.all fun p => p.owner ≠ job.serial ||
        (s.jid2job.find fun job' => job'.serial ≠ job.serial && job'.pids.contains p.pid).isNone
  | _ => true

/-- In addition, no command after the first one of its pipeline fails to spawn. -/
def creditable (s : State) (e : Event) : Bool :=
  s.attributes e && s.laterSpawns e

/-- The job that is found for a child is the one that spawned it. -/
def Credited (s : State) : Prop :=
  ∀ p ∈ s.procs, ∃ jid job, getJobFromPid s.jid2job p.pid = some jid ∧
    s.jid2job.get jid = some job ∧ job.serial = p.owner

/-- No job before the one that is found has recorded the pid. -/
theorem getJobFromPid_le {jid2job : SlotTable Job} {pid : Pid} {jid jid' : Nat} {job : Job}
    (h : getJobFromPid jid2job pid = some jid) (hg : jid2job.get jid' = some job)
    (hp : pid ∈ job.pids) : jid ≤ jid' := by
  by_contra hlt
  have hno := (SlotTable.find_some h).2 jid' (by omega) job hg
  rw [List.contains_iff_mem.2 hp] at hno
  cases hno

/-- The owner of a child whose status is taken up. -/
theorem owner_of_attributed (h : s.ledger.Attributed) {p : Proc} (hp : p ∈ s.procs) {jid : Nat}
    {job : Job} (hj : getJobFromPid s.jid2job p.pid = some jid)
    (hg : s.jid2job.get jid = some job) : job.serial = p.owner := by
  refine h.own p.child (children_mem hp) jid job.account (account_of_get hg)
    (mem_pids_of_find hj hg) fun j b hb hmem => ?_
  obtain ⟨job', hg', rfl⟩ := get_of_account hb
  exact getJobFromPid_le hj hg' hmem

/-- A job with a child is found for it. -/
theorem find_of_attributed (h : s.ledger.Attributed) (hs : s.ledger.Sound) {p : Proc}
    (hp : p ∈ s.procs) {jid : Nat} {job : Job} (hg : s.jid2job.get jid = some job)
    (ho : p.owner = job.serial) : getJobFromPid s.jid2job p.pid = some jid := by
  have hmem : p.pid ∈ job.pids :=
    (hs.recorded _ (children_mem hp) (account_of_get hg) ho.symm).1
  cases hj : getJobFromPid s.jid2job p.pid with
  | none => exact absurd hmem (getJobFromPid_none hj hg)
  | some jid' =>
    obtain ⟨job', hg', -⟩ := getJobFromPid_some hj
    have howner := owner_of_attributed h hp hj hg'
    rw [hs.serial_inj (account_of_get hg') (account_of_get hg) (howner.trans ho)]

theorem credited_of_ledger (h : s.ledger.Attributed) (hc : s.ledger.Covered)
    (hs : s.ledger.Sound) : s.Credited := by
  intro p hp
  obtain ⟨jid, a, ha, ho⟩ := hc p.child (children_mem hp)
  obtain ⟨job, hg, rfl⟩ := get_of_account ha
  exact ⟨jid, job, find_of_attributed h hs hp hg ho.symm, hg, ho⟩

theorem attributes_spawned {ctx : SpawnCtx} {fa : FileActions} {pid : Pid}
    (h : s.attributes (.spawned pid) = true) (hp : s.pc = .spawn ctx fa) {jid : Nat} {job : Job}
    (hg : s.jid2job.get jid = some job) (hmem : pid ∈ job.pids) : ctx.jid ≤ jid := by
  unfold attributes at h
  rw [hp] at h
  dsimp only [Pc.spawning] at h
  rw [Option.all_some] at h
  cases hj : getJobFromPid s.jid2job pid with
  | none => exact absurd hmem (getJobFromPid_none hj hg)
  | some jid' =>
    rw [hj, Option.all_some, decide_eq_true_eq] at h
    exact Nat.le_trans h (getJobFromPid_le hj hg hmem)

theorem attributes_spawnFailed {ctx : SpawnCtx} {fa : FileActions} {took : Option Pid} {job : Job}
    (hp : s.pc = .spawn ctx fa) (hg : s.jid2job.get ctx.jid = some job) :
    s.attributes (.spawnFailed took) = true ↔ ∀ p ∈ s.procs, p.owner = job.serial →
      ∀ jid job', s.jid2job.get jid = some job' → p.pid ∈ job'.pids →
        job'.serial = job.serial := by
  unfold attributes
  rw [hp]
  dsimp only [Pc.spawning]
  rw [Option.all_some, hg, Option.all_some, List.all_eq_true]
  refine forall_congr' fun p => forall_congr' fun hmem => ?_
  rw [Bool.or_eq_true, decide_eq_true_eq, Option.isNone_iff_eq_none, ← imp_iff_not_or]
  refine imp_congr_right fun ho => ⟨fun hnone jid job' hg' hpid => ?_, fun hall => ?_⟩
  · have hno := SlotTable.find_none hnone hg'
    rw [List.contains_iff_mem.2 hpid, Bool.and_true] at hno
    exact not_not.1 (of_decide_eq_false hno)
  · cases hfind : s.jid2job.find fun job' =>
        decide (job'.serial ≠ job.serial) && job'.pids.contains p.pid with
    | none => rfl
    | some jid =>
      obtain ⟨⟨job', hg', hc⟩, -⟩ := SlotTable.find_some hfind
      rw [Bool.and_eq_true, decide_eq_true_eq, List.contains_iff_mem] at hc
      exact absurd (hall jid job' hg' hc.2) hc.1

theorem attributed_booked {L : Ledger Pid} (h : s.ledger.Attributed) (hs : s.ledger.Sound)
    (hok : s.attributes e = true) (hsp : ∀ pid, e ≠ .spawned pid) (hb : Booked s e L) :
    L.Attributed := by
  cases hb with
  | stay => exact h
  | opened hfree => exact h.openAccount hs hfree 0
  | entered he => exact absurd he (hsp _)
  | reaped hp hj hg =>
    exact h.book hs (account_of_get hg) (children_mem hp) (owner_of_attributed h hp hj hg)
  | lost hp hj =>
    refine h.drop hs (children_mem hp) fun i a ha hmem => ?_
    obtain ⟨job, hg, rfl⟩ := get_of_account ha
    exact getJobFromPid_none hj hg hmem
  | failed he hp hg =>
    subst he
    have hall := (attributes_spawnFailed hp hg).1 hok
    refine h.closeAccount (account_of_get hg) fun c hc ho j b hb hmem => ?_
    obtain ⟨p, hp, rfl⟩ := mem_children hc
    obtain ⟨job', hg', rfl⟩ := get_of_account hb
    exact hs.serial_inj hb (account_of_get hg) (hall p hp ho j job' hg' hmem)
  | @deleted jid job hg ha =>
    have halive := h.counted _ _ (account_of_get hg)
    have hzero := Int.natCast_eq_zero.1 (halive.symm.trans ha)
    refine h.closeAccount (account_of_get hg) fun c hc ho => ?_
    have hno := List.countP_eq_zero.1 hzero c hc
    simp only [decide_eq_true_eq] at hno
    exact absurd ho hno

theorem attributed_step {ok : State → Event → Bool} (h : s.ledger.Attributed) (hr : Run ok s)
    (hok : s.attributes e = true) (hs : step s e = some t) : t.ledger.Attributed := by
  by_cases hsp : ∃ pid, e = .spawned pid
  · obtain ⟨pid, rfl⟩ := hsp
    obtain ⟨ctx, fa, cmd, rest, job, hp, -, hg, hf, rfl⟩ := spawned_step hr.spawning hs
    obtain ⟨job', hg', ha⟩ := hr.spawning ctx (by rw [hp]; rfl)
    cases hg.symm.trans hg'
    rw [ledger_spawnOk hg ha]
    apply h.enter hr.sound (account_of_get hg) (freshPid_children hf)
    intro j b hb hmem
    obtain ⟨job', hg', rfl⟩ := get_of_account hb
    exact attributes_spawned hok hp hg' hmem
  · exact attributed_booked h hr.sound hok (fun pid he => hsp ⟨pid, he⟩)
      (Run.booked hr (step_move hs).2)

theorem Run.attributed (hr : Run attributes s) : s.ledger.Attributed := by
  refine Lts.Reach.invariant (I := fun s => s.ledger.Attributed) ?_
    (fun _ _ _ hr hI hg hs => attributed_step hI hr hg hs) hr
  rintro s ⟨shellPgrp, attr, openMax, -, rfl⟩
  exact ⟨fun _ h => (nomatch h), fun _ _ h => (nomatch h)⟩

/-- The counts are right. -/
theorem Run.counted (hr : Run attributes s) {jid : Nat} {job : Job}
    (hg : s.jid2job.get jid = some job) : job.numProcessesAlive = s.unreaped job.serial := by
  rw [← unreaped_ledger]
  exact hr.attributed.counted _ _ (account_of_get hg)

theorem Run.creditable_covered (hr : Run creditable s) : s.ledger.Covered := by
  refine Lts.Reach.invariant (I := fun s => s.ledger.Covered) ?_ ?_ hr
  · rintro s ⟨shellPgrp, attr, openMax, -, rfl⟩ c hc
    cases hc
  · intro s e t hr hI hg hs
    have hn := (Run.attributed (Run.left hr)).counted
    exact covered_booked hI (Run.sound hr) hn (Run.spawning hr) (Bool.and_eq_true_iff.1 hg).2
      (Run.booked hr (step_move hs).2)

theorem Run.credited (hr : Run creditable s) : s.Credited :=
  credited_of_ledger (Run.attributed (Run.left hr)) hr.creditable_covered hr.sound

/-- A new process is credited only if no job before its own records the pid. -/
theorem attributes_of_spawned {ok : State → Event → Bool} {pid : Pid} (hr : Run ok s)
    (hs : step s (.spawned pid) = some t) (h : t.Credited) :
    s.attributes (.spawned pid) = true := by
  obtain ⟨ctx, fa, cmd, rest, job, hp, -, hg, -, rfl⟩ := spawned_step hr.spawning hs
  obtain ⟨jid, job', hj, hg', ho⟩ := h _ (List.mem_append_right _ (List.mem_singleton_self _))
  have hget : ∀ {k}, k ≠ ctx.jid →
      (s.spawnOk ctx cmd rest job pid).jid2job.get k = s.jid2job.get k := by
    intro k hk
    change (s.jid2job.modify ctx.jid _).get k = _
    rw [SlotTable.get_modify, if_neg hk]
  have hjid : jid = ctx.jid := by
    by_contra hne
    rw [hget hne] at hg'
    exact hne (hr.sound.serial_inj (account_of_get hg') (account_of_get hg) ho)
  unfold attributes
  rw [hp]
  dsimp only [Pc.spawning]
  rw [Option.all_some]
  cases hfound : getJobFromPid s.jid2job pid with
  | none => rfl
  | some k =>
    rw [Option.all_some, decide_eq_true_eq]
    by_contra hlt
    obtain ⟨b, hb, hmem⟩ := getJobFromPid_some hfound
    have hle := getJobFromPid_le hj ((hget (by omega)).trans hb) hmem
    omega

/-- A job that is deleted when a command fails to spawn leaves its first process behind. -/
theorem spawned_nil_of_credited {ok : State → Event → Bool} {took : Option Pid} {ctx : SpawnCtx}
    {fa : FileActions} (hr : Run ok s) (hs : step s (.spawnFailed took) = some t) (h : t.Credited)
    (hp : s.pc = .spawn ctx fa) : ctx.spawned = [] := by
  obtain ⟨ctx', fa', job, hp', hg, hprocs, htable⟩ := spawnFailed_step hr.spawning hs
  cases hp.symm.trans hp'
  by_contra hne
  obtain ⟨job', hg', p, hmem, -, -, hpo⟩ := (hr.leading ctx (by rw [hp]; rfl)).process hne
  cases hg.symm.trans hg'
  obtain ⟨jid, job', -, hg', ho⟩ := h p (hprocs ▸ hmem)
  rw [htable] at hg'
  rcases SlotTable.get_set_eq_some.1 hg' with ⟨-, hnew⟩ | ⟨hjid, hold⟩
  · cases hnew
  · exact hjid (hr.sound.serial_inj (account_of_get hold) (account_of_get hg) (ho.trans hpo))

/-- A step that misses the condition leaves a child without credit. -/
theorem creditable_of_credited {ok : State → Event → Bool} (hr : Run ok s)
    (hs : step s e = some t) (h : t.Credited) : s.creditable e = true := by
  unfold creditable
  cases e with
  | spawned pid =>
    rw [attributes_of_spawned hr hs h]
    rfl
  | spawnFailed took =>
    obtain ⟨ctx, fa, job, hp, hg, -, -⟩ := spawnFailed_step hr.spawning hs
    have hnil := spawned_nil_of_credited hr hs h hp
    obtain ⟨job', hg', ha⟩ := hr.spawning ctx (by rw [hp]; rfl)
    cases hg.symm.trans hg'
    rw [Bool.and_eq_true]
    constructor
    · -- the job has no process
      have hzero := List.countP_eq_zero.1 (unreaped_eq_zero hr.sound hg (ha.pids.2 hnil))
      refine (attributes_spawnFailed hp hg).2 fun p hmem ho => ?_
      have hno := hzero p.child (children_mem hmem)
      simp only [decide_eq_true_eq] at hno
      exact absurd ho hno
    · unfold laterSpawns
      rw [hp]
      dsimp only [Pc.spawning]
      rw [Option.all_some, hnil]
      rfl
  | _ => rfl

/-- **Statuses are credited to the jobs that spawned the processes** in every run in which no new
process gets a pid that a job before its own records, and no command after the first one of its
pipeline fails to spawn; a step of such a run leads to a state where this holds if and only if it
meets the condition. -/
theorem credited_run (hr : Run creditable s) :
    s.Credited ∧
    (∀ pid status procs, waitpid s.procs pid = some (status, procs) →
      ∃ p ∈ s.procs, p.pid = pid ∧ ∃ jid job, getJobFromPid s.jid2job pid = some jid ∧
        s.jid2job.get jid = some job ∧ job.serial = p.owner) ∧
    ∀ e t, step s e = some t → (t.Credited ↔ s.creditable e = true) := by
  refine ⟨hr.credited, fun pid status procs hw => ?_,
    fun e t hs => ⟨creditable_of_credited hr hs, fun hok => ?_⟩⟩
  · obtain ⟨p, hp, rfl, -⟩ := waitpid_cases hw
    exact ⟨p, hp, rfl, hr.credited p hp⟩
  · have hr' : Run creditable t := .step hr hok hs
    exact hr'.credited

/-- `a | b &`; the second process exits and is reaped. -/
def reapSecond : List Event :=
  [.line ['a', '|', 'b', '&'], .main, .malloc [0, 0], .pipe2 (some (4, 5)), .main, .main, .main,
    .setUp fun _ => 0, .spawned 100, .setUp fun _ => 0, .spawned 101] ++ List.replicate 11 .main ++
  [.child 101 (.exit 0), .sigchldHandler, .reap 101, .handlerReturn]

/-- `c &`, up to the prompt. -/
def startNext (pid : Pid) : List Event :=
  [.line ['c', '&'], .main, .main, .main, .main, .setUp fun _ => 0, .spawned pid] ++
    List.replicate 12 .main

/-- The next job gets a new pid, and its process exits. -/
theorem credited_run_next : ∃ s, Lts.exec step creditable (State.init 50 7 .usual)
      (reapSecond ++ startNext 102 ++ [.child 102 (.exit 0), .sigchldHandler]) = some s ∧
    s.procs.map Proc.pid = [100, 102] ∧ s.Credited := by
  have hrun : (Lts.exec step creditable (State.init 50 7 .usual)
      (reapSecond ++ startNext 102 ++ [.child 102 (.exit 0), .sigchldHandler])).map
      (fun s => s.procs.map Proc.pid) = some [100, 102] := by
    decide
  obtain ⟨s, hs, he⟩ := Option.map_eq_some_iff.1 hrun
  exact ⟨s, hs, he, (credited_run (Run.exec (by decide) hs)).1⟩

/-- It gets the pid of the process that has been reaped, and is credited to the first job: this one
counts no process although one is left, and the second job counts one although none is. -/
theorem credited_reused : ∃ s t, Run (fun _ _ => true) s ∧ ¬ s.Credited ∧
    s.procs.map (fun p => (p.pid, p.owner)) = [(100, 0), (101, 1)] ∧
    getJobFromPid s.jid2job 101 = some 1 ∧ step s (.reap 101) = some t ∧
    t.procs.map Proc.owner = [0] ∧
    [1, 2].map (fun jid => (t.jid2job.get jid).map fun job => (job.serial, job.numProcessesAlive)) =
      [some (0, 0), some (1, 1)] := by
  have hrun : (Lts.exec step (fun _ _ => true) (State.init 50 7 .usual)
      (reapSecond ++ startNext 101 ++ [.child 101 (.exit 0), .sigchldHandler])).map (fun s =>
        (s.procs.map (fun p => (p.pid, p.owner)), getJobFromPid s.jid2job 101,
          (s.jid2job.get 1).map Job.serial)) = some ([(100, 0), (101, 1)], some 1, some 0) := by
    decide
  have hreap : ((Lts.exec step (fun _ _ => true) (State.init 50 7 .usual)
      (reapSecond ++ startNext 101 ++ [.child 101 (.exit 0), .sigchldHandler])).bind fun s =>
      (step s (.reap 101)).map fun t => (t.procs.map Proc.owner, [1, 2].map fun jid =>
        (t.jid2job.get jid).map fun job => (job.serial, job.numProcessesAlive))) =
      some ([0], [some (0, 0), some (1, 1)]) := by
    decide
  obtain ⟨s, hs, he⟩ := Option.map_eq_some_iff.1 hrun
  rw [hs, Option.bind_some] at hreap
  obtain ⟨t, ht, hcounts⟩ := Option.map_eq_some_iff.1 hreap
  simp only [Prod.mk.injEq] at he
  obtain ⟨hprocs, hj, hjob⟩ := he
  refine ⟨s, t, Run.exec (by decide) hs, fun hc => ?_, hprocs, hj, ht, (Prod.ext_iff.1 hcounts).1,
    (Prod.ext_iff.1 hcounts).2⟩
  have hmem : (101, 1) ∈ s.procs.map fun p => (p.pid, p.owner) := by
    rw [hprocs]
    decide
  obtain ⟨p, hp, he⟩ := List.mem_map.1 hmem
  obtain ⟨hpid, ho⟩ := Prod.ext_iff.1 he
  obtain ⟨jid, job, hj', hg, hser⟩ := hc p hp
  rw [show p.pid = 101 from hpid, hj] at hj'
  cases hj'
  rw [hg, Option.map_some] at hjob
  rw [Option.some.inj hjob, show p.owner = 1 from ho] at hser
  cases hser

end State

end Cush
