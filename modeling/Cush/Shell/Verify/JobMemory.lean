import Cush.LinkedList.Verify.Store
import Cush.Shell.Verify.Table

/-!
# The list of jobs in memory

`add_job` allocates a job and appends it to `job_list`, and `delete_job` takes it out of the list
and frees it. In every run of the shell these calls of `list.c` meet what `list.c` asks of them,
wherever `malloc` puts the jobs: none of them touches a freed job, and the list in memory holds the
jobs of the table, in the order of creation.
-/

namespace Cush

open LinkedList LinkHeap

namespace State

variable {α : Type}

/-- The calls of a step on `job_list`. The job with serial number `n` is put at `addr n`, where
memory holds `mem n`. Those of an `add_job` that aborts are left out. -/
def jobListCalls (addr : Nat → α) (mem : Nat → LinkNode α) (s : State) (e : Event) :
    List (Call Unit α) :=
  match s.pc, e with
  | .addJob .., .main =>
    if s.jid2job.firstFree 1 < MAXJOBS then
      [.malloc (addr s.nextSerial) (mem s.nextSerial), .pushBack () (addr s.nextSerial)]
    else []
  | .spawn ctx _, .spawnFailed _ =>
    match s.jid2job.get ctx.jid with
    | some job => [.remove (addr job.serial), .free (addr job.serial)]
    | none => []
  | .deleteDeadJobs i _, .main =>
    match (s.jid2job.next i).bind s.jid2job.get with
    | some job =>
      if job.numProcessesAlive = 0 then [.remove (addr job.serial), .free (addr job.serial)] else []
    | none => []
  | _, _ => []

variable {s t : State} {e : Event} {addr : Nat → α} {mem : Nat → LinkNode α} {hdr : ListHdr α}

/-- The store of the jobs of a state. -/
def jobStore (addr : Nat → α) (s : State) : Store Unit α :=
  ⟨fun _ => s.jobList.map addr, ∅⟩

/-- What the calls of a step are for. -/
inductive JobCalls (addr : Nat → α) (mem : Nat → LinkNode α) (s t : State) :
    List (Call Unit α) → Prop
  | idle (hl : t.jobList = s.jobList) : JobCalls addr mem s t []
  | add {node : PipeNode} {fds : Option (List Fd)} (hp : s.pc = .addJob node fds)
      (hl : t.jobList = s.jobList ++ [s.nextSerial]) :
      JobCalls addr mem s t
        [.malloc (addr s.nextSerial) (mem s.nextSerial), .pushBack () (addr s.nextSerial)]
  | delete {jid : Nat} {job : Job} (hg : s.jid2job.get jid = some job)
      (hl : t.jobList = s.jobList.erase job.serial) :
      JobCalls addr mem s t [.remove (addr job.serial), .free (addr job.serial)]

/-- The step of a failed spawn. -/
theorem step_spawnFailed {ctx : SpawnCtx} {fa : FileActions} {took : Option Pid}
    (hp : s.pc = .spawn ctx fa) (hs : Cush.step s (.spawnFailed took) = some t) :
    ∃ cmd, t = s.spawnFail ctx cmd took := by
  unfold Cush.step at hs
  split at hs
  · dsimp only at hs
    split at hs
    · unfold answerStep at hs
      rw [hp] at hs
      dsimp only at hs
      split at hs
      · exact ⟨_, (Option.some.inj hs).symm⟩
      · cases hs
    · cases hs
  · cases hs

theorem JobCalls.step (addr : Nat → α) (mem : Nat → LinkNode α) (hs : Cush.step s e = some t) :
    JobCalls addr mem s t (s.jobListCalls addr mem e) := by
  unfold jobListCalls
  split
  · rename_i node fds hp
    obtain ⟨-, -, ha⟩ := step_main hs
    unfold answerStep mainStep at ha
    rw [hp] at ha
    obtain rfl := Option.some.inj ha
    by_cases hlt : s.jid2job.firstFree 1 < MAXJOBS
    · rw [if_pos hlt]
      refine .add hp ?_
      unfold State.addJob
      dsimp only
      rw [if_pos hlt]
    · rw [if_neg hlt]
      refine .idle ?_
      unfold State.addJob
      dsimp only
      rw [if_neg hlt]
      rfl
  · rename_i ctx fa took hp
    obtain ⟨cmd, rfl⟩ := step_spawnFailed hp hs
    cases hg : s.jid2job.get ctx.jid with
    | none =>
      refine .idle ?_
      simp only [spawnFail, deleteJob, forJob, State.print, readNode, hg]
      rfl
    | some job =>
      refine .delete hg ?_
      simp only [spawnFail, deleteJob, forJob, State.print, readNode, hg]
  · rename_i i exiting hp
    obtain ⟨-, -, ha⟩ := step_main hs
    unfold answerStep mainStep at ha
    rw [hp] at ha
    obtain rfl := Option.some.inj ha
    cases hn : s.jid2job.next i with
    | none =>
      refine .idle ?_
      simp only [State.deleteDeadJobs, hn]
    | some k =>
      obtain ⟨-, job, hg⟩ := SlotTable.next_some hn
      rw [Option.bind_some, hg]
      dsimp only
      by_cases hz : job.numProcessesAlive = 0
      · rw [if_pos hz]
        refine .delete hg ?_
        simp only [State.deleteDeadJobs, hn, hg, if_pos hz]
        split <;> simp only [deleteJob, forJob, State.print, hg]
      · rw [if_neg hz]
        refine .idle ?_
        simp only [State.deleteDeadJobs, hn, hg, if_neg hz]
  · rename_i hadd hfail hdead
    cases (step_move hs).2 with
    | addJob hh hp => exact (hadd _ _ hp rfl).elim
    | spawnFailed out tty hh hp => exact (hfail _ _ _ hp rfl).elim
    | deadDelete out hh hp => exact (hdead _ _ hp rfl).elim
    | spawned => exact .idle rfl
    | _ => exact .idle rfl

/-! ## Every run -/

/-- The calls of a path. -/
def pathCalls (addr : Nat → α) (mem : Nat → LinkNode α) (l : List (State × Event)) :
    List (Call Unit α) :=
  l.flatMap fun x => x.1.jobListCalls addr mem x.2

/-- What `malloc` promises: a new job is put neither where a job is that has not been freed, nor
where the headers of the list are. -/
def MallocFresh (hdr : ListHdr α) (addr : Nat → α) (l : List (State × Event)) : Prop :=
  ∀ x ∈ l, ∀ node fds, x.1.pc = .addJob node fds →
    addr x.1.nextSerial ∉ hdr.nodes (x.1.jobList.map addr)

/-- Memory that is never used again is fresh. -/
theorem MallocFresh.of_injective {ok : State → Event → Bool} {l : List (State × Event)}
    (hr : Run ok s) (hp : Path ok s l t) (hinj : Function.Injective addr)
    (hh : ∀ n, addr n ≠ hdr.head) (ht : ∀ n, addr n ≠ hdr.tail) : MallocFresh hdr addr l := by
  induction hp with
  | nil => exact fun x hx => absurd hx List.not_mem_nil
  | @snoc l t u e hp hok hs ih =>
    intro x hx
    rcases List.mem_append.1 hx with hx | hx
    · exact ih x hx
    · obtain rfl := List.mem_singleton.1 hx
      intro node fds hpc hmem
      have hrt : Run ok t := Lts.Path.reach hp hr
      simp only [ListHdr.nodes, List.mem_append, List.mem_cons, List.not_mem_nil, or_false] at hmem
      rcases hmem with (hmem | hmem) | hmem
      · exact hh _ hmem
      · obtain ⟨n, hn, he⟩ := List.mem_map.1 hmem
        obtain ⟨jid, job, hg, rfl⟩ := ((Run.listed hrt).mem n).1 hn
        exact absurd (hinj he) (Nat.ne_of_lt (hrt.sound.serial_lt (account_of_get hg)))
      · exact ht _ hmem

/-- The one list of a store that has just been written. -/
theorem jobStore_eq (S : Store Unit α) {xs : List α} {L : Set α} (hl : t.jobList.map addr = xs)
    (hL : L = ∅) : { S.setList () xs with loose := L } = t.jobStore addr := by
  subst hl hL
  unfold Store.setList jobStore
  congr

theorem loose_taken (a : α) : (∅ ∪ {a}) \ {a} = (∅ : Set α) := by
  ext x
  simp

theorem JobCalls.specs {calls : List (Call Unit α)} (h : JobCalls addr mem s t calls)
    (hS : s.Listed)
    (hfresh : ∀ node fds, s.pc = .addJob node fds →
      addr s.nextSerial ∉ hdr.nodes (s.jobList.map addr)) :
    ∃ ps, Specs (fun _ => hdr) 0 calls ps (s.jobStore addr) (t.jobStore addr) := by
  cases h with
  | idle hl =>
    refine ⟨[], ?_⟩
    have hsame : t.jobStore addr = s.jobStore addr := by
      unfold jobStore
      rw [hl]
    rw [hsame]
    exact .nil
  | add hp hl =>
    have hlist : t.jobList.map addr = s.jobList.map addr ++ [addr s.nextSerial] := by simp [hl]
    rw [← jobStore_eq (s.jobStore addr) hlist (loose_taken (addr s.nextSerial))]
    exact ⟨[_, none], .cons (.malloc ⟨by simp [jobStore], fun _ => hfresh _ _ hp⟩)
      (.cons (.pushBack (by simp)) .nil)⟩
  | @delete jid job hg hl =>
    obtain ⟨xs, ys, -, hsplit, herase⟩ :=
      List.exists_erase_eq ((hS.mem _).2 ⟨jid, job, hg, rfl⟩)
    rw [herase] at hl
    have hbefore : (s.jobStore addr).lists () =
        xs.map addr ++ addr job.serial :: ys.map addr := by simp [jobStore, hsplit]
    have hlist : t.jobList.map addr = xs.map addr ++ ys.map addr := by simp [hl]
    rw [← jobStore_eq (s.jobStore addr) hlist (loose_taken (addr job.serial))]
    exact ⟨[_, none], .cons (.remove hbefore) (.cons (.free (by simp [jobStore])) .nil)⟩

variable {ok : State → Event → Bool} {l : List (State × Event)}

/-- The calls of a run are such as the list allows. -/
theorem Path.jobCalls (mem : Nat → LinkNode α) (hr : Run ok s) (hp : Path ok s l t)
    (hfresh : MallocFresh hdr addr l) :
    ∃ ps, Specs (fun _ => hdr) 0 (pathCalls addr mem l) ps (s.jobStore addr) (t.jobStore addr) := by
  induction hp with
  | nil => exact ⟨[], .nil⟩
  | @snoc l t u e hp hok hs ih =>
    obtain ⟨ps, hpre⟩ := ih fun x hx => hfresh x (List.mem_append_left _ hx)
    obtain ⟨ps', hcalls⟩ := (JobCalls.step addr mem hs).specs
      (Run.listed (Lts.Path.reach hp hr)) fun node fds hpc =>
        hfresh (t, e) (List.mem_append_right _ (List.mem_singleton_self _)) node fds hpc
    refine ⟨ps ++ ps', ?_⟩
    have happend := hpre.append hcalls
    simpa [pathCalls] using happend

variable [DecidableEq α]

/-- **The list of jobs in memory.** Along every run, the calls on `job_list` end without a fault,
and memory holds the jobs of the table, in the order of creation, and no other job. -/
theorem jobList_memory_run (mem : Nat → LinkNode α) {s₀ : State} {m : Memory α}
    (h0 : s₀.Initial) (hp : Path ok s₀ l s) (hfresh : MallocFresh hdr addr l)
    (hm : Represents (fun _ : Unit => hdr) m ⟨fun _ => [], ∅⟩) :
    ∃ ps m', runCalls (fun _ => hdr) 0 (pathCalls addr mem l) m = .ok (ps, m') ∧
      Holds m' hdr (s.jobList.map addr) ∧
      (∀ x, (m' x).isSome ↔ x = hdr.head ∨ x = hdr.tail ∨
        ∃ jid job, s.jid2job.get jid = some job ∧ addr job.serial = x) := by
  have hr : Run ok s₀ := .init h0
  obtain ⟨ps, hspecs⟩ := hp.jobCalls mem hr hfresh
  have hinit : s₀.jobStore addr = ⟨fun _ => [], ∅⟩ := by
    obtain ⟨shellPgrp, attr, openMax, -, rfl⟩ := h0
    rfl
  obtain ⟨m', hm', hrep⟩ := hspecs.ends (hinit ▸ hm)
  have hlisted := Run.listed (Lts.Path.reach hp hr)
  refine ⟨ps, m', hm', hrep.holds (), fun x => ?_⟩
  have hjobs : x ∈ s.jobList.map addr ↔
      ∃ jid job, s.jid2job.get jid = some job ∧ addr job.serial = x := by
    rw [List.mem_map]
    constructor
    · rintro ⟨n, hn, rfl⟩
      obtain ⟨jid, job, hg, rfl⟩ := (hlisted.mem n).1 hn
      exact ⟨jid, job, hg, rfl⟩
    · rintro ⟨jid, job, hg, rfl⟩
      exact ⟨_, (hlisted.mem _).2 ⟨jid, job, hg, rfl⟩, rfl⟩
  rw [hrep.allocated, ← hjobs]
  simp only [jobStore, Set.mem_empty_iff_false, false_or, exists_const, List.mem_append,
    List.mem_cons, List.not_mem_nil, or_false, or_assoc]
  exact or_congr_right or_comm

/-- `job_list` between the headers `0` and `1`. -/
def emptyJobList : Memory Nat
  | 0 => some ⟨none, some 1⟩
  | 1 => some ⟨some 0, none⟩
  | _ => none

theorem represents_emptyJobList :
    Represents (fun _ : Unit => ⟨0, 1⟩) emptyJobList ⟨fun _ => [], ∅⟩ := by
  refine ⟨fun i => ⟨by simp, ?_, ⟨_, rfl⟩, ⟨_, rfl⟩⟩, fun i j hij => absurd rfl hij, by simp,
    fun x => ?_⟩
  · simp [Chain, Linked, emptyJobList]
  · rcases x with _ | _ | x <;> simp [emptyJobList]

theorem jobList_memory_run_two : ∃ l s ps m', Path (fun _ _ => true) (State.init 50 7 .usual) l s ∧
    s.jobList = [0, 1] ∧
    runCalls (fun _ : Unit => ⟨0, 1⟩) 0 (pathCalls (· + 2) (fun _ => ⟨none, none⟩) l)
      emptyJobList = .ok (ps, m') ∧
    Holds m' ⟨0, 1⟩ [2, 3] := by
  have hrun : (Lts.exec step (fun _ _ => true) (State.init 50 7 .usual) startTwo).map
      State.jobList = some [0, 1] := by
    decide
  obtain ⟨s, hs, hl⟩ := Option.map_eq_some_iff.1 hrun
  have h0 : (State.init 50 7 .usual).Initial := ⟨50, 7, .usual, by decide, rfl⟩
  have hpath := Path.record hs
  have hfresh : MallocFresh ⟨0, 1⟩ (· + 2) (Lts.record step (State.init 50 7 .usual) startTwo) :=
    .of_injective (.init h0) hpath (fun a b h => Nat.add_right_cancel h) (by simp) (by simp)
  obtain ⟨ps, m', hm', hholds, -⟩ :=
    jobList_memory_run (fun _ => ⟨none, none⟩) h0 hpath hfresh represents_emptyJobList
  exact ⟨_, s, ps, m', hpath, hl, hm', by simpa [hl] using hholds⟩

end State

end Cush
