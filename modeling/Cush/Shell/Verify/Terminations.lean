import Cush.Shell.Verify.Context

/-!
# The order of terminations

`waitpid` reports processes that have terminated in any order. What `handle_child_status` records of
a background job is the same in every order as long as a process of the job is left. When the last
one is reported, the job becomes `DONE` if this one has exited and stays as it was if it was killed.
So the order matters exactly where some processes exit and others are killed.
-/

namespace Cush

def ExitStatus.isExit : ExitStatus → Bool
  | .exited _ => true
  | .signaled _ => false

/-- The last element of a list, in whatever order, satisfies a test or not. -/
theorem last_perm_iff {α : Type} {p : α → Bool} {l : List α} :
    (∀ l', l.Perm l' → l'.getLast?.any p = l.getLast?.any p) ↔
      (∀ x ∈ l, p x = true) ∨ ∀ x ∈ l, p x = false := by
  have atEnd : ∀ x ∈ l, ∃ l', l.Perm l' ∧ l'.getLast?.any p = p x := by
    intro x hx
    obtain ⟨a, b, rfl⟩ := List.append_of_mem hx
    refine ⟨a ++ b ++ [x], ?_, ?_⟩
    · rw [List.append_assoc]
      apply List.Perm.append_left
      exact (List.perm_append_singleton x b).symm
    · rw [List.getLast?_append, List.getLast?_singleton]
      rfl
  constructor
  · intro h
    by_contra hno
    rw [not_or] at hno
    obtain ⟨h1, h2⟩ := hno
    apply h1
    intro x hx
    by_contra hpx
    apply h2
    intro y hy
    obtain ⟨lx, hlx, hx'⟩ := atEnd x hx
    obtain ⟨ly, hly, hy'⟩ := atEnd y hy
    rw [← hy', h ly hly, ← h lx hlx, hx']
    exact Bool.eq_false_iff.2 hpx
  · intro h l' hl'
    cases hlast : l.getLast? with
    | none =>
      obtain rfl := List.getLast?_eq_none_iff.1 hlast
      rw [List.nil_perm.1 hl']
      rfl
    | some x =>
      cases hlast' : l'.getLast? with
      | none =>
        obtain rfl := List.getLast?_eq_none_iff.1 hlast'
        rw [hl'.eq_nil] at hlast
        cases hlast
      | some y =>
        have hx : x ∈ l := List.mem_of_getLast? hlast
        have hy : y ∈ l := hl'.mem_iff.2 (List.mem_of_getLast? hlast')
        rcases h with h | h
        · rw [Option.any_some, Option.any_some, h x hx, h y hy]
        · rw [Option.any_some, Option.any_some, h x hx, h y hy]

namespace State

variable {s : State} {jid : Nat} {job : Job}

/-- The statuses of processes that have terminated are handled one after the other. -/
def handleStatuses (s : State) (l : List (Pid × ExitStatus)) : State :=
  l.foldl (fun s x => s.handleChildStatus x.1 (.terminated x.2)) s

/-- What is recorded of a job. -/
def recorded (s : State) (jid : Nat) : Option (JobStatus × Int) :=
  (s.jid2job.get jid).map fun job => (job.status, job.numProcessesAlive)

theorem Job.handled_pids (job : Job) (attr : Termios) (status : WaitStatus) :
    (job.handled attr status).pids = job.pids := by
  rcases status with (_ | _) | _ <;> rfl

/-- `handle_child_status` for a process that has terminated. -/
theorem handleChildStatus_terminated (hm : s.mask.sigchld = true)
    (hg : s.jid2job.get jid = some job) {pid : Pid}
    (hj : getJobFromPid s.jid2job pid = some jid) (st : ExitStatus) :
    (s.handleChildStatus pid (.terminated st)).mask.sigchld = true ∧
      (s.handleChildStatus pid (.terminated st)).jid2job =
        s.jid2job.set jid (some (job.handled s.ttyAttr (.terminated st))) := by
  unfold handleChildStatus
  rw [if_pos hm, hj]
  dsimp only
  rw [hg]
  dsimp only
  cases st with
  | exited code =>
    dsimp only
    rw [childExited_eq hm hg]
    exact ⟨rfl, rfl⟩
  | signaled sig =>
    obtain ⟨out, ho⟩ := childSignaled_eq hm hg sig
    dsimp only
    rw [ho]
    exact ⟨rfl, rfl⟩

/-- A background job after a process of it has terminated. -/
theorem handled_background (hb : job.status = .background) (attr : Termios) (st : ExitStatus) :
    (job.handled attr (.terminated st)).status =
        (if job.numProcessesAlive = 1 ∧ st.isExit = true then .done else .background) ∧
      (job.handled attr (.terminated st)).numProcessesAlive = job.numProcessesAlive - 1 := by
  cases st with
  | exited code => simp [Job.handled, ExitStatus.isExit, hb]
  | signaled sig => simp [Job.handled, ExitStatus.isExit, hb]

/-- What is recorded after a list of statuses: `DONE` if these were all that were left and the last
one is an exit. -/
theorem handleStatuses_recorded {l : List (Pid × ExitStatus)} :
    ∀ {s : State} {job : Job}, s.mask.sigchld = true → s.jid2job.get jid = some job →
      job.status = .background → (∀ x ∈ l, getJobFromPid s.jid2job x.1 = some jid) →
      (l.length : Int) ≤ job.numProcessesAlive →
      (s.handleStatuses l).recorded jid = some
        (if (l.length : Int) = job.numProcessesAlive ∧ l.getLast?.any (fun x => x.2.isExit) then
          .done else .background, job.numProcessesAlive - l.length) := by
  induction l with
  | nil =>
    intro s job hm hg hb hl hn
    unfold recorded handleStatuses
    rw [List.foldl_nil, hg]
    simp [hb]
  | cons x l ih =>
    intro s job hm hg hb hl hn
    have hj := hl x List.mem_cons_self
    obtain ⟨hm', ht⟩ := handleChildStatus_terminated hm hg hj x.2
    obtain ⟨hst, halive⟩ := handled_background hb s.ttyAttr x.2
    have hg' : (s.handleChildStatus x.1 (.terminated x.2)).jid2job.get jid =
        some (job.handled s.ttyAttr (.terminated x.2)) := by
      rw [ht, SlotTable.get_set_self]
    rw [List.length_cons] at hn
    change ((s.handleChildStatus x.1 (.terminated x.2)).handleStatuses l).recorded jid = _
    cases l with
    | nil =>
      unfold recorded handleStatuses
      have hcond : ((([x].length : Int) = job.numProcessesAlive ∧
          ([x].getLast?.any fun x => x.2.isExit) = true)) ↔
          (job.numProcessesAlive = 1 ∧ x.2.isExit = true) :=
        and_congr eq_comm Iff.rfl
      rw [List.foldl_nil, hg', Option.map_some, hst, halive, if_congr hcond rfl rfl]
      rfl
    | cons y l =>
      rw [List.length_cons] at hn
      have hne : ¬ (job.numProcessesAlive = 1 ∧ x.2.isExit = true) := by
        rintro ⟨h1, -⟩
        omega
      rw [if_neg hne] at hst
      have hl' : ∀ z ∈ y :: l, getJobFromPid (s.handleChildStatus x.1 (.terminated x.2)).jid2job
          z.1 = some jid := by
        intro z hz
        rw [ht]
        refine (SlotTable.find_set hg ?_).trans (hl z (List.mem_cons_of_mem _ hz))
        rw [Job.handled_pids]
      have hlen : ((y :: l).length : Int) ≤
          (job.handled s.ttyAttr (.terminated x.2)).numProcessesAlive := by
        rw [halive, List.length_cons]
        omega
      rw [ih hm' hg' hst hl' hlen, halive, List.getLast?_cons_cons]
      have hcond : ((y :: l).length : Int) = job.numProcessesAlive - 1 ↔
          ((x :: y :: l).length : Int) = job.numProcessesAlive := by
        simp only [List.length_cons]
        omega
      have hsub : job.numProcessesAlive - 1 - ((y :: l).length : Int) =
          job.numProcessesAlive - ((x :: y :: l).length : Int) := by
        simp only [List.length_cons]
        omega
      rw [hsub]
      simp only [hcond]

/-- **What is recorded of a background job after its processes have terminated does not depend on
their order** if and only if a process is left, or all of them have exited, or all were killed. -/
theorem terminations_perm_iff {l : List (Pid × ExitStatus)} (hm : s.mask.sigchld = true)
    (hg : s.jid2job.get jid = some job) (hb : job.status = .background)
    (hl : ∀ x ∈ l, getJobFromPid s.jid2job x.1 = some jid)
    (hn : (l.length : Int) ≤ job.numProcessesAlive) :
    (∀ l', l.Perm l' → (s.handleStatuses l').recorded jid = (s.handleStatuses l).recorded jid) ↔
      (l.length : Int) < job.numProcessesAlive ∨ (∀ x ∈ l, x.2.isExit = true) ∨
        ∀ x ∈ l, x.2.isExit = false := by
  have result : ∀ l', l.Perm l' → (s.handleStatuses l').recorded jid = some
      (if (l.length : Int) = job.numProcessesAlive ∧ l'.getLast?.any (fun x => x.2.isExit) then
        .done else .background, job.numProcessesAlive - l.length) := by
    intro l' hp
    rw [hp.length_eq]
    apply handleStatuses_recorded hm hg hb
    · exact fun x hx => hl x (hp.mem_iff.2 hx)
    · rw [← hp.length_eq]
      exact hn
  rcases Int.lt_or_eq_of_le hn with hlt | heq
  · refine iff_of_true (fun l' hp => ?_) (Or.inl hlt)
    have hne : (l.length : Int) ≠ job.numProcessesAlive := Int.ne_of_lt hlt
    rw [result l' hp, result l (.refl l), if_neg fun h => hne h.1, if_neg fun h => hne h.1]
  · have hcond : (∀ l', l.Perm l' →
        (s.handleStatuses l').recorded jid = (s.handleStatuses l).recorded jid) ↔
        ∀ l', l.Perm l' → l'.getLast?.any (fun x => x.2.isExit) =
          l.getLast?.any fun x => x.2.isExit := by
      refine forall_congr' fun l' => forall_congr' fun hp => ?_
      rw [result l' hp, result l (.refl l)]
      simp only [heq, true_and]
      cases l'.getLast?.any fun x => x.2.isExit <;> cases l.getLast?.any fun x => x.2.isExit <;>
        simp
    have hnot : ¬ (l.length : Int) < job.numProcessesAlive := by omega
    rw [hcond, last_perm_iff, or_iff_right hnot]

/-- `a | b &`, up to the prompt. -/
def startPipe : List Event :=
  [.line ['a', '|', 'b', '&'], .main, .malloc [0, 0], .pipe2 (some (4, 5)), .main, .main, .main,
    .setUp fun _ => 0, .spawned 100, .setUp fun _ => 0, .spawned 101] ++ List.replicate 11 .main

/-- Two exits, in either order. -/
theorem terminations_perm_exits : ∃ s, Lts.exec step (fun _ _ => true) (State.init 50 7 .usual)
      (startPipe ++ [.child 100 (.exit 0), .child 101 (.exit 1), .sigchldHandler]) = some s ∧
    ∀ l', List.Perm [(100, .exited 0), (101, .exited 1)] l' →
      (s.handleStatuses l').recorded 1 =
        (s.handleStatuses [(100, .exited 0), (101, .exited 1)]).recorded 1 := by
  have hrun : (Lts.exec step (fun _ _ => true) (State.init 50 7 .usual)
      (startPipe ++ [.child 100 (.exit 0), .child 101 (.exit 1), .sigchldHandler])).map
        (fun s => (s.mask.sigchld, s.recorded 1, getJobFromPid s.jid2job 100,
          getJobFromPid s.jid2job 101)) = some (true, some (.background, 2), some 1, some 1) := by
    decide
  obtain ⟨s, hs, he⟩ := Option.map_eq_some_iff.1 hrun
  simp only [Prod.mk.injEq] at he
  obtain ⟨hm, hrec, h100, h101⟩ := he
  obtain ⟨job, hg, hjob⟩ := Option.map_eq_some_iff.1 hrec
  obtain ⟨hb, halive⟩ := Prod.ext_iff.1 hjob
  refine ⟨s, hs, (terminations_perm_iff hm hg hb ?_ ?_).2 (Or.inr (Or.inl ?_))⟩
  · simp [h100, h101]
  · rw [show job.numProcessesAlive = 2 from halive]
    decide
  · simp [ExitStatus.isExit]

/-- The first process is killed and the second one exits: the handler takes up the two statuses in
either order, and what it records differs. -/
theorem terminations_differ : ∃ s t u, Run (fun _ _ => true) s ∧
    Lts.exec step (fun _ _ => true) s [.reap 100, .reap 101] = some t ∧
    Lts.exec step (fun _ _ => true) s [.reap 101, .reap 100] = some u ∧
    t.recorded 1 = some (.done, 0) ∧ u.recorded 1 = some (.background, 0) := by
  have hrun : ((Lts.exec step (fun _ _ => true) (State.init 50 7 .usual) (startPipe ++
      [.child 100 (.kill (.other 13)), .child 101 (.exit 0), .sigchldHandler])).bind fun s =>
      (Lts.exec step (fun _ _ => true) s [.reap 100, .reap 101]).bind fun t =>
        (Lts.exec step (fun _ _ => true) s [.reap 101, .reap 100]).map fun u =>
          (t.recorded 1, u.recorded 1)) = some (some (.done, 0), some (.background, 0)) := by
    decide
  obtain ⟨s, hs, hrun⟩ := Option.bind_eq_some_iff.1 hrun
  obtain ⟨t, ht, hrun⟩ := Option.bind_eq_some_iff.1 hrun
  obtain ⟨u, hu, he⟩ := Option.map_eq_some_iff.1 hrun
  obtain ⟨h1, h2⟩ := Prod.ext_iff.1 he
  exact ⟨s, t, u, Run.exec (by decide) hs, ht, hu, h1, h2⟩

end State

end Cush
