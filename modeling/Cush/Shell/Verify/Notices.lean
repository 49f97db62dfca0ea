import Cush.Shell.Verify.Books

/-!
# Statuses of children

A status is taken up by the handler or by `wait_for_job`, and several changes of children share one
pending `SIGCHLD`. `ProcChange` lists what a step does to the children. It follows that a child
which has something to report keeps `SIGCHLD` pending until the handler runs, which does not return
before all of it is taken up, and that `handle_child_status` is passed the terminations of the
children, each once and in order for each pid.
-/

namespace Cush

/-- How a zombie has terminated. -/
def Proc.ended (p : Proc) : Option ExitStatus :=
  match p.state with
  | .zombie status => some status
  | _ => none

/-- The child with a pid. -/
def childWith (procs : List Proc) (pid : Pid) : Option Proc :=
  procs.find? fun p => p.pid = pid

/-- The termination of the child with a pid, where the event is one. -/
def Event.termination (pid : Pid) : Event → Option ExitStatus
  | .child pid' (.exit code) => if pid' = pid then some (.exited code) else none
  | .child pid' (.kill sig) => if pid' = pid then some (.signaled sig) else none
  | _ => none

def Event.spawns (pid : Pid) : Event → Bool
  | .spawned pid' => pid' = pid
  | _ => false

/-- The events that can change, add or remove a child other than by a signal of the shell. -/
def Event.ofChild : Event → Bool
  | .child .. | .reap _ | .waitpid _ | .spawned _ => true
  | _ => false

namespace Proc

theorem signal_waitStatus {p : Proc} {sig : Signal}
    (h : (p.signal sig).waitStatus.isSome = true) : p.waitStatus.isSome = true := by
  obtain ⟨pid, pgid, owner, state, pending⟩ := p
  cases state with
  | zombie => exact h
  | running | stopped =>
    simp only [signal] at h
    split at h <;> first | cases h | exact h

end Proc

namespace State

variable {s t : State} {e : Event}

/-- How the child of that pid has terminated whose status `handle_child_status` is passed. -/
def passed (s : State) (pid : Pid) : Event → Option ExitStatus
  | .reap pid' | .waitpid pid' =>
    if pid' = pid then
      match waitpid s.procs pid with
      | some (.terminated status, _) => some status
      | _ => none
    else none
  | _ => none

/-! ## What a step does to the children -/

inductive ProcChange (s : State) (e : Event) (t : State) : Prop
  | same (he : e.ofChild = false) (ht : t.procs = s.procs)
  | signaled (pgrp : Pid) (sig : Signal) (he : e = .main)
      (ht : t.procs = Cush.killpg s.procs pgrp sig)
  | changed {pid : Pid} {c : Change} (he : e = .child pid c)
      (hc : changeProc s.procs pid c = some t.procs)
  | waited {pid : Pid} {status : WaitStatus} (he : e = .reap pid ∨ e = .waitpid pid)
      (hw : waitpid s.procs pid = some (status, t.procs))
  | spawned {p : Proc} (he : e = .spawned p.pid) (hf : s.freshPid p.pid = true)
      (hr : p.state = .running) (ht : t.procs = s.procs ++ [p])

/-- A spawned process is recorded in its job. -/
theorem spawned_step {pid : Pid} (hS : s.Spawning) (h : step s (.spawned pid) = some t) :
    ∃ ctx fa cmd rest job, s.pc = .spawn ctx fa ∧ ctx.todo = cmd :: rest ∧
      s.jid2job.get ctx.jid = some job ∧ s.freshPid pid = true ∧
        t = s.spawnOk ctx cmd rest job pid := by
  unfold step at h
  split at h
  · dsimp only at h
    split at h
    · dsimp only [answerStep] at h
      split at h
      · rename_i ctx fa hp
        split at h
        · rename_i cmd rest ht
          split at h
          · rename_i hf
            obtain ⟨job, hg, -⟩ := hS ctx (by rw [hp]; rfl)
            unfold forJob at h
            rw [hg] at h
            cases h
            exact ⟨ctx, fa, cmd, rest, job, hp, ht, hg, hf.1, rfl⟩
          · cases h
        · cases h
      · cases h
    · cases h
  · cases h

/-- A failed spawn deletes the job. -/
theorem spawnFailed_step {took : Option Pid} (hS : s.Spawning)
    (h : step s (.spawnFailed took) = some t) :
    ∃ ctx fa job, s.pc = .spawn ctx fa ∧ s.jid2job.get ctx.jid = some job ∧
      t.procs = s.procs ∧ t.jid2job = s.jid2job.set ctx.jid none := by
  unfold step at h
  split at h
  · dsimp only at h
    split at h
    · dsimp only [answerStep] at h
      split at h
      · rename_i ctx fa hp
        split at h
        · obtain ⟨job, hg, -⟩ := hS ctx (by rw [hp]; rfl)
          refine ⟨ctx, fa, job, hp, hg, ?_⟩
          unfold spawnFail deleteJob forJob at h
          simp only [readNode, State.print, hg] at h
          cases h
          exact ⟨rfl, rfl⟩
        · cases h
      · cases h
    · cases h
  · cases h

theorem ProcChange.step (hS : s.Spawning) (h : step s e = some t) : ProcChange s e t := by
  by_cases hsp : ∃ pid, e = .spawned pid
  · obtain ⟨pid, rfl⟩ := hsp
    obtain ⟨ctx, fa, cmd, rest, job, -, -, -, hf, rfl⟩ := spawned_step hS h
    exact .spawned (p := ⟨pid, if ctx.pgid = 0 then pid else ctx.pgid, job.serial, .running, []⟩)
      rfl hf rfl rfl
  · cases (step_move h).2 with
    | child hc => exact .changed rfl hc
    | handled out hwait hm hw => exact .waited hwait.event hw
    | lost hwait hw => exact .waited hwait.event hw
    | unblocked hwait hw => exact .waited hwait.event hw
    | killpg | fgCont | bgCont => exact .signaled _ _ rfl rfl
    | crash hh o ds out tty hrf he | abort hh sc hist m o hrf he =>
      refine .same ?_ rfl
      cases e with
      | spawned pid => exact absurd ⟨pid, rfl⟩ hsp
      | line | noUser | main | spawnFailed => rfl
      | _ => cases he
    | spawned => exact absurd ⟨_, rfl⟩ hsp
    | _ => exact .same rfl rfl

/-! ## The pending signal -/

/-- What a child has to report is going to be taken up by the handler. -/
def Noticed (s : State) : Prop :=
  reportable s.procs = true → s.sigchldPending = true ∨ s.handler.isSome = true

theorem reportable_iff {procs : List Proc} :
    reportable procs = true ↔ ∃ p ∈ procs, p.waitStatus.isSome = true :=
  List.any_eq_true

theorem reportable_waitpid {procs procs' : List Proc} {pid : Pid} {status : WaitStatus}
    (hw : waitpid procs pid = some (status, procs')) (h : reportable procs' = true) :
    reportable procs = true := by
  obtain ⟨p, hp, hs⟩ := reportable_iff.1 h
  exact reportable_iff.2 ⟨p, waitpid_unreported hw hp hs, hs⟩

theorem reportable_killpg {procs : List Proc} {pgrp : Pid} {sig : Signal}
    (h : reportable (Cush.killpg procs pgrp sig) = true) : reportable procs = true := by
  obtain ⟨p, hp, hs⟩ := reportable_iff.1 h
  obtain ⟨q, hq, rfl⟩ := List.mem_map.1 hp
  refine reportable_iff.2 ⟨q, hq, ?_⟩
  split at hs
  · exact Proc.signal_waitStatus hs
  · exact hs

theorem Noticed.move (h : s.Noticed) (hm : Move s e t) : t.Noticed := by
  intro hrep
  cases hm with
  | child | sigchld => exact Or.inl rfl
  | handlerStart => exact Or.inr rfl
  | handlerReturn hh hr =>
    rw [hr] at hrep
    cases hrep
  | handled out hwait hm hw => exact h (reportable_waitpid hw hrep)
  | lost hwait hw => exact h (reportable_waitpid hw hrep)
  | unblocked hwait hw => exact h (reportable_waitpid hw hrep)
  | killpg hh hp hg hpend | fgCont hh hp hg hpend | bgCont hh hp hg hpend =>
    exact (h (reportable_killpg hrep)).imp_left hpend
  | @spawned ctx fa cmd rest job pid =>
    apply h
    obtain ⟨p, hp, hs⟩ := reportable_iff.1 hrep
    rcases List.mem_append.1 hp with hp | hp
    · exact reportable_iff.2 ⟨p, hp, hs⟩
    · rw [List.mem_singleton.1 hp] at hs
      cases hs
  | _ => exact h hrep

theorem Noticed.init {s : State} (h : s.Initial) : s.Noticed := by
  obtain ⟨shellPgrp, attr, openMax, -, rfl⟩ := h
  intro hrep
  cases hrep

variable {ok : State → Event → Bool}

theorem Run.noticed (hr : Run ok s) : s.Noticed :=
  Lts.Reach.invariant (I := State.Noticed) (fun _ => Noticed.init)
    (fun _ _ _ _ hI _ hs => hI.move (step_move hs).2) hr

/-- Nothing is left to be reported where the handler neither runs nor is going to. -/
theorem Noticed.quiet (h : s.Noticed) (hh : s.handler = none) (hp : s.sigchldPending = false) :
    ∀ p ∈ s.procs, (∀ status, p.state ≠ .zombie status) ∧
      ∀ sig, p.state ≠ .stopped sig false := by
  have hno : ∀ p ∈ s.procs, p.waitStatus.isSome = true → False := by
    intro p hmem hs
    rcases h (reportable_iff.2 ⟨p, hmem, hs⟩) with hc | hc
    · rw [hp] at hc
      cases hc
    · rw [hh] at hc
      cases hc
  intro p hmem
  constructor
  · intro status hst
    apply hno p hmem
    unfold Proc.waitStatus
    rw [hst]
    rfl
  · intro sig hst
    apply hno p hmem
    unfold Proc.waitStatus
    rw [hst]
    rfl

/-! ## Each termination is passed once -/

/-- How the child with a pid has terminated, if it is a zombie. -/
def zombieWith (procs : List Proc) (pid : Pid) : Option ExitStatus :=
  (childWith procs pid).bind Proc.ended

/-- What a step does to the child with a pid. -/
structure Proceeds (s : State) (e : Event) (t : State) (pid : Pid) : Prop where
  ended : (zombieWith s.procs pid).toList ++ (e.termination pid).toList =
    (s.passed pid e).toList ++ (zombieWith t.procs pid).toList
  count : (childWith s.procs pid).toList.length + (e.spawns pid).toNat =
    (s.passed pid e).toList.length + (childWith t.procs pid).toList.length

theorem childWith_map (procs : List Proc) {f : Proc → Proc} (hf : ∀ p, (f p).pid = p.pid)
    (pid : Pid) : childWith (procs.map f) pid = (childWith procs pid).map f := by
  unfold childWith
  rw [List.find?_map]
  simp only [Function.comp_def, hf]

/-- A child that changes its state is no zombie yet. -/
theorem change_ended {p p' : Proc} {c : Change} (h : p.change c = some p') :
    p.ended = none ∧ p'.ended = (Event.child p.pid c).termination p.pid := by
  obtain ⟨pid, pgid, owner, state, pending⟩ := p
  unfold Proc.change at h
  cases c with
  | exit code =>
    cases state with
    | running =>
      cases h
      exact ⟨rfl, (if_pos rfl).symm⟩
    | stopped | zombie => cases h
  | kill sig =>
    dsimp only at h
    split at h
    · cases h
    · cases state with
      | running =>
        cases h
        exact ⟨rfl, (if_pos rfl).symm⟩
      | stopped =>
        dsimp only at h
        split at h
        · cases h
          exact ⟨rfl, (if_pos rfl).symm⟩
        · cases h
      | zombie => cases h
  | stop sig =>
    cases state with
    | running =>
      dsimp only at h
      split at h
      · cases h
        exact ⟨rfl, rfl⟩
      · cases h
    | stopped | zombie => cases h
  | cont =>
    cases state with
    | stopped =>
      cases h
      exact ⟨rfl, rfl⟩
    | running | zombie => cases h

theorem termination_ne {pid pid' : Pid} (h : pid' ≠ pid) (c : Change) :
    (Event.child pid' c).termination pid = none := by
  cases c with
  | exit | kill => exact if_neg h
  | stop | cont => rfl

/-- What does not concern the child with a pid. -/
theorem Proceeds.stay {pid : Pid} {f : Proc → Proc} (ht : e.termination pid = none)
    (hp : s.passed pid e = none) (hs : e.spawns pid = false)
    (hf : ∀ p, childWith s.procs pid = some p → (f p).ended = p.ended)
    (hc : childWith t.procs pid = (childWith s.procs pid).map f) : Proceeds s e t pid := by
  constructor
  · unfold zombieWith
    rw [ht, hp, hc]
    cases hq : childWith s.procs pid with
    | none => rfl
    | some p =>
      simp only [Option.map_some, Option.bind_some, hf p hq, Option.toList_none, List.append_nil,
        List.nil_append]
  · rw [hp, hs, hc]
    cases childWith s.procs pid <;> rfl

theorem childWith_of_mem {procs : List Proc} (hn : (procs.map Proc.pid).Nodup) {p : Proc}
    (hp : p ∈ procs) : childWith procs p.pid = some p := by
  cases hc : childWith procs p.pid with
  | none => simpa using List.find?_eq_none.1 hc p hp
  | some q => rw [eq_of_pid hn (find_pid hc).1 hp (find_pid hc).2]

theorem childWith_filter (procs : List Proc) (pid pid' : Pid) :
    childWith (procs.filter fun q => q.pid ≠ pid') pid =
      if pid' = pid then none else childWith procs pid := by
  unfold childWith
  rw [List.find?_filter]
  split
  · rename_i h
    simp [h]
  · rename_i h
    congr 1
    funext q
    by_cases hq : q.pid = pid
    · simp [hq, Ne.symm h]
    · simp [hq]

theorem passed_ne {pid pid' : Pid} (he : e = .reap pid' ∨ e = .waitpid pid') (h : pid' ≠ pid) :
    s.passed pid e = none := by
  rcases he with rfl | rfl <;> exact if_neg h

theorem passed_self {pid : Pid} (he : e = .reap pid ∨ e = .waitpid pid) {status : ExitStatus}
    {procs : List Proc} (hw : waitpid s.procs pid = some (.terminated status, procs)) :
    s.passed pid e = some status := by
  rcases he with rfl | rfl <;> simp only [passed, if_true, hw]

theorem passed_stopped {pid : Pid} (he : e = .reap pid ∨ e = .waitpid pid) {sig : Signal}
    {procs : List Proc} (hw : waitpid s.procs pid = some (.stopped sig, procs)) :
    s.passed pid e = none := by
  rcases he with rfl | rfl <;> simp only [passed, if_true, hw]

/-- A child changes its state. -/
theorem Proceeds.changed (hn : (s.procs.map Proc.pid).Nodup) {pid' : Pid} {c : Change}
    (hc : changeProc s.procs pid' c = some t.procs) (pid : Pid) :
    Proceeds s (.child pid' c) t pid := by
  obtain ⟨p, p', hp, rfl, hch, hprocs⟩ := changeProc_cases hc
  have hpid : ∀ q, (if q.pid = p.pid then p' else q).pid = q.pid := by
    intro q
    split
    · rename_i hq
      rw [hq, (Proc.change_same hch).pid]
    · rfl
  have hmap := childWith_map s.procs hpid pid
  rw [← hprocs] at hmap
  by_cases hne : p.pid = pid
  · subst hne
    obtain ⟨h1, h2⟩ := change_ended hch
    rw [childWith_of_mem hn hp, Option.map_some, if_pos rfl] at hmap
    constructor
    · rw [zombieWith, zombieWith, childWith_of_mem hn hp, hmap, Option.bind_some,
        Option.bind_some, h1, h2]
      rfl
    · rw [childWith_of_mem hn hp, hmap]
      rfl
  · refine .stay (termination_ne hne _) rfl rfl (fun q hq => ?_) hmap
    rw [if_neg]
    rw [(find_pid hq).2]
    exact fun h => hne h.symm

/-- A stop is taken up. -/
theorem Proceeds.stopped (hn : (s.procs.map Proc.pid).Nodup) {p : Proc} {sig : Signal}
    (he : e = .reap p.pid ∨ e = .waitpid p.pid) (hp : p ∈ s.procs)
    (hst : p.state = .stopped sig false)
    (hw : waitpid s.procs p.pid = some (.stopped sig, t.procs))
    (hprocs : t.procs =
      s.procs.map fun q => if q.pid = p.pid then { q with state := .stopped sig true } else q)
    (pid : Pid) : Proceeds s e t pid := by
  have hpid : ∀ q : Proc,
      (if q.pid = p.pid then { q with state := .stopped sig true } else q).pid = q.pid := by
    intro q
    split <;> rfl
  have hmap := childWith_map s.procs hpid pid
  rw [← hprocs] at hmap
  refine Proceeds.stay ?_ ?_ ?_ (fun q hq => ?_) hmap
  · rcases he with rfl | rfl <;> rfl
  · by_cases hne : p.pid = pid
    · subst hne
      exact passed_stopped he hw
    · exact passed_ne he hne
  · rcases he with rfl | rfl <;> rfl
  · split
    · rename_i hq'
      rw [eq_of_pid hn (find_pid hq).1 hp hq']
      unfold Proc.ended
      rw [hst]
    · rfl

/-- A zombie is reaped. -/
theorem Proceeds.reaped (hn : (s.procs.map Proc.pid).Nodup) {p : Proc} {st : ExitStatus}
    (he : e = .reap p.pid ∨ e = .waitpid p.pid) (hp : p ∈ s.procs) (hst : p.state = .zombie st)
    (hw : waitpid s.procs p.pid = some (.terminated st, t.procs))
    (hprocs : t.procs = s.procs.filter fun q => q.pid ≠ p.pid) (pid : Pid) :
    Proceeds s e t pid := by
  have hterm : e.termination pid = none := by
    rcases he with rfl | rfl <;> rfl
  have hspawn : e.spawns pid = false := by
    rcases he with rfl | rfl <;> rfl
  have hfilter := childWith_filter s.procs pid p.pid
  rw [← hprocs] at hfilter
  by_cases hne : p.pid = pid
  · subst hne
    have hended : p.ended = some st := by
      unfold Proc.ended
      rw [hst]
    rw [if_pos rfl] at hfilter
    constructor
    · rw [hterm, passed_self he hw, zombieWith, zombieWith, childWith_of_mem hn hp, hfilter,
        Option.bind_some, hended]
      rfl
    · rw [hspawn, passed_self he hw, childWith_of_mem hn hp, hfilter]
      rfl
  · rw [if_neg hne] at hfilter
    refine .stay (f := id) hterm (passed_ne he hne) hspawn (fun _ _ => rfl) ?_
    rw [hfilter, Option.map_id_fun, id]

/-- A child is spawned. -/
theorem Proceeds.spawned {p : Proc} (hf : s.freshPid p.pid = true) (hr : p.state = .running)
    (ht : t.procs = s.procs ++ [p]) (pid : Pid) : Proceeds s (.spawned p.pid) t pid := by
  have happ : childWith t.procs pid =
      (childWith s.procs pid).or (if p.pid = pid then some p else none) := by
    unfold childWith
    rw [ht, List.find?_append, List.find?_singleton]
    simp only [decide_eq_true_eq]
  by_cases hne : p.pid = pid
  · subst hne
    have hnone : childWith s.procs p.pid = none := by
      refine List.find?_eq_none.2 fun q hq => ?_
      unfold freshPid at hf
      simp only [Bool.and_eq_true, List.all_eq_true, decide_eq_true_eq] at hf
      simpa using (hf.1.2 q hq).1
    rw [hnone, if_pos rfl, Option.none_or] at happ
    constructor
    · rw [zombieWith, zombieWith, hnone, happ, Option.bind_some]
      unfold Proc.ended
      rw [hr]
      rfl
    · rw [hnone, happ]
      simp [Event.spawns, passed]
  · rw [if_neg hne, Option.or_none] at happ
    refine .stay (f := id) rfl rfl (decide_eq_false hne) (fun _ _ => rfl) ?_
    rw [happ, Option.map_id_fun, id]

end State

end Cush
