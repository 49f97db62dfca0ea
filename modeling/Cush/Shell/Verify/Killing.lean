import Cush.Shell.Verify.Groups
import Mathlib.Logic.Relation

/-!
# What `kill` terminates

`kill` sends `SIGTERM` to the process group of the job, and nothing else. A process that runs is
terminated once the signal is delivered, but to a stopped one it is not delivered. Pending signals
are delivered here in any order, with their default dispositions.
-/

namespace Cush

/-! ## Delivery -/

/-- What a signal does by default. Those that are not told apart here are never sent. -/
def Signal.defaultAction : Signal → Option Change
  | .sigcont | .other _ => none
  | .sigterm => some (.kill .sigterm)
  | .sigkill => some (.kill .sigkill)
  | .sigsegv => some (.kill .sigsegv)
  | .sigabrt => some (.kill .sigabrt)
  | .sigfpe => some (.kill .sigfpe)
  | .sigstop => some (.stop .sigstop)
  | .sigtstp => some (.stop .sigtstp)
  | .sigttin => some (.stop .sigttin)
  | .sigttou => some (.stop .sigttou)

namespace Proc

/-- A pending signal is delivered. -/
def Delivery (p p' : Proc) : Prop :=
  ∃ sig ∈ p.pending, ∃ c, sig.defaultAction = some c ∧ p.change c = some p'

/-- The signals have been delivered, except for those that stay pending. -/
def Delivered (p p' : Proc) : Prop :=
  Relation.ReflTransGen Delivery p p' ∧ ∀ p'', ¬ Delivery p' p''

def terminated (p : Proc) : Bool :=
  p.state matches .zombie _

/-- Only signals are pending that `kill` and `stop` send. -/
def Pended (p : Proc) : Prop :=
  ∀ sig ∈ p.pending, sig = .sigterm ∨ sig = .sigtstp

/-- Nothing keeps the process from being terminated: it is not stopped, and no stop signal is
pending. -/
def killable (p : Proc) : Bool :=
  p.terminated || (p.state = .running && p.pending.all fun sig => !sig.isStop)

variable {p p' : Proc}

theorem change_terminated {c : Change} (h : p.terminated = true) : p.change c = none := by
  unfold terminated at h
  cases hs : p.state with
  | zombie status =>
    cases c with
    | kill sig =>
      unfold change
      rw [hs]
      dsimp only
      split <;> rfl
    | _ =>
      unfold change
      rw [hs]
  | _ =>
    rw [hs] at h
    cases h

theorem change_sigtstp (h : p.state = .running) : p.change (.stop .sigtstp) =
    some { p with state := .stopped .sigtstp false,
                  pending := p.pending.filter (· ≠ .sigtstp) } := by
  unfold change
  rw [h]
  rfl

theorem change_sigterm (h : p.state = .running) : p.change (.kill .sigterm) =
    some { p with state := .zombie (.signaled .sigterm), pending := [] } := by
  unfold change
  rw [h]
  rfl

/-- To a stopped process neither signal is delivered. -/
theorem Pended.stays (h : p.Pended) {sig : Signal} {reported : Bool}
    (hs : p.state = .stopped sig reported) : ∀ p', ¬ Delivery p p' := by
  rintro p' ⟨x, hx, c, hc, hch⟩
  rcases h x hx with rfl | rfl <;>
  · cases hc
    unfold change at hch
    rw [hs] at hch
    cases hch

theorem stays_of_terminated (h : p.terminated = true) : ∀ p', ¬ Delivery p p' := by
  rintro p' ⟨sig, -, c, -, hch⟩
  rw [change_terminated h] at hch
  cases hch

theorem eq_of_stays (h : ∀ p', ¬ Delivery p p') {p' : Proc} (hd : Delivered p p') : p' = p := by
  rcases Relation.ReflTransGen.cases_head_iff.1 hd.1 with rfl | ⟨p₁, hstep, -⟩
  · rfl
  · exact absurd hstep (h p₁)

/-- What one delivery makes of a running process. -/
theorem Pended.delivery (h : p.Pended) (hr : p.state = .running) (hd : Delivery p p') :
    (Signal.sigterm ∈ p.pending ∧ p'.terminated = true) ∨
      (Signal.sigtstp ∈ p.pending ∧ p'.terminated = false ∧ ∀ p'', ¬ Delivery p' p'') := by
  obtain ⟨sig, hsig, c, hc, hch⟩ := hd
  rcases h sig hsig with rfl | rfl
  · cases hc
    rw [change_sigterm hr] at hch
    cases hch
    exact Or.inl ⟨hsig, rfl⟩
  · cases hc
    rw [change_sigtstp hr] at hch
    cases hch
    refine Or.inr ⟨hsig, rfl, Pended.stays (fun x hx => h x (List.mem_of_mem_filter hx)) rfl⟩

theorem delivery_sigterm (hr : p.state = .running) (hm : Signal.sigterm ∈ p.pending) :
    ∃ p', Delivery p p' :=
  ⟨_, _, hm, _, rfl, change_sigterm hr⟩

theorem delivery_sigtstp (hr : p.state = .running) (hm : Signal.sigtstp ∈ p.pending) :
    ∃ p', Delivery p p' ∧ p'.terminated = false :=
  ⟨_, ⟨_, hm, _, rfl, change_sigtstp hr⟩, rfl⟩

/-- Where no more signal is delivered after one. -/
theorem Delivered.single (hd : Delivery p p') (h : ∀ p'', ¬ Delivery p' p'') : Delivered p p' :=
  ⟨.single hd, h⟩

/-- The deliveries come to an end. -/
theorem Pended.delivered (h : p.Pended) : ∃ p', Delivered p p' := by
  by_cases hex : ∃ p', Delivery p p'
  · obtain ⟨p', hd⟩ := hex
    cases hs : p.state with
    | running =>
      rcases h.delivery hs hd with ⟨-, ht⟩ | ⟨-, -, hstays⟩
      · exact ⟨p', .single hd (stays_of_terminated ht)⟩
      · exact ⟨p', .single hd hstays⟩
    | stopped sig reported => exact absurd hd (h.stays hs p')
    | zombie status => exact absurd hd (stays_of_terminated (by rw [terminated, hs]) p')
  · exact ⟨p, .refl, fun p' hd => hex ⟨p', hd⟩⟩

theorem Pended.signal (h : p.Pended) {sig : Signal} (hs : sig = .sigterm ∨ sig = .sigtstp) :
    (p.signal sig).Pended := by
  have hne : sig ≠ .sigcont := by
    rcases hs with rfl | rfl <;> exact fun h => nomatch h
  unfold Proc.signal
  split
  · exact h
  · rw [if_neg hne]
    intro x hx
    rcases List.mem_append.1 hx with hold | hnew
    · exact h x hold
    · rw [List.mem_singleton.1 hnew]
      exact hs

theorem Pended.sigcont (h : p.Pended) : (p.signal .sigcont).Pended := by
  unfold Proc.signal
  split
  · exact h
  · rw [if_pos rfl]
    split <;> exact fun x hx => h x (List.mem_of_mem_filter hx)

theorem Pended.change {c : Change} (h : p.Pended) (hc : p.change c = some p') : p'.Pended := by
  unfold Proc.change at hc
  split at hc <;> repeat' split at hc
  all_goals cases hc
  all_goals first
    | exact fun x hx => h x (List.mem_of_mem_filter hx)
    | exact fun x hx => absurd hx List.not_mem_nil

theorem signal_sigterm (h : p.terminated = false) :
    (p.signal .sigterm).state = p.state ∧
      (p.signal .sigterm).pending = p.pending ++ [.sigterm] := by
  unfold signal
  split
  · rename_i status hs
    rw [terminated, hs] at h
    cases h
  · rw [if_neg (fun h => nomatch h)]
    exact ⟨rfl, rfl⟩

theorem signal_terminated (h : p.terminated = true) (sig : Signal) : p.signal sig = p := by
  unfold signal
  cases hs : p.state with
  | zombie status => rfl
  | _ =>
    rw [terminated, hs] at h
    cases h

/-- `SIGTERM` terminates a process, whatever order the signals are delivered in, if and only if it
is killable. -/
theorem Pended.terminates_iff (h : p.Pended) :
    (∀ p', Delivered (p.signal .sigterm) p' → p'.terminated = true) ↔ p.killable = true := by
  have hsent := h.signal (Or.inl rfl)
  by_cases ht : p.terminated = true
  · rw [signal_terminated ht, killable, ht, Bool.true_or]
    refine iff_of_true (fun p' hd => ?_) rfl
    rw [eq_of_stays (stays_of_terminated ht) hd]
    exact ht
  rw [Bool.not_eq_true] at ht
  obtain ⟨hstate, hpending⟩ := signal_sigterm ht
  rw [killable, ht, Bool.false_or, Bool.and_eq_true, decide_eq_true_iff, List.all_eq_true]
  cases hs : p.state with
  | zombie status =>
    rw [terminated, hs] at ht
    cases ht
  | stopped sig reported =>
    -- `SIGTERM` stays pending
    refine iff_of_false (fun hall => ?_) (fun hk => nomatch hk.1)
    rw [hs] at hstate
    have := hall _ ⟨.refl, hsent.stays hstate⟩
    rw [terminated, hstate] at this
    cases this
  | running =>
    rw [hs] at hstate
    have hterm : Signal.sigterm ∈ (p.signal .sigterm).pending := by
      rw [hpending]
      exact List.mem_append_right _ (List.mem_singleton_self _)
    constructor
    · refine fun hall => ⟨rfl, fun sig hsig => ?_⟩
      rcases h sig hsig with rfl | rfl
      · rfl
      · -- the stop signal may be delivered first
        obtain ⟨p', hd, hnot⟩ := delivery_sigtstp hstate
          (by rw [hpending]; exact List.mem_append_left _ hsig)
        rcases hsent.delivery hstate hd with ⟨-, hterm⟩ | ⟨-, -, hstays⟩
        · rw [hterm] at hnot
          cases hnot
        · rw [hall p' (.single hd hstays)] at hnot
          cases hnot
    · rintro ⟨-, hnone⟩ p' hd
      rcases Relation.ReflTransGen.cases_head_iff.1 hd.1 with rfl | ⟨p₁, hstep, hrest⟩
      · obtain ⟨p', hmore⟩ := delivery_sigterm hstate hterm
        exact absurd hmore (hd.2 p')
      · rcases hsent.delivery hstate hstep with ⟨-, ht₁⟩ | ⟨hstop, -⟩
        · rw [eq_of_stays (stays_of_terminated ht₁) ⟨hrest, hd.2⟩]
          exact ht₁
        · rw [hpending, List.mem_append] at hstop
          rcases hstop with hold | hnew
          · exact absurd (hnone _ hold) (by decide)
          · cases List.mem_singleton.1 hnew

end Proc

namespace State

variable {s t : State} {e : Event} {ok : State → Event → Bool}

/-! ## Every run -/

/-- `killpg` is called with `SIGTERM` or `SIGTSTP`, other than by `fg` and `bg`. -/
structure Sending (s : State) : Prop where
  procs : ∀ p ∈ s.procs, p.Pended
  sig : ∀ {jid sig}, s.pc = .killpg jid sig → sig = .sigterm ∨ sig = .sigtstp

theorem withJob_killpg {name : Word} {args : List Word} {k : Nat → Job → State} {jid : Nat}
    {sig : Signal} (h : (s.withJob name args k).pc = .killpg jid sig) :
    ∃ j job, (k j job).pc = .killpg jid sig := by
  unfold withJob at h
  split at h
  · cases h
  dsimp only at h
  split at h
  · cases h
  · exact ⟨_, _, h⟩

/-- The signals that a builtin is going to send. -/
theorem dispatch_killpg {jid : Nat} {sig : Signal} (h : s.dispatch.pc = .killpg jid sig) :
    sig = .sigterm ∨ sig = .sigtstp := by
  unfold dispatch at h
  split at h
  · cases h
  dsimp only at h
  split at h
  · cases h
  split at h
  · cases h
  rename_i name args _
  unfold handleBuiltin at h
  cases hb : Builtin.ofName name with
  | none =>
    rw [hb] at h
    cases h
  | some b =>
    rw [hb] at h
    cases b with
    | kill =>
      obtain ⟨j, job, hk⟩ := withJob_killpg h
      cases hk
      exact Or.inl rfl
    | stop =>
      obtain ⟨j, job, hk⟩ := withJob_killpg h
      cases hk
      exact Or.inr rfl
    | fg =>
      obtain ⟨j, job, hk⟩ := withJob_killpg h
      cases hk
    | bg =>
      dsimp only at h
      unfold builtinBg at h
      split at h
      · cases h
      · dsimp only at h
        split at h <;> cases h
    | jobs | history | exit => cases h

theorem Sending.keep (h : s.Sending) (hp : t.procs = s.procs)
    (hpc : ∀ {jid sig}, t.pc = .killpg jid sig → s.pc = .killpg jid sig) : t.Sending :=
  ⟨fun p hmem => h.procs p (hp ▸ hmem), fun ht => h.sig (hpc ht)⟩

theorem pended_killpg {procs : List Proc} (h : ∀ p ∈ procs, p.Pended) (pgrp : Pid) {sig : Signal}
    (hs : ∀ p : Proc, p.Pended → (p.signal sig).Pended) :
    ∀ p ∈ Cush.killpg procs pgrp sig, p.Pended := by
  intro p hp
  obtain ⟨q, hq, rfl⟩ := List.mem_map.1 hp
  split
  · exact hs q (h q hq)
  · exact h q hq

theorem pended_waitpid {procs procs' : List Proc} {pid : Pid} {status : WaitStatus}
    (h : ∀ p ∈ procs, p.Pended) (hw : waitpid procs pid = some (status, procs')) :
    ∀ p ∈ procs', p.Pended := by
  intro p hp
  obtain ⟨-, -, -, ⟨sig, -, -, rfl⟩ | ⟨st, -, -, rfl⟩⟩ := waitpid_cases hw
  · obtain ⟨q, hq, rfl⟩ := List.mem_map.1 hp
    split
    · exact fun x hx => h q hq x hx
    · exact h q hq
  · exact h p (List.mem_of_mem_filter hp)

theorem Sending.move (h : s.Sending) (hs : step s e = some t) : t.Sending := by
  have hstep := hs
  cases (step_move hs).2 with
  | sigchld | setAttr | others | handlerStart | handlerReturn | lineEmpty =>
    exact h.keep rfl fun hp => hp
  | child hc =>
    refine ⟨fun p hp => ?_, h.sig⟩
    obtain ⟨q, q', hq, -, hch, rfl⟩ := changeProc_cases hc
    obtain ⟨r, hr, rfl⟩ := List.mem_map.1 hp
    split
    · exact (h.procs q hq).change hch
    · exact h.procs r hr
  | handled out hwait hm hw => exact ⟨pended_waitpid h.procs hw, h.sig⟩
  | lost hwait hw | unblocked hwait hw =>
    exact ⟨pended_waitpid h.procs hw, fun hpc => nomatch hpc⟩
  | dispatch out hh hp hl ht =>
    refine ⟨h.procs, fun hpc => ?_⟩
    rw [step_dispatch hp hstep] at hpc
    exact dispatch_killpg hpc
  | killpg hh hp hg hpend =>
    refine ⟨pended_killpg h.procs _ fun p hp' => hp'.signal (h.sig hp), fun hpc => nomatch hpc⟩
  | fgCont hh hp hg hpend | bgCont hh hp hg hpend =>
    exact ⟨pended_killpg h.procs _ fun p hp' => hp'.sigcont, fun hpc => nomatch hpc⟩
  | spawned hh hp ht hg hf he =>
    refine ⟨fun p hp' => ?_, fun hpc => nomatch hpc⟩
    rcases List.mem_append.1 hp' with hold | hnew
    · exact h.procs p hold
    · rw [List.mem_singleton.1 hnew]
      exact fun x hx => nomatch hx
  | @deadEnd i exiting hh hp => cases exiting <;> exact h.keep rfl fun hp => nomatch hp
  | _ => exact h.keep rfl fun hp => nomatch hp

theorem Run.sending (hr : Run ok s) : s.Sending := by
  refine Lts.Reach.invariant (I := State.Sending) ?_ (fun _ _ _ _ hI _ hs => hI.move hs) hr
  rintro s ⟨shellPgrp, attr, openMax, -, rfl⟩
  exact ⟨fun _ hp => (nomatch hp), fun hpc => nomatch hpc⟩

/-- The processes of a job are in its group. -/
theorem pgid_of_owner (hr : Run ok s) {jid : Nat} {job : Job} (hg : s.jid2job.get jid = some job)
    {p : Proc} (hp : p ∈ s.procs) (ho : p.owner = job.serial) : p.pgid = job.pgid :=
  (hr.sound.recorded _ (children_mem hp) (account_of_get hg) ho.symm).2

/-- Where `kill` signals its group. -/
theorem kill_step {jid : Nat} {job : Job} (hp : s.pc = .killpg jid .sigterm)
    (hg : s.jid2job.get jid = some job) (hs : step s .main = some t) :
    t.procs = Cush.killpg s.procs job.pgid .sigterm := by
  rw [step_killpg hp hg hs]
  rfl

/-- **What `kill` terminates**, in every run: once the signals that are pending for the processes of
the job have been delivered, in whatever order, all of them have terminated if and only if none was
stopped or had a stop signal pending when the shell sent `SIGTERM`. -/
theorem kill_run (hr : Run ok s) {jid : Nat} {job : Job} (hp : s.pc = .killpg jid .sigterm)
    (hg : s.jid2job.get jid = some job) (hs : step s .main = some t) :
    (∀ p ∈ t.procs, ∃ p', p.Delivered p') ∧
    ((∀ p ∈ t.procs, p.owner = job.serial → ∀ p', p.Delivered p' → p'.terminated = true) ↔
      ∀ p ∈ s.procs, p.owner = job.serial → p.killable = true) := by
  have hpended := hr.sending.procs
  have hprocs := kill_step hp hg hs
  have hrt : Run (fun _ _ => true) t := .step (hr.mono fun _ _ _ => rfl) rfl hs
  refine ⟨fun p hmem => (hrt.sending.procs p hmem).delivered, fun h p hmem ho => ?_,
    fun h p hmem ho => ?_⟩
  · apply (hpended p hmem).terminates_iff.1
    apply h
    · rw [hprocs]
      refine List.mem_map.2 ⟨p, hmem, if_pos (pgid_of_owner hr hg hmem ho)⟩
    · rw [(p.signal_same .sigterm).owner]
      exact ho
  · rw [hprocs] at hmem
    obtain ⟨q, hq, rfl⟩ := List.mem_map.1 hmem
    have hoq : q.owner = job.serial := by
      split at ho
      · rwa [(q.signal_same .sigterm).owner] at ho
      · exact ho
    rw [if_pos (pgid_of_owner hr hg hq hoq)]
    exact (hpended q hq).terminates_iff.2 (h q hq hoq)

/-- `kill 1`, up to the call of `killpg`. -/
def killFirst : List Event :=
  [.line ['k', 'i', 'l', 'l', ' ', '1'], .main]

/-- A job that runs in the background is terminated. -/
theorem kill_run_running : ∃ s t job, Lts.exec step (fun _ _ => true) (State.init 50 7 .usual)
      (startBackground ++ killFirst) = some s ∧ step s .main = some t ∧
    s.jid2job.get 1 = some job ∧ t.procs.map Proc.pending = [[.sigterm]] ∧
    ∀ p ∈ t.procs, p.owner = job.serial → ∀ p', p.Delivered p' → p'.terminated = true := by
  have hrun : ((Lts.exec step (fun _ _ => true) (State.init 50 7 .usual)
      (startBackground ++ killFirst)).bind fun s => (step s .main).map fun t =>
        ((s.pc, (s.jid2job.get 1).map Job.serial), s.procs.all Proc.killable,
          t.procs.map Proc.pending)) =
      some ((.killpg 1 .sigterm, some 0), true, [[.sigterm]]) := by
    decide
  obtain ⟨s, hs, hstep⟩ := Option.bind_eq_some_iff.1 hrun
  obtain ⟨t, ht, he⟩ := Option.map_eq_some_iff.1 hstep
  simp only [Prod.mk.injEq] at he
  obtain ⟨⟨hpc, hjob⟩, hkill, hpend⟩ := he
  obtain ⟨job, hg, -⟩ := Option.map_eq_some_iff.1 hjob
  have hall := (kill_run (Run.exec (by decide) hs) hpc hg ht).2
  exact ⟨s, t, job, hs, ht, hg, hpend, hall.2 fun p hp _ => List.all_eq_true.1 hkill p hp⟩

/-- A stopped job is not: `SIGTERM` stays pending. -/
theorem kill_stopped : ∃ s t job p, Run (fun _ _ => true) s ∧ s.pc = .killpg 1 .sigterm ∧
    s.jid2job.get 1 = some job ∧ step s .main = some t ∧ p ∈ t.procs ∧ p.owner = job.serial ∧
    p.Delivered p ∧ p.terminated = false := by
  have hrun : ((Lts.exec step (fun _ _ => true) (State.init 50 7 .usual)
      (startBackground ++ .child 100 (.stop .sigtstp) :: killFirst)).bind fun s =>
        (step s .main).map fun t =>
          ((s.pc, (s.jid2job.get 1).map Job.serial), t.procs)) =
      some ((.killpg 1 .sigterm, some 0),
        [⟨100, 100, 0, .stopped .sigtstp false, [.sigterm]⟩]) := by
    decide
  obtain ⟨s, hs, hstep⟩ := Option.bind_eq_some_iff.1 hrun
  obtain ⟨t, ht, he⟩ := Option.map_eq_some_iff.1 hstep
  simp only [Prod.mk.injEq] at he
  obtain ⟨⟨hpc, hjob⟩, hprocs⟩ := he
  obtain ⟨job, hg, hser⟩ := Option.map_eq_some_iff.1 hjob
  have hstays := Proc.Pended.stays (p := ⟨100, 100, 0, .stopped .sigtstp false, [.sigterm]⟩)
    (fun x hx => Or.inl (List.mem_singleton.1 hx)) rfl
  exact ⟨s, t, job, _, Run.exec (by decide) hs, hpc, hg, ht,
    hprocs ▸ List.mem_singleton_self _, hser.symm, ⟨.refl, hstays⟩, rfl⟩

end State

end Cush
