import Cush.Shell.Verify.Killing
import Cush.Shell.Verify.Notices
import Cush.Shell.Verify.Terminal

/-!
# Access to the terminal

A process that uses the terminal is stopped by `SIGTTIN` or `SIGTTOU` if its group is not the
foreground group of the terminal. A pipeline in the foreground has the terminal as soon as it has a
process. A job that `fg` puts in the foreground is continued first and given the terminal some steps
later: what is left of it runs while the terminal is still that of the shell.
-/

namespace Cush

/-- The signals that stop a process for using the terminal. -/
def Signal.ofTty : Signal → Bool
  | .sigttin | .sigttou => true
  | _ => false

theorem Signal.isStop_of_ofTty {sig : Signal} (h : sig.ofTty = true) : sig.isStop = true := by
  cases sig <;> first | rfl | cases h

def Proc.stopped (p : Proc) : Bool :=
  p.state matches .stopped ..

/-- `fg` has made a job a foreground job and is still going to give it the terminal. -/
def Pc.foregrounds : Pc → Option Nat
  | .fgCont jid | .give .block (.job jid _) | .give .setPgrp (.job jid _) => some jid
  | _ => none

namespace Proc

variable {p : Proc}

/-- After `SIGCONT` a process runs, unless it has terminated. -/
theorem signal_resumed (h : p.terminated = false) : (p.signal .sigcont).state = .running := by
  unfold terminated at h
  unfold signal
  cases hs : p.state with
  | zombie status =>
    rw [hs] at h
    cases h
  | stopped sig reported | running => rfl

end Proc

namespace State

variable {s t u : State} {e : Event} {ok : State → Event → Bool} {pgrp : Pid}

/-- A process of the group is stopped for using the terminal. -/
def stopsForTty (s : State) (pgrp : Pid) : Event → Bool
  | .child pid (.stop sig) => sig.ofTty && s.procs.any fun p => p.pid = pid ∧ p.pgid = pgrp
  | _ => false

/-- The rule of the kernel for `SIGTTIN` and `SIGTTOU`: a process of the foreground group may use
the terminal. -/
def ttyRule (s : State) (e : Event) : Bool :=
  !s.stopsForTty s.ttyPgrp e

/-- The processes that `SIGCONT` for a group resumes. -/
def resumes (s : State) (pgrp : Pid) : List Pid :=
  (s.procs.filter fun p => p.pgid = pgrp ∧ p.stopped).map Proc.pid

theorem mem_resumes {pid : Pid} :
    pid ∈ s.resumes pgrp ↔ ∃ p ∈ s.procs, p.pid = pid ∧ p.pgid = pgrp ∧ p.stopped = true := by
  simp only [resumes, List.mem_map, List.mem_filter, decide_eq_true_eq]
  constructor
  · rintro ⟨p, ⟨hp, hg, hs⟩, rfl⟩
    exact ⟨p, hp, rfl, hg, hs⟩
  · rintro ⟨p, hp, rfl, hg, hs⟩
    exact ⟨p, ⟨hp, hg, hs⟩, rfl⟩

/-- The steps in which `fg` puts a job in the foreground. -/
def WhileFg (jid : Nat) (l : List (State × Event)) : Prop :=
  ∀ x ∈ l, x.1.pc.foregrounds = some jid

/-- However the run goes on from `s`: until the group has the terminal, none of its processes is
stopped for using the terminal, and none that `fg` resumes runs. -/
structure GetsTerminal (s : State) (jid : Nat) (pgrp : Pid) : Prop where
  not_stopped : ∀ l u, Path ttyRule s l u → WhileFg jid l →
    ∀ x ∈ l, x.1.stopsForTty pgrp x.2 = false
  waits : ∀ l u, Path ttyRule s l u → WhileFg jid l → ∀ x ∈ l, x.1.pc = .fgCont jid →
    x.2 = .main → ∀ p ∈ u.procs, p.pid ∈ x.1.resumes pgrp → p.state = .running → u.ttyPgrp = p.pgid

theorem stopsForTty_iff : s.stopsForTty pgrp e = true ↔
    ∃ p ∈ s.procs, p.pgid = pgrp ∧ ∃ sig, sig.ofTty = true ∧ e = .child p.pid (.stop sig) := by
  unfold stopsForTty
  split
  · rename_i pid sig
    simp only [Bool.and_eq_true, List.any_eq_true, decide_eq_true_eq]
    constructor
    · rintro ⟨hsig, p, hp, rfl, hg⟩
      exact ⟨p, hp, hg, sig, hsig, rfl⟩
    · rintro ⟨p, hp, hg, sig, hsig, he⟩
      cases he
      exact ⟨hsig, p, hp, rfl, hg⟩
  · rename_i hne
    refine ⟨fun h => (nomatch h), ?_⟩
    rintro ⟨p, -, -, sig, -, rfl⟩
    exact absurd rfl (hne p.pid sig)

/-! ## The foreground group -/

/-- What is in the foreground group is not stopped for using the terminal. -/
theorem ttyRule_front {p : Proc} (hmem : p ∈ s.procs) (hp : s.ttyPgrp = p.pgid)
    (he : s.ttyRule e = true) {sig : Signal} (hsig : sig.ofTty = true) :
    e ≠ .child p.pid (.stop sig) := by
  rintro rfl
  have hstop : s.stopsForTty s.ttyPgrp (.child p.pid (.stop sig)) = true :=
    stopsForTty_iff.2 ⟨p, hmem, hp.symm, sig, hsig, rfl⟩
  rw [ttyRule, hstop] at he
  cases he

/-! ## A job that has terminated -/

/-- All processes of the group have terminated. -/
def Terminated (s : State) (pgrp : Pid) : Prop :=
  ∀ p ∈ s.procs, p.pgid = pgrp → p.terminated = true

theorem Terminated.resumes (h : s.Terminated pgrp) : s.resumes pgrp = [] := by
  apply List.eq_nil_iff_forall_not_mem.2
  intro pid hpid
  obtain ⟨p, hmem, -, hg, hs⟩ := mem_resumes.1 hpid
  have hterm := h p hmem hg
  unfold Proc.stopped at hs
  unfold Proc.terminated at hterm
  cases hst : p.state with
  | stopped sig reported =>
    rw [hst] at hterm
    cases hterm
  | running | zombie =>
    rw [hst] at hs
    cases hs

/-- Nothing happens to it any more, but that it is reaped. -/
theorem Terminated.step (h : s.Terminated pgrp) (hr : Run ok s)
    (hp : s.pc.foregrounds.isSome = true) (hs : step s e = some t) : t.Terminated pgrp := by
  have hn := Sound.pids hr.sound
  intro q hq hg
  cases ProcChange.step hr.spawning hs with
  | same he ht => exact h q (ht ▸ hq) hg
  | signaled pgrp' sig he ht =>
    rw [ht] at hq
    obtain ⟨p, hmem, rfl⟩ := List.mem_map.1 hq
    split at hg
    · rw [if_pos ‹_›]
      have hterm := h p hmem ((p.signal_same sig).pgid ▸ hg)
      rwa [Proc.signal_terminated hterm]
    · rw [if_neg ‹_›]
      exact h p hmem hg
  | changed he hc =>
    obtain ⟨p, p', hmem, hpid, hch, ht⟩ := changeProc_cases hc
    rw [ht] at hq
    obtain ⟨p₀, hmem₀, rfl⟩ := List.mem_map.1 hq
    split at hg
    · have hterm := h p hmem ((Proc.change_same hch).pgid ▸ hg)
      rw [Proc.change_terminated hterm] at hch
      cases hch
    · rw [if_neg ‹_›]
      exact h p₀ hmem₀ hg
  | waited he hw =>
    obtain ⟨p, hmem, hpid, ⟨sig, -, hstate, ht⟩ | ⟨st, -, -, ht⟩⟩ := waitpid_cases hw
    · rw [ht] at hq
      obtain ⟨p₀, hmem₀, rfl⟩ := List.mem_map.1 hq
      split at hg
      · obtain rfl := eq_of_pid hn hmem₀ hmem (‹p₀.pid = _›.trans hpid.symm)
        have hterm := h p₀ hmem₀ hg
        unfold Proc.terminated at hterm
        rw [hstate] at hterm
        cases hterm
      · rw [if_neg ‹_›]
        exact h p₀ hmem₀ hg
    · rw [ht] at hq
      exact h q (List.mem_filter.1 hq).1 hg
  | spawned he hf hrun ht =>
    obtain ⟨ctx, fa, cmd, rest, job, hpc, -⟩ := spawned_step hr.spawning (he ▸ hs)
    rw [hpc] at hp
    cases hp

theorem Terminated.not_stopped (h : s.Terminated pgrp) (hr : Run ok s)
    (hs : Cush.step s e = some t) : s.stopsForTty pgrp e = false := by
  rw [Bool.eq_false_iff]
  intro hstop
  obtain ⟨p, hmem, hg, sig, -, rfl⟩ := stopsForTty_iff.1 hstop
  cases ProcChange.step hr.spawning hs with
  | same he | signaled _ _ he | spawned he => cases he
  | waited he => rcases he with he | he <;> cases he
  | changed he hc =>
    cases he
    obtain ⟨p₀, p', hmem₀, hpid, hch, -⟩ := changeProc_cases hc
    obtain rfl := eq_of_pid (Sound.pids hr.sound) hmem₀ hmem hpid
    rw [Proc.change_terminated (h p₀ hmem hg)] at hch
    cases hch

theorem Terminated.path (h : s.Terminated pgrp) (hr : Run ok s) {jid : Nat}
    {l : List (State × Event)} (hpath : Path ttyRule s l u) (hl : WhileFg jid l) :
    u.Terminated pgrp ∧ ∀ x ∈ l, x.1.Terminated pgrp ∧ x.1.stopsForTty pgrp x.2 = false := by
  induction hpath with
  | nil => exact ⟨h, fun _ hx => nomatch hx⟩
  | @snoc l v w e hpath hok hs ih =>
    obtain ⟨hv, hall⟩ := ih fun x hx => hl x (List.mem_append_left _ hx)
    have hrv : Run (fun _ _ => true) v :=
      Lts.Path.reach (hpath.mono fun _ _ _ => rfl) (hr.mono fun _ _ _ => rfl)
    have hpc := hl (v, e) (List.mem_append_right _ (List.mem_singleton_self _))
    refine ⟨hv.step hrv (by rw [hpc]; rfl) hs, fun x hx => ?_⟩
    rcases List.mem_append.1 hx with hx | hx
    · exact hall x hx
    · obtain rfl := List.mem_singleton.1 hx
      exact ⟨hv, hv.not_stopped hrv hs⟩

/-- A job that has terminated is put in the foreground without being stopped or resumed. -/
theorem Terminated.getsTerminal (h : s.Terminated pgrp) (hr : Run ok s) (jid : Nat) :
    s.GetsTerminal jid pgrp := by
  refine ⟨fun l u hpath hl x hx => ((h.path hr hpath hl).2 x hx).2, ?_⟩
  intro l u hpath hl x hx _ _ p _ hpid
  rw [((h.path hr hpath hl).2 x hx).1.resumes] at hpid
  cases hpid

/-! ## A job that is left -/

/-- The step of `fg` that sends `SIGCONT`. -/
theorem fgCont_step {jid : Nat} {job : Job} (hp : s.pc = .fgCont jid)
    (hg : s.jid2job.get jid = some job) (hs : step s .main = some t) :
    t.procs = Cush.killpg s.procs job.pgid .sigcont ∧ t.ttyPgrp = s.ttyPgrp ∧
      t.pc = .give .block (.job jid job.pgid) := by
  rw [step_fgCont hp hg hs]
  exact ⟨rfl, rfl, rfl⟩

/-- A process that has not terminated runs then, while the shell has the terminal. -/
theorem left_runs (hr : Run ok s) {jid : Nat} {job : Job} (hp : s.pc = .fgCont jid)
    (hg : s.jid2job.get jid = some job) (hs : step s .main = some t) {p : Proc}
    (hmem : p ∈ s.procs) (hpgid : p.pgid = job.pgid) (hleft : p.terminated = false) :
    ∃ q ∈ t.procs, q.pid = p.pid ∧ q.pgid = job.pgid ∧ q.state = .running ∧
      t.ttyPgrp = s.shellPgrp ∧ q.pgid ≠ s.shellPgrp := by
  obtain ⟨hprocs, htty, -⟩ := fgCont_step hp hg hs
  have hsame := p.signal_same .sigcont
  refine ⟨p.signal .sigcont, ?_, hsame.pid, hsame.pgid.trans hpgid, Proc.signal_resumed hleft,
    ?_, ?_⟩
  · rw [hprocs]
    exact List.mem_map.2 ⟨p, hmem, if_pos hpgid⟩
  · rw [htty]
    exact hr.hasTerminal.owner (by rw [hp]; rfl)
  · rw [hsame.pgid]
    exact hr.grouped.shell _ (children_mem hmem)

/-- A child that runs can be stopped. -/
theorem stop_step (hn : (s.procs.map Proc.pid).Nodup) (hl : s.pc.live = true) {q : Proc}
    (hq : q ∈ s.procs) (hrun : q.state = .running) {sig : Signal} (hsig : sig.isStop = true) :
    ∃ u, step s (.child q.pid (.stop sig)) = some u ∧ u.pc = s.pc ∧ u.ttyPgrp = s.ttyPgrp ∧
      ∃ p ∈ u.procs, p.pid = q.pid ∧ p.state = .stopped sig false := by
  have hfind : (s.procs.find? fun p => p.pid = q.pid) = some q := by
    cases hf : s.procs.find? fun p => p.pid = q.pid with
    | none => exact absurd (List.find?_eq_none.1 hf q hq) (by simp)
    | some p =>
      obtain ⟨hp, hpid⟩ := find_pid hf
      rw [eq_of_pid hn hp hq hpid]
  obtain ⟨q', hchange, hpid, hstate⟩ : ∃ q', q.change (.stop sig) = some q' ∧ q'.pid = q.pid ∧
      q'.state = .stopped sig false := by
    refine ⟨{ q with state := .stopped sig false, pending := q.pending.filter (· ≠ sig) }, ?_,
      rfl, rfl⟩
    unfold Proc.change
    rw [hrun]
    exact if_pos hsig
  have hprocs : changeProc s.procs q.pid (.stop sig) =
      some (s.procs.map fun p => if p.pid = q.pid then q' else p) := by
    unfold changeProc
    rw [hfind]
    dsimp only
    rw [hchange]
    rfl
  have hstep : step s (.child q.pid (.stop sig)) = s.childChange q.pid (.stop sig) := by
    unfold step
    rw [if_pos hl]
    rfl
  unfold childChange at hstep
  rw [hprocs] at hstep
  exact ⟨_, hstep, rfl, rfl, q', List.mem_map.2 ⟨q, hq, if_pos rfl⟩, hpid, hstate⟩

/-- What is left of the job can be stopped for using the terminal, before the group has it. -/
theorem left_stopped (hr : Run ok s) {jid : Nat} {job : Job} (hp : s.pc = .fgCont jid)
    (hg : s.jid2job.get jid = some job) (hs : step s .main = some t) {p : Proc}
    (hmem : p ∈ s.procs) (hpgid : p.pgid = job.pgid) (hleft : p.terminated = false) {sig : Signal}
    (hsig : sig.ofTty = true) :
    t.ttyRule (.child p.pid (.stop sig)) = true ∧
      t.stopsForTty job.pgid (.child p.pid (.stop sig)) = true ∧
      ∃ u, step t (.child p.pid (.stop sig)) = some u ∧ u.pc.foregrounds = some jid ∧
        u.ttyPgrp = s.shellPgrp ∧ ∃ q ∈ u.procs, q.pid = p.pid ∧ q.state = .stopped sig false := by
  obtain ⟨q, hq, hqp, hqg, hrun, hown, hne⟩ := left_runs hr hp hg hs hmem hpgid hleft
  obtain ⟨-, -, hpc⟩ := fgCont_step hp hg hs
  have hrt : Run (fun _ _ => true) t := .step (hr.mono fun _ _ _ => rfl) rfl hs
  have hn := Sound.pids hrt.sound
  rw [← hqp]
  refine ⟨?_, stopsForTty_iff.2 ⟨q, hq, hqg, sig, hsig, rfl⟩, ?_⟩
  · rw [ttyRule, Bool.not_eq_true', Bool.eq_false_iff]
    intro hstop
    obtain ⟨p', hmem', hg', sig', -, he⟩ := stopsForTty_iff.1 hstop
    have hpid : q.pid = p'.pid := by
      injection he
    obtain rfl := eq_of_pid hn hq hmem' hpid
    exact hne (hg'.trans hown)
  · obtain ⟨u, hu, hupc, hutty, hmore⟩ :=
      stop_step hn (by rw [hpc]; rfl) hq hrun (Signal.isStop_of_ofTty hsig)
    refine ⟨u, hu, ?_, hutty.trans hown, hmore⟩
    rw [hupc, hpc]
    rfl

/-- A job can be put in the foreground as it should be only if it has terminated. -/
theorem GetsTerminal.terminated {jid : Nat} {job : Job} (h : s.GetsTerminal jid job.pgid)
    (hr : Run ok s) (hp : s.pc = .fgCont jid) (hg : s.jid2job.get jid = some job)
    (hs : step s .main = some t) : s.Terminated job.pgid := by
  intro p hmem hpgid
  by_contra hleft
  have hsig : Signal.sigttin.ofTty = true := rfl
  obtain ⟨hrule, hstops, u, hu, -⟩ :=
    left_stopped hr hp hg hs hmem hpgid (Bool.eq_false_iff.2 hleft) hsig
  obtain ⟨-, -, hpc⟩ := fgCont_step hp hg hs
  have hpath : Path ttyRule s ([] ++ [(s, .main)] ++ [(t, .child p.pid (.stop .sigttin))]) u :=
    .snoc (.snoc .nil rfl hs) hrule hu
  have hno := h.not_stopped _ u hpath ?_ _ (List.mem_append_right _ (List.mem_singleton_self _))
  · rw [hstops] at hno
    cases hno
  · intro x hx
    simp only [List.nil_append, List.cons_append, List.mem_cons, List.not_mem_nil, or_false] at hx
    rcases hx with rfl | rfl
    · rw [hp]
      rfl
    · rw [hpc]
      rfl

/-- **Who has the terminal** when a job is put in the foreground, in every run. A pipeline that is
started there has it whenever it has a process, so that none is stopped for using it. `fg` puts a
job there as it should be if and only if every process of the job has terminated when `SIGCONT` is
sent; any other one can be stopped by `SIGTTIN` or `SIGTTOU` before its group gets the terminal. -/
theorem terminalAccess_run (hr : Run ok s) :
    (∀ node jid job, s.pc.starting = some (node, jid) → node.pipe.bgJob = false →
      s.jid2job.get jid = some job → ∀ p ∈ s.procs, p.owner = job.serial → s.ttyPgrp = p.pgid ∧
        ∀ e, s.ttyRule e = true → ∀ sig, sig.ofTty = true → e ≠ .child p.pid (.stop sig)) ∧
    ∀ jid job t, s.pc = .fgCont jid → s.jid2job.get jid = some job → step s .main = some t →
      (s.GetsTerminal jid job.pgid ↔
        ∀ p ∈ s.procs, p.pgid = job.pgid → p.terminated = true) ∧
      ∀ p ∈ s.procs, p.pgid = job.pgid → p.terminated = false → ∀ sig, sig.ofTty = true →
        t.ttyRule (.child p.pid (.stop sig)) = true ∧
        ∃ u, step t (.child p.pid (.stop sig)) = some u ∧ u.pc.foregrounds = some jid ∧
          u.ttyPgrp = s.shellPgrp ∧
          ∃ q ∈ u.procs, q.pid = p.pid ∧ q.state = .stopped sig false := by
  refine ⟨fun node jid job hp hb hg p hmem ho => ?_, fun jid job t hp hg hs => ?_⟩
  · have hfront := hr.started_ttyPgrp hp hb hg hmem ho
    exact ⟨hfront, fun e he sig hsig => ttyRule_front hmem hfront he hsig⟩
  · refine ⟨⟨fun h => h.terminated hr hp hg hs, fun h => Terminated.getsTerminal h hr jid⟩, ?_⟩
    intro p hmem hpgid hleft sig hsig
    obtain ⟨hrule, -, hstop⟩ := left_stopped hr hp hg hs hmem hpgid hleft hsig
    exact ⟨hrule, hstop⟩

/-- `fg 1`, up to where `SIGCONT` is sent. -/
def continueFirst : List Event :=
  [.line ['f', 'g', ' ', '1'], .main, .main]

/-- A job that has exited in the background is put in the foreground. -/
theorem terminalAccess_run_exited : ∃ s t, Lts.exec step (fun _ _ => true) (State.init 50 7 .usual)
      (startBackground ++ .child 100 (.exit 0) :: continueFirst) = some s ∧
    step s .main = some t ∧ s.pc = .fgCont 1 ∧ s.GetsTerminal 1 100 := by
  have hrun : ((Lts.exec step (fun _ _ => true) (State.init 50 7 .usual)
      (startBackground ++ .child 100 (.exit 0) :: continueFirst)).bind fun s =>
        (step s .main).map fun _ => ((s.pc, (s.jid2job.get 1).map Job.pgid),
          s.procs.map Proc.terminated)) =
      some ((.fgCont 1, some 100), [true]) := by
    decide
  obtain ⟨s, hs, hstep⟩ := Option.bind_eq_some_iff.1 hrun
  obtain ⟨t, ht, he⟩ := Option.map_eq_some_iff.1 hstep
  simp only [Prod.mk.injEq] at he
  obtain ⟨⟨hpc, hjob⟩, hall⟩ := he
  obtain ⟨job, hg, hpgid⟩ := Option.map_eq_some_iff.1 hjob
  have hiff := ((terminalAccess_run (Run.exec (by decide) hs)).2 1 job t hpc hg ht).1
  rw [hpgid] at hiff
  refine ⟨s, t, hs, ht, hpc, hiff.2 fun p hmem _ => ?_⟩
  have hterm := List.mem_map_of_mem (f := Proc.terminated) hmem
  rw [hall] at hterm
  exact List.mem_singleton.1 hterm

/-- A stopped job is continued by `fg`, needs the terminal at once and is stopped again. -/
def stopAtOnce : List Event :=
  [.main, .child 100 (.stop .sigttin)] ++ List.replicate 4 .main ++ [.waitpid 100]

theorem terminalAccess_stopped : ∃ s u, Run (fun _ _ => true) s ∧ s.pc = .fgCont 1 ∧
    ¬ s.GetsTerminal 1 100 ∧ Lts.exec step ttyRule s stopAtOnce = some u ∧
    u.pc = .waitForJob 1 ∧ (u.jid2job.get 1).map Job.status = some .needsTerminal := by
  have hrun : ((Lts.exec step (fun _ _ => true) (State.init 50 7 .usual)
      (startBackground ++ .child 100 (.stop .sigtstp) :: continueFirst)).bind fun s =>
        (step s .main).bind fun t => (Lts.exec step ttyRule s stopAtOnce).map fun u =>
          ((s.pc, s.resumes 100), (t.ttyPgrp, t.procs),
            (u.pc, (u.jid2job.get 1).map Job.status))) =
      some ((.fgCont 1, [100]), (50, [⟨100, 100, 0, .running, []⟩]),
        (.waitForJob 1, some .needsTerminal)) := by
    decide
  obtain ⟨s, hs, hstep⟩ := Option.bind_eq_some_iff.1 hrun
  obtain ⟨t, ht, hmore⟩ := Option.bind_eq_some_iff.1 hstep
  obtain ⟨u, hu, he⟩ := Option.map_eq_some_iff.1 hmore
  simp only [Prod.mk.injEq] at he
  obtain ⟨⟨hpc, hres⟩, ⟨htty, hprocs⟩, hupc, hst⟩ := he
  refine ⟨s, u, Run.exec (by decide) hs, hpc, fun h => ?_, hu, hupc, hst⟩
  have hpath : Path ttyRule s ([] ++ [(s, .main)]) t := .snoc .nil rfl ht
  have hfront := h.waits _ t hpath
    (fun x hx => by rw [List.mem_singleton.1 hx, hpc]; rfl) _ (List.mem_singleton_self _) hpc rfl
    ⟨100, 100, 0, .running, []⟩ (hprocs ▸ List.mem_singleton_self _)
    (hres ▸ List.mem_singleton_self _) rfl
  rw [htty] at hfront
  cases hfront

end State

end Cush
