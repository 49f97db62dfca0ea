import Cush.Shell.Verify.Credits
import Cush.Shell.Verify.Table
import Cush.Shell.Verify.Terminal

/-!
# The terminal settings of a job

When a job in the foreground stops, its terminal settings are saved with it, and the shell's own are
restored. The job keeps what was saved last, but `fg` calls `termstate_give_terminal_to` with a null
pointer in its place: the job gets the terminal with the settings of the shell.
-/

namespace Cush

/-- The settings that are captured for the job `n` where a status of a job is taken up. -/
def Job.captures (job : Job) (n : Nat) (attr : Termios) : WaitStatus → Option Termios
  | .stopped _ => if job.serial = n ∧ job.status = .foreground then some attr else none
  | .terminated _ => none

theorem Job.captures_ne {job : Job} {n : Nat} (h : job.serial ≠ n) (attr : Termios)
    (status : WaitStatus) : job.captures n attr status = none := by
  cases status with
  | stopped sig => exact if_neg fun hc => h hc.1
  | terminated st => rfl

/-- They are saved with the job. -/
theorem Job.handled_saved (job : Job) (attr : Termios) (status : WaitStatus) :
    (job.handled attr status).savedTtyState =
      (job.captures job.serial attr status).or job.savedTtyState := by
  rcases status with (code | sig) | sig
  · rfl
  · rfl
  · simp only [Job.handled, Job.captures, true_and]
    split <;> rfl

/-- The settings in force where the last process of a job in the foreground has exited. -/
def Job.exitSettings (job : Job) (attr : Termios) : WaitStatus → Option Termios
  | .terminated (.exited _) =>
    if job.status = .foreground ∧ job.numProcessesAlive = 1 then some attr else none
  | _ => none

theorem Job.exitSettings_none {job : Job} {attr : Termios} {status : WaitStatus}
    (h : ∀ code, status ≠ .terminated (.exited code)) : job.exitSettings attr status = none := by
  rcases status with (code | sig) | sig
  · exact absurd rfl (h code)
  · rfl
  · rfl

namespace State

variable {s t u : State} {e : Event} {ok : State → Event → Bool}

/-! ## What is captured -/

/-- The settings that a step captures for the job `n`. -/
def captures (n : Nat) (s : State) : Event → Option Termios
  | .reap pid | .waitpid pid =>
    (waitpid s.procs pid).bind fun (status, _) =>
      (getJobFromPid s.jid2job pid).bind fun jid =>
        (s.jid2job.get jid).bind fun job => job.captures n s.ttyAttr status
  | _ => none

/-- The settings that were captured at the most recent stop of a job in the foreground. -/
def captured (n : Nat) (l : List (State × Event)) : Option Termios :=
  Lts.last (captures n) l

theorem captures_handled {pid jid : Nat} {status : WaitStatus} {procs : List Proc} {job : Job}
    (n : Nat) (hwait : s.Waiting e pid) (hw : waitpid s.procs pid = some (status, procs))
    (hj : getJobFromPid s.jid2job pid = some jid) (hg : s.jid2job.get jid = some job) :
    s.captures n e = job.captures n s.ttyAttr status := by
  rcases hwait.event with rfl | rfl
  · simp only [captures, hw, hj, hg, Option.bind_some]
  · simp only [captures, hw, hj, hg, Option.bind_some]

/-- Settings are captured for a job that is found. -/
theorem captures_some {n : Nat} {attr : Termios} (h : s.captures n e = some attr) :
    ∃ pid jid job, (e = .reap pid ∨ e = .waitpid pid) ∧ getJobFromPid s.jid2job pid = some jid ∧
      s.jid2job.get jid = some job ∧ job.serial = n := by
  have found : ∀ pid, ((waitpid s.procs pid).bind fun (status, _) =>
      (getJobFromPid s.jid2job pid).bind fun jid =>
        (s.jid2job.get jid).bind fun job => job.captures n s.ttyAttr status) = some attr →
      ∃ jid job, getJobFromPid s.jid2job pid = some jid ∧ s.jid2job.get jid = some job ∧
        job.serial = n := by
    intro pid h
    obtain ⟨⟨status, procs⟩, -, h⟩ := Option.bind_eq_some_iff.1 h
    obtain ⟨jid, hj, h⟩ := Option.bind_eq_some_iff.1 h
    obtain ⟨job, hg, h⟩ := Option.bind_eq_some_iff.1 h
    refine ⟨jid, job, hj, hg, ?_⟩
    by_contra hne
    rw [Job.captures_ne hne] at h
    cases h
  cases e with
  | reap pid => exact ⟨pid, (found pid h).imp fun jid => Exists.imp fun job hx => ⟨Or.inl rfl, hx⟩⟩
  | waitpid pid =>
    exact ⟨pid, (found pid h).imp fun jid => Exists.imp fun job hx => ⟨Or.inr rfl, hx⟩⟩
  | _ => cases h

/-- A job has the settings saved that the step captures, or else those it had. -/
theorem saved_back (hr : Run ok s) (hs : step s e = some t) {jid : Nat} {job : Job}
    (hg : t.jid2job.get jid = some job) :
    (∃ old, s.jid2job.get jid = some old ∧ old.serial = job.serial ∧
      job.savedTtyState = (s.captures job.serial e).or old.savedTtyState) ∨
    (job.serial = s.nextSerial ∧ job.savedTtyState = none) := by
  cases JobFrom.move hr.masked (step_move hs).2 hg with
  | same hold hn =>
    left
    have hnone : s.captures job.serial e = none := by
      cases hcap : s.captures job.serial e with
      | none => rfl
      | some attr =>
        -- the status would be one of this job
        obtain ⟨pid, jid', old, he, hj, hget, hser⟩ := captures_some hcap
        have hjid := hr.sound.serial_inj (account_of_get hget) (account_of_get hold) hser
        exact absurd (hjid ▸ hj) (hn pid (waiting_of_step hs he))
    rw [hnone]
    exact ⟨job, hold, rfl, rfl⟩
  | @handled pid status procs old hwait hw hj hold =>
    left
    rw [captures_handled _ hwait hw hj hold, old.handled_serial]
    exact ⟨old, hold, rfl, old.handled_saved _ _⟩
  | fgStatus he hp hold | bgStatus he hp hold | spawned he hp hj hold =>
    subst he
    exact Or.inl ⟨_, hold, rfl, rfl⟩
  | added => exact Or.inr ⟨rfl, rfl⟩

/-- Every job has the settings saved that were captured for it last. -/
theorem Path.saved (hu : u.Initial) {l : List (State × Event)} (hp : Path ok u l s) :
    (∀ n, s.nextSerial ≤ n → captured n l = none) ∧
      ∀ jid job, s.jid2job.get jid = some job → job.savedTtyState = captured job.serial l := by
  induction hp with
  | nil =>
    refine ⟨fun _ _ => rfl, fun jid job hg => ?_⟩
    obtain ⟨shellPgrp, attr, openMax, -, rfl⟩ := hu
    cases hg
  | @snoc l s t e hpath hok hs ih =>
    have hr : Run ok s := Lts.Path.reach hpath (.init hu)
    obtain ⟨hfresh, hjobs⟩ := ih
    have hle := (JobChange.move (step_move hs).2).next_le
    have hnone : ∀ n, s.nextSerial ≤ n → captured n (l ++ [(s, e)]) = none := by
      intro n hn
      unfold captured
      rw [Lts.last_snoc]
      cases hcap : s.captures n e with
      | none => exact hfresh n hn
      | some attr =>
        obtain ⟨pid, jid, job, -, -, hg, rfl⟩ := captures_some hcap
        have hlt := hr.sound.serial_lt (account_of_get hg)
        change job.serial < s.nextSerial at hlt
        omega
    refine ⟨fun n hn => hnone n (by omega), fun jid job hg => ?_⟩
    rcases saved_back hr hs hg with ⟨old, hold, hser, hsaved⟩ | ⟨hser, hsaved⟩
    · rw [hsaved, hjobs jid old hold, hser]
      exact (Lts.last_snoc _ _ _ _).symm
    · rw [hsaved, hser]
      exact (hnone _ (Nat.le_refl _)).symm

/-! ## The settings of the shell -/

theorem savedTtyState_move (hm : Move s e t) : t.savedTtyState = s.savedTtyState := by
  cases hm <;> rfl

theorem Path.savedTtyState {l : List (State × Event)} (hp : Path ok s l t) :
    t.savedTtyState = s.savedTtyState := by
  induction hp with
  | nil => rfl
  | snoc _ _ hs ih => exact (savedTtyState_move (step_move hs).2).trans ih

/-- They are those that the terminal had when the shell was started. -/
theorem Initial.savedTtyState (hu : u.Initial) : u.savedTtyState = u.ttyAttr := by
  obtain ⟨shellPgrp, attr, openMax, -, rfl⟩ := hu
  rfl

/-- Only a process of the foreground group changes the settings from those of the shell. -/
theorem Path.ttyAttr {l : List (State × Event)} (hp : Path ok s l t)
    (ha : s.ttyAttr = s.savedTtyState) (hn : ∀ x ∈ l, ∀ pid attr, x.2 ≠ .setAttr pid attr) :
    t.ttyAttr = t.savedTtyState := by
  induction hp with
  | nil => exact ha
  | @snoc l t v e hpath hok hs ih =>
    have hold := ih fun x hx => hn x (List.mem_append_left _ hx)
    have hlast := hn (t, e) (List.mem_append_right _ (List.mem_singleton_self _))
    cases (step_move hs).2 with
    | setAttr => exact absurd rfl (hlast _ _)
    | handled => exact ite_eq_left_iff.2 fun _ => hold
    | giveRestore => rfl
    | _ => exact hold

/-- A job gets the terminal from `fg` with the settings of the shell. -/
theorem giveJob_ttyAttr {jid : Nat} {pgrp : Pid} (hr : Run ok s)
    (hp : s.pc = .give .setPgrp (.job jid pgrp)) (hs : step s .main = some t)
    (hl : t.pc.live = true) : t.ttyAttr = t.savedTtyState := by
  have hattr := hr.hasTerminal.attr (by rw [hp]; rfl)
  obtain ⟨-, -, ha⟩ := step_main hs
  unfold answerStep mainStep at ha
  rw [hp] at ha
  cases ha
  unfold State.give at hl ⊢
  dsimp only at hl ⊢
  split at hl
  · rename_i hg
    rw [if_pos hg]
    exact hattr
  · cases hl

/-- Where a job in the foreground stops or its last process ends, the shell takes the terminal back
and restores its own settings. -/
theorem restores_of_status {p : Proc} {status : WaitStatus} {procs : List Proc} {jid : Nat}
    {job : Job} (hr : Run attributes s) (hs : step s e = some t)
    (he : e = .reap p.pid ∨ e = .waitpid p.pid)
    (hw : waitpid s.procs p.pid = some (status, procs)) (hp : p ∈ s.procs)
    (hg : s.jid2job.get jid = some job) (ho : p.owner = job.serial)
    (hf : job.status = .foreground)
    (hend : (∃ sig, status = .stopped sig) ∨ s.unreaped job.serial = 1) :
    t.ttyPgrp = t.shellPgrp ∧ t.ttyAttr = t.savedTtyState := by
  have hj := find_of_attributed hr.attributed hr.sound hp hg ho
  obtain ⟨status', procs', out, hw', rfl⟩ := (waiting_of_step hs he).handled hr.masked hs hj hg
  cases hw.symm.trans hw'
  have hback : job.givesBack status = true := by
    have hcount := hr.counted hg
    cases status with
    | stopped sig => exact decide_eq_true hf
    | terminated st =>
      refine decide_eq_true ⟨hf, ?_⟩
      rcases hend with ⟨sig, hsig⟩ | hone
      · cases hsig
      · omega
  exact ⟨if_pos hback, if_pos hback⟩

/-- **The terminal settings of a job that `fg` resumes.** In every run, a job has the settings saved
that were captured at its most recent stop in the foreground. But when `fg` gives it the terminal,
and until a process changes them, the settings are the captured ones if and only if these are the
ones that the shell was started with. Where the job stops or its last process ends, the shell's own
are restored, if statuses are credited to the right jobs; in any case they are once the main program
goes on with the line. -/
theorem settings_run (hu : u.Initial) {l : List (State × Event)} (hp : Path ok u l s) :
    (∀ jid job, s.jid2job.get jid = some job → job.savedTtyState = captured job.serial l) ∧
    (∀ jid pgrp job attr t l' v, s.pc = .give .setPgrp (.job jid pgrp) →
      s.jid2job.get jid = some job → captured job.serial l = some attr →
      step s .main = some t → t.pc.live = true → Path ok t l' v →
      (∀ x ∈ l', ∀ pid attr, x.2 ≠ .setAttr pid attr) →
        (v.ttyAttr = attr ↔ attr = u.ttyAttr)) ∧
    (∀ e t p status procs jid job, Run attributes s → step s e = some t →
      e = .reap p.pid ∨ e = .waitpid p.pid → waitpid s.procs p.pid = some (status, procs) →
      p ∈ s.procs → s.jid2job.get jid = some job → p.owner = job.serial →
      job.status = .foreground → (∃ sig, status = .stopped sig) ∨ s.unreaped job.serial = 1 →
        t.ttyPgrp = t.shellPgrp ∧ t.ttyAttr = u.ttyAttr) ∧
    (s.pc = .listNext ∨ s.pc = .readline → s.ttyAttr = u.ttyAttr) := by
  have hr : Run ok s := Lts.Path.reach hp (.init hu)
  have hown : s.savedTtyState = u.ttyAttr := hp.savedTtyState.trans hu.savedTtyState
  refine ⟨(hp.saved hu).2, ?_, ?_, ?_⟩
  · intro jid pgrp job attr t l' v hpc hg hcap hs hl hpath hn
    have hgiven := giveJob_ttyAttr hr hpc hs hl
    have hv : v.ttyAttr = u.ttyAttr := by
      rw [hpath.ttyAttr hgiven hn, hpath.savedTtyState, savedTtyState_move (step_move hs).2, hown]
    rw [hv]
    exact eq_comm
  · intro e t p status procs jid job hra hs he hw hmem hg ho hf hend
    obtain ⟨hpgrp, hattr⟩ := restores_of_status hra hs he hw hmem hg ho hf hend
    exact ⟨hpgrp, hattr.trans ((savedTtyState_move (step_move hs).2).trans hown)⟩
  · intro hpc
    rw [← hown]
    refine hr.hasTerminal.attr ?_
    rcases hpc with hpc | hpc <;> rw [hpc] <;> rfl

/-- `fg 1`, up to where the job is given the terminal. -/
def fgFirst : List Event :=
  [.line ['f', 'g', ' ', '1'], .main, .main, .main, .main]

/-- A command in the foreground is stopped, without having changed the settings, and resumed. -/
theorem settings_run_same : ∃ s t, Lts.exec step (fun _ _ => true) (State.init 50 7 .usual)
      (startForeground ++ [.child 100 (.stop .sigtstp), .waitpid 100] ++ List.replicate 10 .main ++
        fgFirst) = some s ∧
    step s .main = some t ∧ t.ttyPgrp = 100 ∧
    (s.jid2job.get 1).bind Job.savedTtyState = some t.ttyAttr := by
  have hrun : ((Lts.exec step (fun _ _ => true) (State.init 50 7 .usual)
      (startForeground ++ [.child 100 (.stop .sigtstp), .waitpid 100] ++ List.replicate 10 .main ++
        fgFirst)).bind fun s => (step s .main).map fun t =>
          (s.pc, t.pc.live, t.ttyPgrp, (s.jid2job.get 1).map Job.savedTtyState)) =
      some (.give .setPgrp (.job 1 100), true, 100, some (some 7)) := by
    decide
  obtain ⟨s, hs, hstep⟩ := Option.bind_eq_some_iff.1 hrun
  obtain ⟨t, ht, he⟩ := Option.map_eq_some_iff.1 hstep
  simp only [Prod.mk.injEq] at he
  obtain ⟨hpc, hl, hpgrp, hjob⟩ := he
  obtain ⟨job, hg, hsaved⟩ := Option.map_eq_some_iff.1 hjob
  have hu : (State.init 50 7 .usual).Initial := ⟨50, 7, .usual, by decide, rfl⟩
  obtain ⟨l, hpath⟩ := Path.exec hs
  have hrun := settings_run hu hpath
  have hcap := (hrun.1 1 job hg).symm.trans hsaved
  have hattr := (hrun.2.1 1 100 job 7 t [] t hpc hg hcap ht hl .nil fun x hx => nomatch hx).2 rfl
  refine ⟨s, t, hs, ht, hpgrp, ?_⟩
  rw [hg, Option.bind_some, hsaved, hattr]

/-- The command has changed the settings: it gets the terminal with those of the shell. -/
theorem settings_lost : ∃ u l s t job, u.Initial ∧ Path (fun _ _ => true) u l s ∧
    s.pc = .give .setPgrp (.job 1 100) ∧ s.jid2job.get 1 = some job ∧
    captured job.serial l = some 9 ∧ step s .main = some t ∧ t.pc.live = true ∧
    t.ttyPgrp = 100 ∧ t.ttyAttr = 7 := by
  have hrun : ((Lts.exec step (fun _ _ => true) (State.init 50 7 .usual)
      (stopForeground ++ fgFirst)).bind fun s => (step s .main).map fun t =>
        ((s.pc, t.pc.live), (t.ttyPgrp, t.ttyAttr), (s.jid2job.get 1).map Job.savedTtyState)) =
      some ((.give .setPgrp (.job 1 100), true), (100, 7), some (some 9)) := by
    decide
  obtain ⟨s, hs, hstep⟩ := Option.bind_eq_some_iff.1 hrun
  obtain ⟨t, ht, he⟩ := Option.map_eq_some_iff.1 hstep
  simp only [Prod.mk.injEq] at he
  obtain ⟨⟨hpc, hl⟩, ⟨hpgrp, hattr⟩, hjob⟩ := he
  obtain ⟨job, hg, hsaved⟩ := Option.map_eq_some_iff.1 hjob
  have hu : (State.init 50 7 .usual).Initial := ⟨50, 7, .usual, by decide, rfl⟩
  obtain ⟨l, hpath⟩ := Path.exec hs
  have hcap := ((hpath.saved hu).2 1 job hg).symm.trans hsaved
  exact ⟨_, l, s, t, job, hu, hpath, hpc, hg, hcap, ht, hl, hpgrp, hattr⟩

/-! ## The settings at the prompt -/

/-- The settings in force where a step ends a job in the foreground by normal exit: the status of
its last process is taken up. -/
def exitSettings (s : State) : Event → Option Termios
  | .reap pid | .waitpid pid =>
    (waitpid s.procs pid).bind fun (status, _) =>
      (getJobFromPid s.jid2job pid).bind fun jid =>
        (s.jid2job.get jid).bind fun job => job.exitSettings s.ttyAttr status
  | _ => none

/-- The settings that the shell should reinstate after a path from the initial state `u`. -/
def sampled (u : State) (l : List (State × Event)) : Termios :=
  (Lts.last exitSettings l).getD u.ttyAttr

/-- **The terminal settings at the prompt.** In every run these are the ones that the shell was
started with, so they are the ones in force when the most recent job in the foreground ended by
normal exit if and only if that job left them so, or there was none. No step changes what the shell
reinstates, and a stop or a signal does not change what it should. -/
theorem promptSettings_run (hu : u.Initial) {l : List (State × Event)} (hp : Path ok u l s) :
    (s.pc = .readline → (s.ttyAttr = sampled u l ↔
      Lts.last exitSettings l = none ∨ Lts.last exitSettings l = some u.ttyAttr)) ∧
    ∀ e t, step s e = some t → t.savedTtyState = s.savedTtyState ∧
      ∀ pid status procs, e = .reap pid ∨ e = .waitpid pid →
        waitpid s.procs pid = some (status, procs) → (∀ code, status ≠ .terminated (.exited code)) →
          sampled u (l ++ [(s, e)]) = sampled u l := by
  have hr : Run ok s := Lts.Path.reach hp (.init hu)
  refine ⟨fun hpc => ?_, fun e t hs => ⟨savedTtyState_move (step_move hs).2, ?_⟩⟩
  · have hattr : s.ttyAttr = u.ttyAttr :=
      (hr.hasTerminal.attr (by rw [hpc]; rfl)).trans (hp.savedTtyState.trans hu.savedTtyState)
    rw [hattr, sampled]
    cases Lts.last exitSettings l with
    | none => exact iff_of_true rfl (Or.inl rfl)
    | some attr =>
      rw [Option.getD_some, Option.some.injEq]
      exact ⟨fun h => Or.inr h.symm, fun h => (h.resolve_left nofun).symm⟩
  · intro pid status procs he hw hne
    have hnone : s.exitSettings e = none := by
      rcases he with rfl | rfl <;>
        simp only [exitSettings, hw, Option.bind_some, Job.exitSettings_none hne,
          Option.bind_fun_none]
    rw [sampled, Lts.last_snoc, hnone, Option.none_or]
    rfl

/-- A command in the foreground, which sets the terminal settings and exits. -/
def exitForeground (attr : Termios) : List Event :=
  startForeground ++ [.setAttr 100 attr, .child 100 (.exit 0), .waitpid 100] ++
    List.replicate 10 .main

/-- The command leaves the settings as they were. -/
theorem promptSettings_run_same : ∃ s, Path (fun _ _ => true) (State.init 50 7 .usual)
      (Lts.record step (State.init 50 7 .usual) (exitForeground 7)) s ∧ s.pc = .readline ∧
    Lts.last exitSettings (Lts.record step (State.init 50 7 .usual) (exitForeground 7)) = some 7 ∧
    s.ttyAttr = sampled (State.init 50 7 .usual)
      (Lts.record step (State.init 50 7 .usual) (exitForeground 7)) := by
  have hrun : (Lts.exec step (fun _ _ => true) (State.init 50 7 .usual) (exitForeground 7)).map
      State.pc = some .readline := by
    decide
  have hlast : Lts.last exitSettings (Lts.record step (State.init 50 7 .usual) (exitForeground 7)) =
      some 7 := by
    decide
  obtain ⟨s, hs, hpc⟩ := Option.map_eq_some_iff.1 hrun
  have hu : (State.init 50 7 .usual).Initial := ⟨50, 7, .usual, by decide, rfl⟩
  have hpath := Path.record hs
  exact ⟨s, hpath, hpc, hlast, ((promptSettings_run hu hpath).1 hpc).2 (Or.inr hlast)⟩

/-- The command leaves other settings behind: the prompt has those of the start. -/
theorem promptSettings_changed : ∃ s, Path (fun _ _ => true) (State.init 50 7 .usual)
      (Lts.record step (State.init 50 7 .usual) (exitForeground 9)) s ∧ s.pc = .readline ∧
    s.ttyAttr = 7 ∧
    sampled (State.init 50 7 .usual)
      (Lts.record step (State.init 50 7 .usual) (exitForeground 9)) = 9 := by
  have hrun : (Lts.exec step (fun _ _ => true) (State.init 50 7 .usual) (exitForeground 9)).map
      (fun s => (s.pc, s.ttyAttr)) = some (.readline, 7) := by
    decide
  obtain ⟨s, hs, he⟩ := Option.map_eq_some_iff.1 hrun
  obtain ⟨hpc, hattr⟩ := Prod.mk.inj he
  exact ⟨s, Path.record hs, hpc, hattr, by decide⟩

end State

end Cush
