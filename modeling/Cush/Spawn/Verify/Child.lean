import Cush.Lib.Program
import Cush.Spawn.Spawni

/-!
# What the child of `posix_spawnp` does

The child blocks what can be blocked while it sets itself up, and resets the handlers of what it
blocks before it unblocks anything: no handler of the caller runs in it, and taking the terminal
does not stop it. It ends in `exec` with what the attributes and the file actions ask for, or with
an error number for the caller, unless it is killed before.
-/

namespace Cush.Spawni

open Program

variable {a : Answers} {attr : SpawnAttr} {t t' u : Task} {p p' : Pid} {w w' : World}
  {may : Pid → Prop} {β γ : Type}

/-! ## Handlers -/

/-- No handler can run in the process: what it has one for is blocked. -/
def Task.Quiet (t : Task) : Prop :=
  ∀ sig, 1 ≤ sig → sig < NSIG → t.mask.blocked sig = false → ∀ f, t.actions.get sig ≠ .handler f

/-- The process blocks all that can be blocked. -/
def Task.Masked (t : Task) : Prop :=
  ∀ sig, 1 ≤ sig → sig < NSIG → isReserved sig = false → t.mask.blocked sig = true

/-- The process has no handlers. -/
def Task.NoHandler (t : Task) : Prop :=
  ∀ sig, 1 ≤ sig → sig < NSIG → ∀ f, t.actions.get sig ≠ .handler f

theorem Task.Masked.quiet (h : t.Masked) : t.Quiet := by
  intro sig hlo hhi hfree f
  cases hr : isReserved sig with
  | false => exact absurd hfree (by simp [h sig hlo hhi hr])
  | true => simp [t.actions.reserved sig hr]

theorem Task.NoHandler.quiet (h : t.NoHandler) : t.Quiet :=
  fun sig hlo hhi _ => h sig hlo hhi

theorem masked_block (m : SignalMask) (h : t.mask = m.block sigfillset) : t.Masked := by
  intro sig hlo hhi hr
  rw [h]
  simp [SignalMask.block, SignalMask.ofSet, sigfillset, hlo, hhi, hr]

/-! ## Setting up -/

/-- The child sets itself up; `may` says who may have the terminal. -/
structure World.Setting (may : Pid → Prop) (w : World) : Prop where
  masked : w.task.Masked
  log : ∀ t ∈ w.log, t.Quiet
  err : w.err = 0
  tty : may w.ttyPgrp

/-- No handler can run in the child, or could have run. -/
structure World.Calm (may : Pid → Prop) (w : World) : Prop where
  task : w.task.Quiet
  log : ∀ t ∈ w.log, t.Quiet
  tty : may w.ttyPgrp

theorem World.Setting.calm (h : w.Setting may) : w.Calm may :=
  ⟨h.masked.quiet, h.log, h.tty⟩

/-- The child goes to the label `fail`, or has been killed. -/
structure Aborted (may : Pid → Prop) (stop : Stop) (w : World) : Prop where
  stop : stop = .fail ∨ ∃ sig, stop = .killed sig
  calm : w.Calm may
  err : w.err = 0

/-- A part of the set-up that finds the child `t` and the terminal with `p`, and if it does not
abort leaves what `Q` says. -/
def SetsUp (may : Pid → Prop) (x : SpawnM β) (t : Task) (p : Pid) (Q : β → Task → Pid → Prop) :
    Prop :=
  ∀ w : World, w.Setting may → w.task = t → w.ttyPgrp = p →
    Leads x w (fun v w' => w'.Setting may ∧ Q v w'.task w'.ttyPgrp) (Aborted may)

section Rules

variable {x y : SpawnM β} {g : β → SpawnM γ} {Q Q' : β → Task → Pid → Prop}
  {R : γ → Task → Pid → Prop} {R' : Task → Pid → Prop} {v : β}

theorem SetsUp.pure (h : Q v t p) : SetsUp may (pure v) t p Q := by
  rintro w hw rfl rfl
  exact .pure ⟨hw, h⟩

theorem SetsUp.fail : SetsUp may (throw .fail) t p Q :=
  fun _ hw _ _ => .throw ⟨.inl rfl, hw.calm, hw.err⟩

theorem SetsUp.bind (hx : SetsUp may x t p Q)
    (hg : ∀ v t' p', Q v t' p' → SetsUp may (g v) t' p' R) : SetsUp may (x >>= g) t p R :=
  fun w hw ht hp => (hx w hw ht hp).bind fun v _ h => hg v _ _ h.2 _ h.1 rfl rfl

theorem SetsUp.mono (hx : SetsUp may x t p Q) (h : ∀ v t' p', Q v t' p' → Q' v t' p') :
    SetsUp may x t p Q' :=
  fun w hw ht hp => (hx w hw ht hp).mono (fun v _ hq => ⟨hq.1, h v _ _ hq.2⟩) fun _ _ h => h

theorem SetsUp.ite {c : Prop} [Decidable c] (h : c → SetsUp may x t p Q)
    (h' : ¬ c → SetsUp may y t p Q) : SetsUp may (if c then x else y) t p Q :=
  fun w hw ht hp => .ite (fun hc => h hc w hw ht hp) fun hc => h' hc w hw ht hp

theorem SetsUp.get {g : World → SpawnM γ}
    (hg : ∀ w : World, w.Setting may → w.task = t → w.ttyPgrp = p → SetsUp may (g w) t p R) :
    SetsUp may (MonadState.get >>= g) t p R :=
  fun w hw ht hp => hg w hw ht hp w hw ht hp

theorem SetsUp.orFail {x : SpawnM Bool}
    (hx : SetsUp may x t p fun b t' p' => b = true → R' t' p') :
    SetsUp may (orFail x) t p fun _ => R' := by
  refine hx.bind fun b t' p' h => ?_
  cases b with
  | false => exact .fail
  | true => exact .pure (h rfl)

end Rules

/-! ## Calls -/

theorem World.Setting.modifyTask (h : w.Setting may) {f : Task → Task}
    (hf : (f w.task).mask = w.task.mask) : (w.modifyTask f).Setting may where
  masked := by
    intro sig hlo hhi hr
    change (f w.task).mask.blocked sig = true
    rw [hf]
    exact h.masked sig hlo hhi hr
  log := h.log
  err := h.err
  tty := h.tty

theorem World.Calm.enter (h : w.Calm may) :
    Leads (enter a) w
      (fun _ w' => w'.Calm may ∧ w' = { w with log := w.log ++ [w.task] })
      (fun stop w' => w'.Calm may ∧ w'.err = w.err ∧ ∃ sig, stop = .killed sig) := by
  have hlog : ∀ t ∈ w.log ++ [w.task], t.Quiet := by
    intro t ht
    rcases List.mem_append.1 ht with ht | ht
    · exact h.log t ht
    · exact List.mem_singleton.1 ht ▸ h.task
  unfold Spawni.enter Leads
  dsimp only [bind, EStateM.bind, get, getThe, MonadStateOf.get, EStateM.get, set, EStateM.set]
  cases a.kills w.log.length with
  | none => exact ⟨⟨h.task, hlog, h.tty⟩, rfl⟩
  | some sig => exact ⟨⟨h.task, hlog, h.tty⟩, rfl, sig, rfl⟩

theorem enter_setsUp : SetsUp may (enter a) t p fun _ t' p' => t' = t ∧ p' = p := by
  rintro w hw rfl rfl
  refine hw.calm.enter.mono ?_ ?_
  · rintro _ w' ⟨hcalm, rfl⟩
    exact ⟨⟨hw.masked, hcalm.log, hw.err, hw.tty⟩, rfl, rfl⟩
  · rintro stop w' ⟨hcalm, herr, hstop⟩
    exact ⟨.inr hstop, hcalm, herr.trans hw.err⟩

theorem perform_setsUp {act : World → World} {R : Task → Pid → Prop}
    (hact : ∀ w : World, w.Setting may → w.task = t → w.ttyPgrp = p →
      (act w).Setting may ∧ R (act w).task (act w).ttyPgrp) :
    SetsUp may (perform a act) t p fun _ => R := by
  refine enter_setsUp.bind ?_
  rintro n t' p' ⟨rfl, rfl⟩ w hw ht hp
  exact hact w hw ht hp

theorem attempt_setsUp {act : World → Except Errno World} {R : Task → Pid → Prop}
    (hact : ∀ w w' : World, w.Setting may → w.task = t → w.ttyPgrp = p → act w = .ok w' →
      w'.Setting may ∧ R w'.task w'.ttyPgrp) :
    SetsUp may (attempt a act) t p fun b t' p' => if b then R t' p' else t' = t ∧ p' = p := by
  refine enter_setsUp.bind ?_
  rintro n t' p' ⟨rfl, rfl⟩
  refine .get fun w hw ht hp => ?_
  cases hres : (a.fails n).elim (act w) Except.error with
  | error e =>
    intro _ _ _ _
    exact ⟨⟨hw.masked, hw.log, hw.err, hw.tty⟩, ht, hp⟩
  | ok w' =>
    intro _ _ _ _
    refine hact w w' hw ht hp ?_
    cases hf : a.fails n with
    | none => simpa [hf] using hres
    | some e => simp [hf] at hres

/-- What a call that succeeds has done. -/
theorem attempt_succeeds {act : World → Except Errno World} {R : Task → Pid → Prop}
    (hact : ∀ w w' : World, w.Setting may → w.task = t → w.ttyPgrp = p → act w = .ok w' →
      w'.Setting may ∧ R w'.task w'.ttyPgrp) :
    SetsUp may (attempt a act) t p fun b t' p' => b = true → R t' p' :=
  (attempt_setsUp hact).mono fun b t' p' h hb => by
    subst hb
    exact h

theorem orFail_setsUp {act : World → Except Errno World} {R : Task → Pid → Prop}
    (hact : ∀ w w' : World, w.Setting may → w.task = t → w.ttyPgrp = p → act w = .ok w' →
      w'.Setting may ∧ R w'.task w'.ttyPgrp) :
    SetsUp may (orFail (attempt a act)) t p fun _ => R :=
  .orFail (attempt_succeeds hact)

/-- A call that changes an attribute of the child, or fails. -/
theorem change_setsUp {f : Task → Task} (hf : (f t).mask = t.mask) :
    SetsUp may (orFail (attempt a fun w => .ok (w.modifyTask f))) t p fun _ t' p' =>
      t' = f t ∧ p' = p := by
  refine orFail_setsUp ?_
  rintro w w' hw rfl rfl hact
  obtain rfl := Except.ok.inj hact
  exact ⟨hw.modifyTask hf, rfl, rfl⟩

/-- A call that asks for something and changes nothing. -/
theorem query_setsUp : SetsUp may (perform a id) t p fun _ t' p' => t' = t ∧ p' = p :=
  perform_setsUp fun _ hw ht hp => ⟨hw, ht, hp⟩

/-! ## Signals -/

/-- The action of a signal after the reset, where `hset` is blocked. -/
def resetHandler (attr : SpawnAttr) (hset : Sigset) (sig : Nat) (h : Handler) : Handler :=
  if attr.has POSIX_SPAWN_SETSIGDEF && attr.sd sig then .dfl
  else if hset sig then if h = .ign then .ign else .dfl
  else h

theorem setSigaction_setsUp {sig : Nat} {h : Handler} :
    SetsUp may (setSigaction a sig h) t p fun _ t' p' => p' = p ∧ ∃ actions,
      t' = { t with actions } ∧
        ∀ i, actions.get i = if i = sig ∧ isReserved sig = false then h else t.actions.get i := by
  refine perform_setsUp ?_
  rintro w hw rfl rfl
  cases hr : isReserved sig with
  | true =>
    have hset : w.task.actions.set sig h = none := by simp [SignalActions.set, hr]
    rw [hset]
    exact ⟨⟨hw.masked, hw.log, hw.err, hw.tty⟩, rfl, w.task.actions, rfl, by simp⟩
  | false =>
    have hset : ∃ actions, w.task.actions.set sig h = some actions ∧
        ∀ i, actions.get i = if i = sig then h else w.task.actions.get i := by
      simp [SignalActions.set, hr]
    obtain ⟨actions, hset, hget⟩ := hset
    rw [hset]
    exact ⟨hw.modifyTask rfl, rfl, actions, rfl, by simpa using hget⟩

theorem resetSignal_setsUp {hset : Sigset} {sig : Nat} :
    SetsUp may (resetSignal a attr hset sig) t p fun _ t' p' => p' = p ∧
      ∃ actions, t' = { t with actions } ∧ ∀ i, actions.get i =
        if i = sig then resetHandler attr hset sig (t.actions.get sig) else t.actions.get i := by
  have hreserved : isReserved sig = true → t.actions.get sig = .dfl := t.actions.reserved sig
  refine .ite (fun hdef => ?_) fun hdef => .ite (fun hblock => ?_) fun hblock => ?_
  · refine setSigaction_setsUp.mono ?_
    rintro _ t' p' ⟨hp, actions, ht, hget⟩
    refine ⟨hp, actions, ht, fun i => ?_⟩
    rw [hget, resetHandler, if_pos hdef]
    by_cases hi : i = sig
    · subst hi
      cases hr : isReserved i <;> simp_all
    · simp [hi]
  · refine query_setsUp.bind ?_
    rintro _ t' p' ⟨rfl, rfl⟩
    refine .get fun w hw ht hp => ?_
    subst ht
    refine .ite (fun hign => ?_) fun hign => ?_
    · refine .pure ⟨rfl, w.task.actions, rfl, fun i => ?_⟩
      rw [resetHandler, if_neg hdef, if_pos hblock, if_pos hign]
      split
      · rename_i hi
        rw [hi, hign]
      · rfl
    · refine setSigaction_setsUp.mono ?_
      rintro _ t' p' ⟨hp, actions, ht, hget⟩
      refine ⟨hp, actions, ht, fun i => ?_⟩
      rw [hget, resetHandler, if_neg hdef, if_pos hblock, if_neg hign]
      by_cases hi : i = sig
      · subst hi
        cases hr : isReserved i <;> simp_all
      · simp [hi]
  · refine .pure ⟨rfl, t.actions, rfl, fun i => ?_⟩
    rw [resetHandler, if_neg hdef, if_neg hblock]
    split
    · rename_i hi
      rw [hi]
    · rfl

theorem resetHandler_idem (hset : Sigset) (sig : Nat) (h : Handler) :
    resetHandler attr hset sig (resetHandler attr hset sig h) = resetHandler attr hset sig h := by
  unfold resetHandler
  split_ifs <;> simp_all

theorem resetSignals_setsUp {hset : Sigset} (sigs : List Nat) :
    SetsUp may (resetSignals a attr hset sigs) t p fun _ t' p' => p' = p ∧
      ∃ actions, t' = { t with actions } ∧ ∀ i, actions.get i =
        if i ∈ sigs then resetHandler attr hset i (t.actions.get i) else t.actions.get i := by
  induction sigs generalizing t p with
  | nil => exact .pure ⟨rfl, t.actions, rfl, by simp⟩
  | cons sig sigs ih =>
    refine resetSignal_setsUp.bind ?_
    rintro _ t' p' ⟨rfl, actions, rfl, hget⟩
    refine ih.mono ?_
    rintro _ t' p' ⟨hp, actions', rfl, hget'⟩
    refine ⟨hp, actions', rfl, fun i => ?_⟩
    rw [hget', hget]
    by_cases hi : i = sig
    · subst hi
      simp [resetHandler_idem]
    · simp [hi]

/-! ## Other attributes -/

/-- Of the two flags for the scheduler, only the one for the parameter is set. -/
theorem flags_schedparam : attr.flags &&&
      (POSIX_SPAWN_SETSCHEDPARAM ||| POSIX_SPAWN_SETSCHEDULER) = POSIX_SPAWN_SETSCHEDPARAM ↔
    attr.has POSIX_SPAWN_SETSCHEDPARAM = true ∧ attr.has POSIX_SPAWN_SETSCHEDULER = false := by
  have hparam : POSIX_SPAWN_SETSCHEDPARAM = BitVec.twoPow 16 4 := rfl
  have hsched : POSIX_SPAWN_SETSCHEDULER = BitVec.twoPow 16 5 := rfl
  unfold SpawnAttr.has
  rw [BitVec.and_or_distrib_left, hparam, hsched, BitVec.and_twoPow, BitVec.and_twoPow]
  cases attr.flags.getLsbD 4 <;> cases attr.flags.getLsbD 5 <;> decide

/-- The child with the scheduling that the attributes ask for. -/
def Task.scheduled (attr : SpawnAttr) (t : Task) : Task :=
  { t with
    policy := if attr.has POSIX_SPAWN_SETSCHEDULER then attr.policy else t.policy
    param :=
      if attr.has POSIX_SPAWN_SETSCHEDULER || attr.has POSIX_SPAWN_SETSCHEDPARAM then attr.sp
      else t.param }

theorem setScheduler_setsUp : SetsUp may (setScheduler a attr) t p fun _ t' p' =>
    t' = t.scheduled attr ∧ p' = p := by
  refine .ite (fun hparam => ?_) fun hparam => .ite (fun hsched => ?_) fun hsched => ?_
  · obtain ⟨hp, hs⟩ := flags_schedparam.1 hparam
    simp only [Task.scheduled, hp, hs]
    exact change_setsUp rfl
  · simp only [Task.scheduled, hsched]
    exact change_setsUp rfl
  · have hs := Bool.eq_false_iff.2 hsched
    have hp : attr.has POSIX_SPAWN_SETSCHEDPARAM = false :=
      Bool.eq_false_iff.2 fun h => hparam (flags_schedparam.2 ⟨h, hs⟩)
    simp only [Task.scheduled, hp, hs]
    exact .pure ⟨rfl, rfl⟩

/-- The child in the session that the attributes ask for. -/
def Task.session (attr : SpawnAttr) (t : Task) : Task :=
  { t with
    sid := if attr.has POSIX_SPAWN_SETSID then t.pid else t.sid
    pgid := if attr.has POSIX_SPAWN_SETSID then t.pid else t.pgid }

/-- The group that the attributes ask for. -/
def Task.group (attr : SpawnAttr) (t : Task) : Pid :=
  if attr.has POSIX_SPAWN_SETPGROUP then if attr.pgrp = 0 then t.pid else attr.pgrp else t.pgid

theorem setSession_setsUp : SetsUp may (setSession a attr) t p fun _ t' p' =>
    t' = t.session attr ∧ p' = p := by
  refine .ite (fun hc => ?_) fun hc => ?_
  · rw [Task.session, if_pos hc, if_pos hc]
    refine orFail_setsUp ?_
    rintro w w' hw rfl rfl hact
    split at hact
    · cases hact
    · obtain rfl := Except.ok.inj hact
      exact ⟨hw.modifyTask rfl, rfl, rfl⟩
  · rw [Task.session, if_neg hc, if_neg hc]
    exact .pure ⟨rfl, rfl⟩

theorem setGroup_setsUp : SetsUp may (setGroup a attr) t p fun _ t' p' =>
    t' = { t with pgid := t.group attr } ∧ p' = p ∧
      (attr.has POSIX_SPAWN_SETPGROUP = true → attr.pgrp ≠ 0 → a.group attr.pgrp = true) := by
  refine .ite (fun hc => ?_) fun hc => ?_
  · rw [Task.group, if_pos hc]
    refine orFail_setsUp ?_
    rintro w w' hw rfl rfl hact
    split at hact
    · cases hact
    · rename_i hfree
      obtain rfl := Except.ok.inj hact
      exact ⟨hw.modifyTask rfl, rfl, rfl, fun _ hne => by simp_all⟩
  · rw [Task.group, if_neg hc]
    exact .pure ⟨rfl, rfl, fun h => absurd h hc⟩

/-- `SIGTTOU` is blocked, so that the child is not stopped here. -/
theorem tcsetpgrp_setsUp {fd : Nat} {pgrp : Pid} (hmay : may pgrp) :
    SetsUp may (orFail (tcsetpgrp a fd pgrp)) t p fun _ t' p' => t' = t ∧ p' = pgrp := by
  refine .orFail (.get fun w hw ht hp => .ite (fun hc => ?_) fun _ => ?_)
  · have hblocked := hw.masked SIGTTOU (by decide) (by decide) (by decide)
    exact absurd hblocked (by simp [hc.2.1])
  · refine attempt_succeeds ?_
    rintro w w' hw rfl rfl hact
    split at hact
    · cases hact
    · obtain rfl := Except.ok.inj hact
      exact ⟨⟨hw.masked, hw.log, hw.err, hmay⟩, rfl, rfl⟩

theorem setTerminal_setsUp (hmay : attr.has POSIX_SPAWN_TCSETPGROUP = true → may t.pgid)
    (hgroup : (attr.has POSIX_SPAWN_SETPGROUP && attr.pgrp != 0) = true → attr.pgrp = t.pgid) :
    SetsUp may (setTerminal a attr) t p fun _ t' p' => t' = t ∧
      p' = if attr.has POSIX_SPAWN_TCSETPGROUP then t.pgid else p := by
  refine .ite (fun hc => ?_) fun hc => ?_
  · simp only [hc, if_true]
    refine .ite (fun hset => ?_) fun _ => ?_
    · rw [hgroup hset]
      exact tcsetpgrp_setsUp (hmay hc)
    · refine query_setsUp.bind ?_
      rintro _ t' p' ⟨rfl, rfl⟩
      refine .get fun w hw ht hp => ?_
      subst ht
      exact tcsetpgrp_setsUp (hmay hc)
  · simp only [hc]
    exact .pure ⟨rfl, rfl⟩

theorem resetIds_setsUp : SetsUp may (resetIds a attr) t p fun _ t' p' =>
    t' = { t with
      euid := if attr.has POSIX_SPAWN_RESETIDS then t.uid else t.euid
      egid := if attr.has POSIX_SPAWN_RESETIDS then t.gid else t.egid } ∧ p' = p := by
  refine .ite (fun hc => ?_) fun hc => ?_
  · simp only [hc, if_true]
    refine query_setsUp.bind ?_
    rintro _ t' p' ⟨rfl, rfl⟩
    refine (change_setsUp rfl).bind ?_
    rintro _ t' p' ⟨rfl, rfl⟩
    refine query_setsUp.bind ?_
    rintro _ t' p' ⟨rfl, rfl⟩
    exact (change_setsUp rfl).mono fun _ t' p' h => h
  · simp only [hc]
    exact .pure ⟨rfl, rfl⟩

/-! ## File actions -/

/-- Whatever `close` returns, the descriptor is closed. -/
theorem close_setsUp {fd : Nat} : SetsUp may (close a fd) t p fun _ t' p' => p' = p ∧
    ∃ fds, t' = { t with fds } ∧ ∀ i, fds.get i = if i = fd then none else t.fds.get i := by
  refine enter_setsUp.bind ?_
  rintro n t' p' ⟨rfl, rfl⟩
  refine .get fun w hw ht hp => ?_
  subst ht
  refine .ite (fun hfree => ?_) fun hopen => ?_
  · intro _ _ _ _
    refine ⟨⟨hw.masked, hw.log, hw.err, hw.tty⟩, hp, w.task.fds, rfl, fun i => ?_⟩
    split
    · rename_i hi
      simpa [hi] using hfree
    · rfl
  · have hclosed : (w.setFds (w.task.fds.close fd)).Setting may := hw.modifyTask rfl
    cases a.fails n with
    | none =>
      intro _ _ _ _
      exact ⟨hclosed, hp, _, rfl, FdTable.get_close fd⟩
    | some e =>
      intro _ _ _ _
      exact ⟨⟨hclosed.masked, hw.log, hw.err, hw.tty⟩, hp, _, rfl, FdTable.get_close fd⟩

theorem openFile_setsUp {cnt : Nat} {path : Word} {oflag : OpenMode} :
    SetsUp may (openFile a cnt path oflag) t p fun r t' p' => ∀ ret ∈ r, p' = p ∧
      t.fds.get ret = none ∧ ∃ fds, t' = { t with fds } ∧
        ∀ i, fds.get i = if i = ret then some ⟨.opened path oflag cnt, false⟩ else t.fds.get i := by
  refine .get fun w hw ht hp => ?_
  subst ht hp
  have hattempt : SetsUp may (attempt a fun w' =>
      if a.nofile ≤ w.task.fds.firstFree 0 then .error EMFILE
      else .ok (w'.setFds (w'.task.fds.openLowest (.opened path oflag cnt)).2)) w.task w.ttyPgrp
      fun b t' p' => b = true → p' = w.ttyPgrp ∧ t' = { w.task with
        fds := (w.task.fds.openLowest (.opened path oflag cnt)).2 } := by
    refine attempt_succeeds ?_
    rintro w₁ w' hw₁ ht hp hact
    split at hact
    · cases hact
    · obtain rfl := Except.ok.inj hact
      rw [← ht, ← hp]
      exact ⟨hw₁.modifyTask rfl, rfl, rfl⟩
  refine hattempt.bind fun b t' p' h => .pure fun ret hret => ?_
  cases b with
  | false => cases hret
  | true =>
    obtain rfl := Option.some.inj hret
    obtain ⟨rfl, rfl⟩ := h rfl
    obtain ⟨-, hfree, -⟩ := w.task.fds.firstFree_spec 0
    exact ⟨rfl, hfree, _, rfl, SlotTable.get_set _ _ _⟩

theorem dup2_setsUp {fd newfd : Nat} (hne : fd ≠ newfd) :
    SetsUp may (orFail (dup2 a fd newfd)) t p fun _ t' p' => p' = p ∧
      ∃ e fds, t.fds.get fd = some e ∧ t' = { t with fds } ∧
        ∀ i, fds.get i = if i = newfd then some ⟨e.file, false⟩ else t.fds.get i := by
  refine orFail_setsUp ?_
  rintro w w' hw rfl rfl hact
  split at hact
  · cases hact
  · cases hg : w.task.fds.get fd with
    | none => simp [FdTable.dup2, hg] at hact
    | some e =>
      obtain ⟨fds, hdup, hget⟩ := FdTable.get_dup2 hg hne
      rw [hdup] at hact
      obtain rfl := Except.ok.inj hact
      exact ⟨hw.modifyTask rfl, rfl, e, fds, rfl, rfl, hget⟩

theorem keepOnExec_setsUp {fd : Nat} :
    SetsUp may (orFail (keepOnExec a fd)) t p fun _ t' p' => p' = p ∧
      ∃ e fds, t.fds.get fd = some e ∧ t' = { t with fds } ∧
        ∀ i, fds.get i = if i = fd then some ⟨e.file, false⟩ else t.fds.get i := by
  refine orFail_setsUp ?_
  rintro w w' hw rfl rfl hact
  cases hg : w.task.fds.get fd with
  | none => simp [FdTable.keepOnExec, hg] at hact
  | some e =>
    simp only [FdTable.keepOnExec, hg] at hact
    obtain rfl := Except.ok.inj hact
    exact ⟨hw.modifyTask rfl, rfl, e, _, rfl, rfl, SlotTable.get_set _ _ _⟩

theorem changeDir_setsUp {f : Task → Option DirChange} :
    SetsUp may (orFail (changeDir a f)) t p fun _ t' p' => p' = p ∧
      ∃ dir, f t = some dir ∧ t' = { t with cwd := t.cwd ++ [dir] } := by
  refine orFail_setsUp ?_
  rintro w w' hw rfl rfl hact
  cases hf : f w.task with
  | none =>
    rw [hf] at hact
    cases hact
  | some dir =>
    rw [hf] at hact
    obtain rfl := Except.ok.inj hact
    exact ⟨hw.modifyTask rfl, rfl, dir, rfl, rfl⟩

theorem closeAction_setsUp {fd : Nat} {haveFdlimit : Bool} :
    SetsUp may (closeAction a haveFdlimit fd) t p fun _ t' p' => p' = p ∧
      ∃ fds, t' = { t with fds } ∧ ∀ i, fds.get i = if i = fd then none else t.fds.get i := by
  refine close_setsUp.bind ?_
  rintro closed t' p' ⟨rfl, fds, rfl, hget⟩
  cases closed with
  | true => exact .pure ⟨rfl, fds, rfl, hget⟩
  | false =>
    have hlimit : SetsUp may (getFdlimit a haveFdlimit) { t with fds } p' fun _ t' p'' =>
        t' = { t with fds } ∧ p'' = p' := by
      cases haveFdlimit with
      | true => exact .pure ⟨rfl, rfl⟩
      | false => exact query_setsUp
    refine hlimit.bind ?_
    rintro _ t' p' ⟨rfl, rfl⟩
    exact .ite (fun _ => .fail) fun _ => .pure ⟨rfl, fds, rfl, hget⟩

/-- Opening a file and moving it comes to opening it at the descriptor. -/
theorem openAction_setsUp {cnt fd : Nat} {path : Word} {oflag : OpenMode} :
    SetsUp may (openAction a cnt fd path oflag) t p fun _ t' p' => p' = p ∧
      ∃ fds, t' = { t with fds } ∧
        ∀ i, fds.get i = if i = fd then some ⟨.opened path oflag cnt, false⟩ else t.fds.get i := by
  refine close_setsUp.bind ?_
  rintro _ t' p' ⟨rfl, fds, rfl, hclose⟩
  refine openFile_setsUp.bind ?_
  intro r t' p' hopen
  cases r with
  | none => exact .fail
  | some ret =>
    obtain ⟨rfl, hfree, fds₁, rfl, hplace⟩ := hopen ret rfl
    refine .ite (fun he => .pure ⟨rfl, fds₁, rfl, fun i => ?_⟩) fun hne => ?_
    · subst he
      rw [hplace, hclose]
      by_cases hi : i = ret <;> simp [hi]
    · refine (dup2_setsUp hne).bind ?_
      rintro _ t' p' ⟨rfl, e, fds₂, he, rfl, hdup⟩
      refine (SetsUp.orFail (close_setsUp.mono fun b t' p' h _ => h)).mono ?_
      rintro _ t' p' ⟨rfl, fds₃, rfl, hclose'⟩
      refine ⟨rfl, fds₃, rfl, fun i => ?_⟩
      -- the file was open at `ret` in between, where nothing was open before
      rw [hplace, if_pos rfl] at he
      obtain rfl := Option.some.inj he
      rw [hclose', hdup, hplace, hclose]
      rw [hclose, if_neg hne] at hfree
      by_cases hi : i = ret
      · subst hi
        simp [hne, hfree]
      · by_cases hf : i = fd <;> simp [hi, hf, Ne.symm hne]

theorem dup2Action_setsUp {fd newfd : Nat} :
    SetsUp may (dup2Action a fd newfd) t p fun _ t' p' => p' = p ∧
      ∃ e fds, t.fds.get fd = some e ∧ t' = { t with fds } ∧
        ∀ i, fds.get i = if i = newfd then some ⟨e.file, false⟩ else t.fds.get i := by
  refine .ite (fun he => ?_) dup2_setsUp
  subst he
  have hget : SetsUp may (orFail (getFd a fd)) t p fun _ t' p' => t' = t ∧ p' = p := by
    refine orFail_setsUp ?_
    rintro w w' hw rfl rfl hact
    split at hact
    · cases hact
    · obtain rfl := Except.ok.inj hact
      exact ⟨hw, rfl, rfl⟩
  refine hget.bind ?_
  rintro _ t' p' ⟨rfl, rfl⟩
  exact keepOnExec_setsUp

/-! ## What the file actions ask for -/

/-- What file actions can change: the descriptors, wherever their table keeps them, and the working
directory. -/
structure Files where
  fds : Nat → Option (FdEntry OpenFile)
  cwd : List DirChange

def Task.files (t : Task) : Files :=
  ⟨t.fds.get, t.cwd⟩

namespace Files

def put (s : Files) (fd : Nat) (entry : Option (FdEntry OpenFile)) : Files :=
  { s with fds := Function.update s.fds fd entry }

def enter (s : Files) (dir : DirChange) : Files :=
  { s with cwd := s.cwd ++ [dir] }

end Files

/-- The effect of the action at position `cnt`; none for a descriptor that is not open. -/
def SpawnAction.effect (cnt : Nat) (s : Files) : SpawnAction → Option Files
  | .close fd => some (s.put fd none)
  | .open fd path oflag => some (s.put fd (some ⟨.opened path oflag cnt, false⟩))
  | .dup2 fd newfd => (s.fds fd).map fun e => s.put newfd (some ⟨e.file, false⟩)
  | .chdir path => some (s.enter (.path path))
  | .fchdir fd => (s.fds fd).map fun e => s.enter (.file e.file)

def effects (cnt : Nat) (s : Files) : List SpawnAction → Option Files
  | [] => some s
  | action :: actions => (action.effect cnt s).bind fun s => effects (cnt + 1) s actions

theorem files_put {fds : FdTable OpenFile} {fd : Nat} {entry : Option (FdEntry OpenFile)}
    (h : ∀ i, fds.get i = if i = fd then entry else t.fds.get i) :
    Task.files { t with fds } = t.files.put fd entry := by
  have hget : fds.get = Function.update t.fds.get fd entry := by
    funext i
    rw [h, Function.update_apply]
  exact congrArg (Files.mk · t.cwd) hget

theorem executeAction_setsUp {cnt : Nat} {haveFdlimit : Bool} (action : SpawnAction) :
    SetsUp may (executeAction a cnt haveFdlimit action) t p fun _ t' p' => p' = p ∧
      (∃ fds cwd, t' = { t with fds, cwd }) ∧ action.effect cnt t.files = some t'.files := by
  cases action with
  | close fd =>
    refine closeAction_setsUp.mono ?_
    rintro _ t' p' ⟨rfl, fds, rfl, hget⟩
    exact ⟨rfl, ⟨fds, _, rfl⟩, congrArg some (files_put hget).symm⟩
  | «open» fd path oflag =>
    refine openAction_setsUp.bind ?_
    rintro _ t' p' ⟨rfl, fds, rfl, hget⟩
    exact .pure ⟨rfl, ⟨fds, _, rfl⟩, congrArg some (files_put hget).symm⟩
  | dup2 fd newfd =>
    refine dup2Action_setsUp.bind ?_
    rintro _ t' p' ⟨rfl, e, fds, hg, rfl, hget⟩
    refine .pure ⟨rfl, ⟨fds, _, rfl⟩, ?_⟩
    rw [files_put hget]
    exact Option.map_eq_some_iff.2 ⟨e, hg, rfl⟩
  | chdir path =>
    refine changeDir_setsUp.bind ?_
    rintro _ t' p' ⟨rfl, dir, hdir, rfl⟩
    obtain rfl := Option.some.inj hdir
    exact .pure ⟨rfl, ⟨_, _, rfl⟩, rfl⟩
  | fchdir fd =>
    refine changeDir_setsUp.bind ?_
    rintro _ t' p' ⟨rfl, dir, hdir, rfl⟩
    obtain ⟨file, hfile, rfl⟩ := Option.map_eq_some_iff.1 hdir
    obtain ⟨e, hg, rfl⟩ := Option.map_eq_some_iff.1 hfile
    exact .pure ⟨rfl, ⟨_, _, rfl⟩, Option.map_eq_some_iff.2 ⟨e, hg, rfl⟩⟩

/-- The actions have their effects one after the other, if none of them fails. -/
theorem executeActions_setsUp {cnt : Nat} {haveFdlimit : Bool} (actions : List SpawnAction) :
    SetsUp may (executeActions a cnt haveFdlimit actions) t p fun _ t' p' => p' = p ∧
      (∃ fds cwd, t' = { t with fds, cwd }) ∧ effects cnt t.files actions = some t'.files := by
  induction actions generalizing cnt haveFdlimit t p with
  | nil => exact .pure ⟨rfl, ⟨t.fds, t.cwd, rfl⟩, rfl⟩
  | cons action actions ih =>
    refine (executeAction_setsUp action).bind ?_
    rintro haveFdlimit t' p' ⟨rfl, ⟨fds, cwd, rfl⟩, heffect⟩
    refine ih.mono ?_
    rintro _ t' p' ⟨rfl, ⟨fds', cwd', rfl⟩, heffects⟩
    refine ⟨rfl, ⟨fds', cwd', rfl⟩, ?_⟩
    rw [effects, heffect]
    exact heffects

/-! ## The actions of the shell -/

/-- An action that `cush.c` adds has the effect that `execute` has on the table. -/
theorem execute_of_effect {cnt : Nat} {act : FileAction} {s s' : Files} {t₀ : FdTable OpenFile}
    (h : (SpawnAction.ofFileAction act).effect cnt s = some s') (hs : s.fds = t₀.get) :
    ∃ t₁, act.execute cnt t₀ = some t₁ ∧ s'.fds = t₁.get := by
  cases act with
  | «open» fd path oflag =>
    obtain rfl := Option.some.inj h
    obtain ⟨t₁, ht₁, hget⟩ := t₀.get_openAt fd (.opened path oflag cnt)
    refine ⟨t₁, ht₁, funext fun i => ?_⟩
    rw [hget, ← hs]
    exact Function.update_apply ..
  | dup2 fd newfd =>
    obtain ⟨e, hg, rfl⟩ := Option.map_eq_some_iff.1 h
    rw [hs] at hg
    by_cases hne : fd = newfd
    · subst hne
      refine ⟨t₀.set fd (some { e with cloexec := false }), ?_, funext fun i => ?_⟩
      · simp [FileAction.execute, FdTable.keepOnExec, hg]
      · rw [SlotTable.get_set, ← hs]
        exact Function.update_apply ..
    · obtain ⟨t₁, ht₁, hget⟩ := FdTable.get_dup2 hg hne
      refine ⟨t₁, (if_neg hne).trans ht₁, funext fun i => ?_⟩
      rw [hget, ← hs]
      exact Function.update_apply ..

theorem executeFrom_of_effects {cnt : Nat} {fa : FileActions} {s s' : Files}
    {t₀ : FdTable OpenFile} (h : effects cnt s (fa.map .ofFileAction) = some s')
    (hs : s.fds = t₀.get) : ∃ t₁, executeFrom cnt t₀ fa = some t₁ ∧ s'.fds = t₁.get := by
  induction fa generalizing cnt s t₀ with
  | nil =>
    obtain rfl := Option.some.inj h
    exact ⟨t₀, rfl, hs⟩
  | cons act fa ih =>
    obtain ⟨s₁, heffect, heffects⟩ := Option.bind_eq_some_iff.1 h
    obtain ⟨t₁, ht₁, hs₁⟩ := execute_of_effect heffect hs
    obtain ⟨t₂, ht₂, hs₂⟩ := ih heffects hs₁
    exact ⟨t₂, by rw [executeFrom, ht₁]; exact ht₂, hs₂⟩

/-! ## The whole child -/

/-- The action of a signal in the program, where the caller has `h`. -/
def startHandler (attr : SpawnAttr) (sig : Nat) (h : Handler) : Handler :=
  if attr.has POSIX_SPAWN_SETSIGDEF && attr.sd sig then .dfl
  else if h = .ign then .ign
  else .dfl

/-- The child `t` has been set up as `args` asks: it is `t'` now, and `p'` has the terminal. -/
structure IsSetUp (a : Answers) (args : SpawnArgs) (t : Task) (p : Pid) (t' : Task) (p' : Pid) :
    Prop where
  pid : t'.pid = t.pid
  sid : t'.sid = (t.session args.attr).sid
  pgid : t'.pgid = (t.session args.attr).group args.attr
  group : args.attr.has POSIX_SPAWN_SETPGROUP = true → args.attr.pgrp ≠ 0 →
    a.group args.attr.pgrp = true
  tty : p' = if args.attr.has POSIX_SPAWN_TCSETPGROUP then t'.pgid else p
  handlers : ∀ sig, 1 ≤ sig → sig < NSIG →
    t'.actions.get sig = startHandler args.attr sig (t.actions.get sig)
  policy : t'.policy = (t.scheduled args.attr).policy
  param : t'.param = (t.scheduled args.attr).param
  uid : t'.uid = t.uid ∧ t'.euid = if args.attr.has POSIX_SPAWN_RESETIDS then t.uid else t.euid
  gid : t'.gid = t.gid ∧ t'.egid = if args.attr.has POSIX_SPAWN_RESETIDS then t.gid else t.egid
  files : effects 0 t.files (args.fa.getD []) = some t'.files

/-- All that is handled is blocked, and reset. -/
theorem resetHandler_masked {sig : Nat} (ht : t.Masked) (hlo : 1 ≤ sig) (hhi : sig < NSIG) :
    resetHandler attr t.mask.blocked sig (t.actions.get sig) =
      startHandler attr sig (t.actions.get sig) := by
  unfold resetHandler startHandler
  cases hr : isReserved sig with
  | false => simp [ht sig hlo hhi hr]
  | true => simp [t.actions.reserved sig hr]

theorem startHandler_ne (attr : SpawnAttr) (sig : Nat) (h : Handler) (f : Nat) :
    startHandler attr sig h ≠ .handler f := by
  unfold startHandler
  split_ifs <;> simp

theorem setUpChild_setsUp {args : SpawnArgs}
    (hmay : args.attr.has POSIX_SPAWN_TCSETPGROUP = true →
      may ((t.session args.attr).group args.attr)) :
    SetsUp may (setUpChild a args) t p fun _ t' p' => IsSetUp a args t p t' p' := by
  refine query_setsUp.bind ?_
  rintro _ t' p' ⟨rfl, rfl⟩
  refine .get fun w hw ht hp => ?_
  subst ht hp
  have hmasked := hw.masked
  generalize w.task = t at *
  generalize w.ttyPgrp = p at *
  refine (resetSignals_setsUp _).bind ?_
  rintro _ t' p' ⟨rfl, actions, rfl, hactions⟩
  refine setScheduler_setsUp.bind ?_
  rintro _ t' p' ⟨rfl, rfl⟩
  refine setSession_setsUp.bind ?_
  rintro _ t' p' ⟨rfl, rfl⟩
  refine setGroup_setsUp.bind ?_
  rintro _ t' p' ⟨rfl, rfl, hgroup⟩
  refine (setTerminal_setsUp hmay fun hset => ?_).bind ?_
  · obtain ⟨hset, hne⟩ := Bool.and_eq_true_iff.1 hset
    have hpgrp : args.attr.pgrp ≠ 0 := by simpa using hne
    simp [Task.group, hset, hpgrp]
  rintro _ t' p' ⟨rfl, rfl⟩
  refine resetIds_setsUp.bind ?_
  rintro _ t' p' ⟨rfl, rfl⟩
  have hhandlers : ∀ sig, 1 ≤ sig → sig < NSIG →
      actions.get sig = startHandler args.attr sig (t.actions.get sig) := by
    intro sig hlo hhi
    rw [hactions, if_pos (List.mem_range'_1.2 ⟨hlo, by simpa [NSIG] using hhi⟩)]
    exact resetHandler_masked hmasked hlo hhi
  cases hfa : args.fa with
  | none =>
    refine .pure ⟨rfl, rfl, rfl, hgroup, rfl, hhandlers, rfl, rfl, ⟨rfl, rfl⟩, ⟨rfl, rfl⟩, ?_⟩
    rw [hfa]
    rfl
  | some actions =>
    refine (executeActions_setsUp actions).mono ?_
    rintro _ t' p' ⟨rfl, ⟨fds, cwd, rfl⟩, heffects⟩
    refine ⟨rfl, rfl, rfl, hgroup, rfl, hhandlers, rfl, rfl, ⟨rfl, rfl⟩, ⟨rfl, rfl⟩, ?_⟩
    rw [hfa]
    exact heffects

theorem exec_get (actions : SignalActions) (sig : Nat) :
    actions.exec.get sig = if actions.get sig = .ign then .ign else .dfl := by
  unfold SignalActions.exec
  dsimp only
  cases actions.get sig <;> rfl

/-- The program that a child becomes by `exec`. -/
def Task.started (args : SpawnArgs) (t : Task) : Task :=
  { t with
    mask := if args.attr.has POSIX_SPAWN_SETSIGMASK then .ofSet args.attr.ss else args.oldmask
    actions := t.actions.exec
    fds := t.fds.exec }

/-- How a child can end that was `t` at first, with the terminal at `p`. -/
structure ChildEnds (a : Answers) (args : SpawnArgs) (may : Pid → Prop) (t : Task) (p : Pid)
    (stop : Stop) (w : World) : Prop where
  log : ∀ t ∈ w.log, t.Quiet
  tty : may w.ttyPgrp
  ends : (stop = .execed ∧ w.err = 0 ∧
      ∃ t', IsSetUp a args t p t' w.ttyPgrp ∧ w.task = t'.started args) ∨
    (stop = .exited SPAWN_ERROR ∧ w.err ≠ 0) ∨ ∃ sig, stop = .killed sig

/-- What the child looks like when `exec` is called: nothing it still handles is unblocked. -/
theorem IsSetUp.noHandler {args : SpawnArgs} (h : IsSetUp a args t p t' p') : t'.NoHandler := by
  intro sig hlo hhi f
  rw [h.handlers sig hlo hhi]
  exact startHandler_ne _ _ _ f

/-- Signals are unblocked once nothing is handled any more. -/
theorem sigprocmask_leads {m : SignalMask → SignalMask} (h : w.Calm may)
    (hn : w.task.NoHandler) :
    Leads (sigprocmask a m) w
      (fun _ w' => w'.Calm may ∧ w'.err = w.err ∧ w'.ttyPgrp = w.ttyPgrp ∧
        w'.task = { w.task with mask := m w.task.mask })
      (fun stop w' => w'.Calm may ∧ w'.err = w.err ∧ ∃ sig, stop = .killed sig) := by
  refine h.enter.bind ?_
  rintro _ w' ⟨hcalm, rfl⟩
  have hquiet : Task.Quiet { w.task with mask := m w.task.mask } := Task.NoHandler.quiet hn
  exact .update ⟨⟨hquiet, hcalm.log, h.tty⟩, rfl, rfl, rfl⟩

theorem exec_leads (h : w.Calm may) (herr : w.err = 0) :
    Leads (exec a) w (fun _ w' => w'.Calm may ∧ w'.err = 0)
      (fun stop w' => (∀ t ∈ w'.log, t.Quiet) ∧ may w'.ttyPgrp ∧
        ((stop = .execed ∧ w'.err = 0 ∧ w'.ttyPgrp = w.ttyPgrp ∧
          w'.task = { w.task with fds := w.task.fds.exec, actions := w.task.actions.exec }) ∨
        ∃ sig, stop = .killed sig)) := by
  refine (h.enter.mono (fun _ _ h => h) fun stop w' h => ?_).bind ?_
  · exact ⟨h.1.log, h.1.tty, .inr h.2.2⟩
  · rintro n w' ⟨hcalm, rfl⟩
    unfold Leads
    dsimp only [bind, EStateM.bind, get, getThe, MonadStateOf.get, EStateM.get]
    cases a.fails n with
    | none => exact ⟨hcalm.log, h.tty, .inl ⟨rfl, herr, rfl, rfl⟩⟩
    | some e => exact ⟨⟨h.task, hcalm.log, h.tty⟩, herr⟩

theorem childBody_leads {args : SpawnArgs} (hw : w.Setting may)
    (hmay : args.attr.has POSIX_SPAWN_TCSETPGROUP = true →
      may ((w.task.session args.attr).group args.attr)) :
    Leads (childBody a args) w (fun _ w' => w'.Calm may ∧ w'.err = 0)
      (fun stop w' => ChildEnds a args may w.task w.ttyPgrp stop w' ∨ Aborted may stop w') := by
  have hsetUp := setUpChild_setsUp (a := a) hmay w hw rfl rfl
  refine (hsetUp.mono (fun _ _ h => h) fun _ _ h => .inr h).bind ?_
  rintro _ w₁ ⟨hw₁, hset⟩
  refine ((sigprocmask_leads hw₁.calm hset.noHandler).mono (fun _ _ h => h) ?_).bind ?_
  · rintro stop w₂ ⟨hcalm, herr, hstop⟩
    exact .inr ⟨.inr hstop, hcalm, herr.trans hw₁.err⟩
  · rintro _ w₂ ⟨hcalm, herr, htty, htask⟩
    refine (exec_leads hcalm (herr.trans hw₁.err)).mono (fun _ _ h => h) ?_
    rintro stop w₃ ⟨hlog, hmay, ⟨rfl, herr, htty', htask'⟩ | hstop⟩
    · refine .inl ⟨hlog, hmay, .inl ⟨rfl, herr, w₁.task, ?_, ?_⟩⟩
      · rwa [htty', htty]
      · rw [htask', htask]
        rfl
    · exact .inl ⟨hlog, hmay, .inr (.inr hstop)⟩

theorem childFail_leads {args : SpawnArgs} {Q : Unit → World → Prop} (h : w.Calm may) :
    Leads (childFail a) w Q (ChildEnds a args may t p) := by
  have hcalm : World.Calm may { w with err := if w.errno ≠ 0 then w.errno else ECHILD } :=
    ⟨h.task, h.log, h.tty⟩
  have herr : (if w.errno ≠ 0 then w.errno else ECHILD) ≠ 0 := by
    split
    · assumption
    · decide
  refine Leads.bind
    (Q := fun _ w' => w' = { w with err := if w.errno ≠ 0 then w.errno else ECHILD })
    (.update rfl) ?_
  rintro _ w₁ rfl
  refine (hcalm.enter.mono (fun _ _ h => h) ?_).bind ?_
  · rintro stop w₂ ⟨hcalm, -, hstop⟩
    exact ⟨hcalm.log, hcalm.tty, .inr (.inr hstop)⟩
  · rintro _ w₂ ⟨hcalm, rfl⟩
    exact .throw ⟨hcalm.log, hcalm.tty, .inr (.inl ⟨rfl, herr⟩)⟩

theorem spawniChild_leads {args : SpawnArgs} (hw : w.Setting may)
    (hmay : args.attr.has POSIX_SPAWN_TCSETPGROUP = true →
      may ((w.task.session args.attr).group args.attr)) :
    Leads (spawniChild a args) w (fun _ _ => False) (ChildEnds a args may w.task w.ttyPgrp) := by
  refine Leads.bind (Q := fun _ w' => w'.Calm may) ?_ fun _ _ => childFail_leads
  refine ((childBody_leads hw hmay).mono (fun _ _ h => h.1) fun _ _ h => h).tryCatch ?_
  rintro stop w' (hends | ⟨rfl | ⟨sig, rfl⟩, hcalm, herr⟩)
  · have hne : stop ≠ .fail := by
      rintro rfl
      rcases hends.ends with ⟨he, -⟩ | ⟨he, -⟩ | ⟨_, he⟩ <;> cases he
    rw [if_pos hne]
    exact .throw hends
  · exact .pure hcalm
  · exact .throw ⟨hcalm.log, hcalm.tty, .inr (.inr ⟨sig, rfl⟩)⟩

end Cush.Spawni
