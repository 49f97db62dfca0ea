import Cush.Shell.Verify.Counting
import Cush.Shell.Verify.Foreground
import Cush.Shell.Verify.Leaders

/-!
# The terminal

The first process of a pipeline in the foreground takes the terminal (`spawnOk` leaves out that it
is killed before), and `fg` gives it to a job. The shell takes it back where a status ends the time
of the job in the foreground, and once more after `wait_for_job`, before it goes on with the line.
So it has the terminal, with its own settings and with no signal blocked, whenever it reads a line.
-/

namespace Cush

/-- Whether the main program has blocked `SIGTTOU`. -/
def Pc.blocksTtou : Pc → Bool
  | .give .block _ => false
  | .give .. => true
  | _ => false

/-- Whether the terminal can belong to a job, and the main program is going to take it back. -/
def Pc.owes : Pc → Bool
  | .setUp _ | .spawn .. | .closeFds .. | .waitForJob _ | .unblockSigchld | .fgBlock _
  | .give .unblock (.job ..) | .give .block .shell | .give .setPgrp .shell
  | .give .restore _ => true
  | pc => !pc.live

/-- The job that has been given the terminal, until `wait_for_job` is through. -/
def Pc.fronts : Pc → Option Nat
  | .waitForJob jid | .fgBlock jid => some jid
  | .give .restore (.job jid _) | .give .unblock (.job jid _) => some jid
  | _ => none

namespace State

variable {s t : State} {e : Event} {ok : State → Event → Bool}

/-! ## `SIGTTOU` -/

structure Shielded (s : State) : Prop where
  handler : ∀ {m}, s.handler = some m → s.pc.live = true → m.sigttou = s.pc.blocksTtou
  main : s.handler = none → s.pc.live = true → s.mask.sigttou = s.pc.blocksTtou
  blocked : s.setUnblocked = false

theorem Shielded.of_main (hh : t.handler = none) (hm : t.mask.sigttou = t.pc.blocksTtou)
    (hu : t.setUnblocked = false) : t.Shielded :=
  ⟨fun hs => (nomatch hh.symm.trans hs), fun _ _ => hm, hu⟩

theorem Shielded.of_dead (hd : t.pc.live = false) (hu : t.setUnblocked = false) : t.Shielded :=
  ⟨fun _ hl => (nomatch hd.symm.trans hl), fun _ hl => (nomatch hd.symm.trans hl), hu⟩

theorem DispatchTo.blocksTtou {jid2job : SlotTable Job} {node : PipeNode} {pc : Pc}
    (h : DispatchTo jid2job node pc) : pc.blocksTtou = false := by
  cases h <;> rfl

theorem Shielded.move (h : s.Shielded) (hM : s.Masked) (hl : s.pc.live = true) (hm : Move s e t) :
    t.Shielded := by
  cases hm with
  | child | sigchld | setAttr | others => exact ⟨h.handler, h.main, h.blocked⟩
  | handlerStart hh hm =>
    refine ⟨fun hs hl => ?_, fun hs => (nomatch hs), h.blocked⟩
    cases hs
    exact h.main hh hl
  | handlerReturn hh hr => exact .of_main rfl (h.handler hh hl) h.blocked
  | handled out hwait hm hw hj hg =>
    refine ⟨h.handler, fun hh hl => ?_, h.blocked⟩
    rcases hM.waiting hwait with ⟨hs, -⟩ | ⟨-, jid, hp⟩
    · rw [hh] at hs
      cases hs
    · have hmask := h.main hh hl
      change (if _ then false else s.mask.sigttou) = s.pc.blocksTtou
      rw [hmask, hp]
      split <;> rfl
  | lost | unblocked | eof | crash | abort | waitFatal | giveFatal => exact .of_dead rfl h.blocked
  | dispatch out hh hp hl' ht =>
    have hmask := h.main hh hl
    rw [hp] at hmask
    exact .of_main hh (hmask.trans ht.blocksTtou.symm) h.blocked
  | @deadEnd i exiting hh hp =>
    have hmask := h.main hh hl
    rw [hp] at hmask
    cases exiting with
    | true => exact .of_dead rfl h.blocked
    | false => exact .of_main hh hmask h.blocked
  | lineEmpty out hh => exact .of_main hh (h.main hh hl) h.blocked
  | giveJob hh hp | giveShell hh hp | giveRestore hh hp =>
    have hmask := h.main hh hl
    rw [hp] at hmask
    refine .of_main hh hmask ?_
    change (s.setUnblocked || !s.mask.sigttou) = false
    rw [h.blocked, hmask]
    rfl
  | giveBlock hh | gaveJob hh | gaveShell hh => exact .of_main hh rfl h.blocked
  | _ =>
    have hh : s.handler = none := by assumption
    have hmask := h.main hh hl
    rw [‹s.pc = _›] at hmask
    exact .of_main hh hmask h.blocked

theorem Run.shielded (hr : Run ok s) : s.Shielded := by
  refine Lts.Reach.invariant (I := State.Shielded) ?_ ?_ hr
  · rintro s ⟨shellPgrp, attr, openMax, -, rfl⟩
    exact .of_main rfl rfl rfl
  · intro s e t hr hI _ hs
    exact hI.move (Run.masked hr) (step_move hs).1 (step_move hs).2

/-! ## The shell has the terminal back -/

structure HasTerminal (s : State) : Prop where
  owner : s.pc.owes = false → s.ttyPgrp = s.shellPgrp
  restoring : s.pc = .give .restore .shell → s.ttyPgrp = s.shellPgrp
  attr : s.pc.owes = false → s.ttyAttr = s.savedTtyState

/-- In the foreground group of the shell there is no other process. -/
theorem not_inForeground (h : s.Grouped) (ho : s.ttyPgrp = s.shellPgrp) (pid : Pid) :
    s.inForeground pid = false := by
  unfold inForeground
  rw [ho]
  have hany : s.procs.any (fun p => p.pid = pid ∧ p.pgid = s.shellPgrp ∧ p.state = .running) =
      false := by
    refine List.any_eq_false.2 fun p hp => ?_
    have hne := h.shell p.child (children_mem hp)
    simp only [decide_eq_true_eq]
    exact fun hc => hne hc.2.1
  rw [hany]
  simp

theorem DispatchTo.not_owes {jid2job : SlotTable Job} {node : PipeNode} {pc : Pc}
    (h : DispatchTo jid2job node pc) : pc.owes = false ∧ pc ≠ .give .restore .shell := by
  cases h <;> exact ⟨rfl, fun h => nomatch h⟩

theorem HasTerminal.of_owes (h : t.pc.owes = true) (hr : t.pc ≠ .give .restore .shell) :
    t.HasTerminal :=
  ⟨fun ho => (nomatch h.symm.trans ho), fun hp => absurd hp hr, fun ho => (nomatch h.symm.trans ho)⟩

/-- A step that leaves the terminal alone. -/
theorem HasTerminal.keep (h : s.HasTerminal) (hs : s.pc.owes = false)
    (hr : t.pc ≠ .give .restore .shell) (ho : t.ttyPgrp = s.ttyPgrp) (ha : t.ttyAttr = s.ttyAttr)
    (hp : t.shellPgrp = s.shellPgrp) (hsave : t.savedTtyState = s.savedTtyState) :
    t.HasTerminal := by
  refine ⟨fun _ => ?_, fun hp => absurd hp hr, fun _ => ?_⟩
  · rw [ho, hp]
    exact h.owner hs
  · rw [ha, hsave]
    exact h.attr hs

theorem HasTerminal.move (h : s.HasTerminal) (hG : s.Grouped) (hm : Move s e t) :
    t.HasTerminal := by
  cases hm with
  | child | sigchld | others | handlerStart | handlerReturn | lineEmpty =>
    exact ⟨h.owner, h.restoring, h.attr⟩
  | setAttr hf =>
    refine ⟨h.owner, h.restoring, fun ho => ?_⟩
    rw [not_inForeground hG (h.owner ho)] at hf
    cases hf
  | handled out hwait hm hw hj hg =>
    refine ⟨fun ho => ?_, fun hp => ?_, fun ho => ?_⟩
    · exact (ite_eq_left_iff.2 fun _ => h.owner ho)
    · exact (ite_eq_left_iff.2 fun _ => h.restoring hp)
    · exact (ite_eq_left_iff.2 fun _ => h.attr ho)
  | dispatch out hh hp hl ht =>
    exact h.keep (by rw [hp]; rfl) ht.not_owes.2 rfl rfl rfl rfl
  | @deadEnd i exiting hh hp =>
    refine h.keep (by rw [hp]; rfl) ?_ rfl rfl rfl rfl
    cases exiting <;> exact fun h => nomatch h
  | @giveBlock target hh hp =>
    cases target with
    | job => exact h.keep (by rw [hp]; rfl) (fun h => nomatch h) rfl rfl rfl rfl
    | shell => exact .of_owes rfl fun h => nomatch h
  | giveShell hh hp => exact ⟨fun ho => (nomatch ho), fun _ => rfl, fun ho => (nomatch ho)⟩
  | @giveRestore target hh hp =>
    cases target with
    | job => exact .of_owes rfl fun h => nomatch h
    | shell => exact ⟨fun _ => h.restoring hp, fun h => (nomatch h), fun _ => rfl⟩
  | lost | unblocked | eof | crash | abort | addJob | setUp | spawned | spawnFailed | setUpEnd
  | closeFdsWait | closeFds | waitEnd | waitFatal | unblockSigchld | giveJob | giveFatal | gaveJob
  | fgBlock => exact .of_owes rfl fun h => nomatch h
  | _ =>
    refine h.keep ?_ (fun h => nomatch h) rfl rfl rfl rfl
    rw [‹s.pc = _›]
    rfl

theorem Run.hasTerminal (hr : Run ok s) : s.HasTerminal := by
  refine Lts.Reach.invariant (I := State.HasTerminal) ?_
    (fun _ _ _ hr hI _ hs => hI.move (Run.grouped hr) (step_move hs).2) hr
  rintro s ⟨shellPgrp, attr, openMax, -, rfl⟩
  exact ⟨fun _ => rfl, fun _ => rfl, fun _ => rfl⟩

/-! ## A pipeline in the foreground takes the terminal -/

/-- A job that is started in the foreground has the terminal as soon as it has a process. -/
def Opening (s : State) : Prop :=
  ∀ node jid job, s.pc.starting = some (node, jid) → node.pipe.bgJob = false →
    s.jid2job.get jid = some job → job.pids ≠ [] → s.ttyPgrp = job.pgid

theorem Opening.of_none (h : t.pc.starting = none) : t.Opening :=
  fun _ _ _ hp => nomatch h.symm.trans hp

/-- The first process of a pipeline in the foreground takes the terminal. -/
theorem Opening.spawned {ctx : SpawnCtx} {fa : FileActions} {cmd : AstCommand}
    {rest : List AstCommand} {job : Job} {pid : Pid} (h : s.Opening) (hr : Run ok s)
    (hp : s.pc = .spawn ctx fa) (hg : s.jid2job.get ctx.jid = some job) :
    (s.spawnOk ctx cmd rest job pid).Opening := by
  intro node jid job' hst hb hget hne
  cases hst
  have hspawn : s.pc.spawning = some ctx := by rw [hp]; rfl
  obtain ⟨old, hold, ha⟩ := hr.spawning ctx hspawn
  cases hg.symm.trans hold
  have hleader := (hr.leading ctx hspawn).leader
  have htakes : takesTerminal ctx = ctx.spawned.isEmpty := by
    unfold takesTerminal
    rw [hleader, hb, Bool.not_false, Bool.and_true]
  have hjob : job' = { job with
      pgid := if ctx.spawned.isEmpty then pid else job.pgid
      pids := job.pids ++ [pid], numProcessesAlive := job.numProcessesAlive + 1 } :=
    Option.some.inj (hget.symm.trans (SlotTable.get_modify_self hg _))
  subst hjob
  change (if takesTerminal ctx then _ else s.ttyPgrp) =
    if ctx.spawned.isEmpty then pid else job.pgid
  rw [htakes]
  by_cases hsp : ctx.spawned = []
  · simp [hsp, ha.zero.2 hsp]
  · have hempty : ctx.spawned.isEmpty = false := List.isEmpty_eq_false_iff.2 hsp
    rw [hempty]
    exact h _ _ _ (by rw [hp]; rfl) hb hg fun hnil => hsp (ha.pids.1 hnil)

theorem Opening.move (h : s.Opening) (hr : Run ok s) (hm : Move s e t) : t.Opening := by
  cases hm with
  | child | sigchld | setAttr | others | handlerStart | handlerReturn | lineEmpty => exact h
  | handled out hwait => exact .of_none (hr.masked.starting hwait)
  | dispatch out hh hp hl ht => exact .of_none ht.starting
  | @deadEnd i exiting => cases exiting <;> exact .of_none rfl
  | addJob hh hp hj hlt hjob =>
    intro node jid job hst _ hget hne
    cases hst
    rw [SlotTable.get_set_self] at hget
    cases hget
    subst hjob
    exact absurd rfl hne
  | setUp hh hp | setUpEnd hh hp =>
    intro node jid job hst hb hget hne
    cases hst
    exact h _ _ _ (by rw [hp]; rfl) hb hget hne
  | spawned hh hp ht hg => exact h.spawned hr hp hg
  | _ => exact .of_none rfl

theorem Run.opening (hr : Run ok s) : s.Opening := by
  refine Lts.Reach.invariant (I := fun s : State => s.Opening) ?_
    (fun _ _ _ hr hI _ hs => hI.move hr (step_move hs).2) hr
  rintro s ⟨shellPgrp, attr, openMax, -, rfl⟩
  exact .of_none rfl

/-- Its processes are in the group that has the terminal then. -/
theorem Run.started_ttyPgrp (hr : Run ok s) {node : PipeNode} {jid : Nat} {job : Job}
    (hp : s.pc.starting = some (node, jid)) (hb : node.pipe.bgJob = false)
    (hg : s.jid2job.get jid = some job) {p : Proc} (hmem : p ∈ s.procs)
    (ho : p.owner = job.serial) : s.ttyPgrp = p.pgid := by
  obtain ⟨hpid, hpgid⟩ := hr.sound.recorded _ (children_mem hmem) (account_of_get hg) ho.symm
  refine (hr.opening node jid job hp hb hg ?_).trans hpgid.symm
  exact List.ne_nil_of_mem hpid

/-- While a job is started in the background, the shell has the terminal. -/
def Retaining (s : State) : Prop :=
  ∀ node jid, s.pc.starting = some (node, jid) → node.pipe.bgJob = true →
    s.ttyPgrp = s.shellPgrp

theorem Retaining.of_none (h : t.pc.starting = none) : t.Retaining :=
  fun _ _ hp => nomatch h.symm.trans hp

theorem Retaining.move (h : s.Retaining) (hr : Run ok s) (hm : Move s e t) : t.Retaining := by
  cases hm with
  | child | sigchld | setAttr | others | handlerStart | handlerReturn | lineEmpty => exact h
  | handled out hwait => exact .of_none (hr.masked.starting hwait)
  | dispatch out hh hp hl ht => exact .of_none ht.starting
  | @deadEnd i exiting => cases exiting <;> exact .of_none rfl
  | addJob hh hp => exact fun _ _ _ _ => hr.hasTerminal.owner (by rw [hp]; rfl)
  | setUp hh hp | setUpEnd hh hp =>
    intro node jid hst hb
    cases hst
    exact h _ _ (by rw [hp]; rfl) hb
  | @spawned ctx fa cmd rest job pid hh hp =>
    intro node jid hst hb
    cases hst
    have hkept : takesTerminal ctx = false := by
      unfold takesTerminal
      rw [hb, Bool.not_true, Bool.and_false]
    change (if takesTerminal ctx then _ else s.ttyPgrp) = s.shellPgrp
    rw [hkept]
    exact h _ _ (by rw [hp]; rfl) hb
  | _ => exact .of_none rfl

theorem Run.retaining (hr : Run ok s) : s.Retaining := by
  refine Lts.Reach.invariant (I := fun s : State => s.Retaining) ?_
    (fun _ _ _ hr hI _ hs => hI.move hr (step_move hs).2) hr
  rintro s ⟨shellPgrp, attr, openMax, -, rfl⟩
  exact .of_none rfl

/-! ## The job in the foreground has the terminal -/

structure Fronted (s : State) : Prop where
  named : ∀ {stage jid pgrp job}, s.pc = .give stage (.job jid pgrp) →
    s.jid2job.get jid = some job → pgrp = job.pgid
  starting : ∀ {node jid job}, s.pc.starting = some (node, jid) → node.pipe.bgJob = false →
    s.jid2job.get jid = some job → job.pids ≠ [] → s.ttyPgrp = job.pgid
  waiting : ∀ {jid job}, s.pc.fronts = some jid → s.jid2job.get jid = some job →
    keepsWaiting job = true → s.ttyPgrp = job.pgid

theorem Fronted.of_none (hn : ∀ stage jid pgrp, t.pc ≠ .give stage (.job jid pgrp))
    (hs : t.pc.starting = none) (hf : t.pc.fronts = none) : t.Fronted :=
  ⟨fun hp => absurd hp (hn _ _ _), fun hp => (nomatch hs.symm.trans hp),
    fun hp => (nomatch hf.symm.trans hp)⟩

theorem onJob_of_fronts {pc : Pc} {jid : Nat} (h : pc.fronts = some jid) :
    pc.onJob = some jid := by
  cases pc with
  | waitForJob | fgBlock => exact h
  | give stage target =>
    cases stage <;> cases target <;> first | exact h | cases h
  | _ => cases h

/-- A job that counts a process has recorded its pid. -/
theorem pids_ne_nil (hs : s.ledger.Sound) {jid : Nat} {job : Job}
    (hg : s.jid2job.get jid = some job) (hc : job.numProcessesAlive = s.unreaped job.serial)
    (hk : keepsWaiting job = true) : job.pids ≠ [] := by
  intro hnil
  have hzero := unreaped_eq_zero hs hg hnil
  have halive := (keepsWaiting_iff.1 hk).2
  rw [unreaped_ledger] at hzero
  omega

/-- Where a status of a process takes the terminal from a job, this is the job in the foreground. -/
theorem keepsWaiting_of_givesBack (hr : Run noReuse s) {pid jid : Nat} {status : WaitStatus}
    {procs : List Proc} {job : Job} (hw : waitpid s.procs pid = some (status, procs))
    (hj : getJobFromPid s.jid2job pid = some jid) (hg : s.jid2job.get jid = some job)
    (hb : job.givesBack status = true) : keepsWaiting job = true := by
  obtain ⟨p, hp, rfl, -⟩ := waitpid_cases hw
  have howner := hr.balanced.owned p.child (children_mem hp) (account_of_get hg)
    (mem_pids_of_find hj hg)
  have hpos : 0 < s.unreaped job.serial :=
    List.countP_pos_iff.2 ⟨p, hp, decide_eq_true howner.symm⟩
  have hcount := hr.counts hg
  apply keepsWaiting_iff.2
  refine ⟨?_, by omega⟩
  cases status with
  | stopped sig => exact of_decide_eq_true hb
  | terminated st => exact (of_decide_eq_true hb).1

/-- After such a status the job is no longer waited for. -/
theorem not_keepsWaiting_of_givesBack {job : Job} {attr : Termios} {status : WaitStatus}
    (hb : job.givesBack status = true) : keepsWaiting (job.handled attr status) = false := by
  cases hk : keepsWaiting (job.handled attr status) with
  | false => rfl
  | true =>
    exfalso
    obtain ⟨hst, halive⟩ := keepsWaiting_iff.1 hk
    rcases status with (code | sig) | sig
    · have h1 := (of_decide_eq_true hb).2
      simp only [Job.handled, h1] at halive
      omega
    · have h1 := (of_decide_eq_true hb).2
      simp only [Job.handled, h1] at halive
      omega
    · simp only [Job.handled] at hst
      split at hst <;> cases hst

/-- A status is taken up. -/
theorem Fronted.handled (h : s.Fronted) (hr : Run noReuse s) (hl : s.pc.live = true) {pid : Pid}
    {status : WaitStatus} {procs : List Proc} {jid : Nat} {job : Job} (hwait : s.Waiting e pid)
    (hw : waitpid s.procs pid = some (status, procs))
    (hj : getJobFromPid s.jid2job pid = some jid) (hg : s.jid2job.get jid = some job)
    (hp : t.pc = s.pc)
    (ht : t.jid2job = s.jid2job.set jid (some (job.handled s.ttyAttr status)))
    (ho : t.ttyPgrp = if job.givesBack status then s.shellPgrp else s.ttyPgrp) : t.Fronted := by
  -- a job is there before, with the same group, and was waited for if it is
  have back : ∀ {jid' job'}, t.jid2job.get jid' = some job' → ∃ old,
      s.jid2job.get jid' = some old ∧ old.pgid = job'.pgid ∧
        (keepsWaiting job' = true → keepsWaiting old = true) := by
    intro jid' job' hget
    rw [ht] at hget
    rcases SlotTable.get_set_eq_some.1 hget with ⟨rfl, hnew⟩ | ⟨-, hold⟩
    · cases hnew
      exact ⟨job, hg, (job.handled_pgid _ _).symm, keepsWaiting_handled⟩
    · exact ⟨job', hold, rfl, id⟩
  constructor
  · intro stage jid' pgrp job' hpc hget
    obtain ⟨old, hold, hpgid, -⟩ := back hget
    rw [← hpgid]
    exact h.named (hp ▸ hpc) hold
  · intro node jid' job' hst
    rw [hp, hr.masked.starting hwait] at hst
    cases hst
  · intro jid' job' hf hget hk
    obtain ⟨old, hold, hpgid, hkold⟩ := back hget
    rw [hp] at hf
    rw [ho, ← hpgid]
    by_cases hb : job.givesBack status = true
    · exfalso
      have hon := hr.attended jid job hg (keepsWaiting_of_givesBack hr hw hj hg hb) hl
      rw [onJob_of_fronts hf] at hon
      cases hon
      rw [ht, SlotTable.get_set_self] at hget
      cases hget
      rw [not_keepsWaiting_of_givesBack hb] at hk
      cases hk
    · rw [if_neg hb]
      exact h.waiting hf hold (hkold hk)

theorem DispatchTo.fronts {jid2job : SlotTable Job} {node : PipeNode} {pc : Pc}
    (h : DispatchTo jid2job node pc) :
    pc.fronts = none ∧ ∀ stage jid pgrp, pc ≠ .give stage (.job jid pgrp) := by
  cases h <;> exact ⟨rfl, fun _ _ _ h => nomatch h⟩

theorem Fronted.move (h : s.Fronted) (hr : Run noReuse s) (hl : s.pc.live = true)
    (ho : t.Opening) (hm : Move s e t) : t.Fronted := by
  cases hm with
  | child | sigchld | setAttr | others | handlerStart | handlerReturn | lineEmpty =>
    exact ⟨h.named, h.starting, h.waiting⟩
  | handled out hwait hm hw hj hg => exact h.handled hr hl hwait hw hj hg rfl rfl rfl
  | dispatch out hh hp hl' ht => exact .of_none ht.fronts.2 ht.starting ht.fronts.1
  | @deadEnd i exiting => cases exiting <;> exact .of_none (fun _ _ _ h => nomatch h) rfl rfl
  | fgCont hh hp hg =>
    refine ⟨fun hpc hget => ?_, fun hst => (nomatch hst), fun hf => (nomatch hf)⟩
    cases hpc
    cases hg.symm.trans hget
    rfl
  | @giveBlock target hh hp =>
    refine ⟨fun hpc hget => ?_, fun hst => (nomatch hst), fun hf => (nomatch hf)⟩
    cases hpc
    exact h.named hp hget
  | giveJob hh hp =>
    refine ⟨fun hpc hget => ?_, fun hst => (nomatch hst), fun hf hget _ => ?_⟩
    · cases hpc
      exact h.named hp hget
    · cases hf
      exact h.named hp hget
  | @giveRestore target hh hp =>
    cases target with
    | job jid pgrp =>
      refine ⟨fun hpc hget => ?_, fun hst => (nomatch hst), fun hf hget hk => ?_⟩
      · cases hpc
        exact h.named hp hget
      · cases hf
        exact h.waiting (by rw [hp]; rfl) hget hk
    | shell => exact .of_none (fun _ _ _ h => nomatch h) rfl rfl
  | gaveJob hh hp | fgBlock hh hp =>
    refine ⟨fun hpc => (nomatch hpc), fun hst => (nomatch hst), fun hf hget hk => ?_⟩
    cases hf
    exact h.waiting (by rw [hp]; rfl) hget hk
  | addJob | setUp | setUpEnd | spawned =>
    exact ⟨fun hpc => (nomatch hpc), ho _ _ _, fun hf => (nomatch hf)⟩
  | closeFdsWait openFds hh hp hb =>
    refine ⟨fun hpc => (nomatch hpc), fun hst => (nomatch hst), fun hf hget hk => ?_⟩
    cases hf
    exact h.starting (by rw [hp]; rfl) hb hget (pids_ne_nil hr.sound hget (hr.counts hget) hk)
  | _ => exact .of_none (fun _ _ _ h => nomatch h) rfl rfl

theorem Run.fronted (hr : Run noReuse s) : s.Fronted := by
  refine Lts.Reach.invariant (I := State.Fronted) ?_ ?_ hr
  · rintro s ⟨shellPgrp, attr, openMax, -, rfl⟩
    exact .of_none (fun _ _ _ h => nomatch h) rfl rfl
  · intro s e t hr hI hok hs
    exact hI.move hr (step_move hs).1 (Run.opening (.step hr hok hs)) (step_move hs).2

/-! ## Since another group had the terminal -/

/-- The path has a step that restores the settings, and the shell has had the terminal since. -/
def RestoredSince (l : List (State × Event)) : Prop :=
  ∃ l₁ u l₂, l = l₁ ++ (u, Event.main) :: l₂ ∧ u.pc = .give .restore .shell ∧
    ∀ x ∈ l₂, x.1.ttyPgrp = x.1.shellPgrp

/-- The terminal is not done with before the settings are restored. -/
theorem owes_move (ho : s.pc.owes = true) (hm : Move s e t) :
    t.pc.owes = true ∨ (e = .main ∧ s.pc = .give .restore .shell) := by
  cases hm with
  | child | sigchld | setAttr | others | handlerStart | handlerReturn | lineEmpty | handled =>
    exact Or.inl ho
  | @giveRestore target hh hp =>
    cases target with
    | job => exact Or.inl rfl
    | shell => exact Or.inr ⟨rfl, hp⟩
  | @giveBlock target hh hp =>
    rw [hp] at ho
    cases target with
    | job => cases ho
    | shell => exact Or.inl rfl
  | dispatch out hh hp =>
    rw [hp] at ho
    cases ho
  | deadEnd hh hp =>
    rw [hp] at ho
    cases ho
  | lost | unblocked | eof | crash | abort | addJob | setUp | spawned | spawnFailed | setUpEnd
  | closeFdsWait | closeFds | waitEnd | waitFatal | unblockSigchld | giveJob | giveFatal | gaveJob
  | giveShell | fgBlock => exact Or.inl rfl
  | _ =>
    rw [‹s.pc = _›] at ho
    cases ho

theorem Path.restored (hr : Run ok s) {l : List (State × Event)} (hp : Path ok s l t)
    (ho : s.ttyPgrp ≠ s.shellPgrp) :
    t.pc.owes = true ∨ (RestoredSince l ∧ t.ttyPgrp = t.shellPgrp) := by
  induction hp with
  | nil =>
    left
    cases howes : s.pc.owes with
    | true => rfl
    | false => exact absurd (hr.hasTerminal.owner howes) ho
  | @snoc l t u e hpath hok hs ih =>
    have ht : Run ok t := Lts.Path.reach hpath hr
    have hu : Run ok u := .step ht hok hs
    cases howes : u.pc.owes with
    | true => exact Or.inl rfl
    | false =>
      right
      refine ⟨?_, hu.hasTerminal.owner howes⟩
      rcases ih with hold | ⟨⟨l₁, v, l₂, rfl, hv, hall⟩, hown⟩
      · rcases owes_move hold (step_move hs).2 with hnew | ⟨rfl, hpc⟩
        · rw [howes] at hnew
          cases hnew
        · exact ⟨l, t, [], rfl, hpc, fun _ h => nomatch h⟩
      · refine ⟨l₁, v, l₂ ++ [(t, e)], by simp, hv, fun x hx => ?_⟩
        rcases List.mem_append.1 hx with hx | hx
        · exact hall x hx
        · rw [List.mem_singleton.1 hx]
          exact hown

/-- **The terminal in every run** in which no pid that a job of the table records is given to a new
process. Whenever the shell reads a line, it has the terminal, with the saved settings, which have
been restored since another group had it; `SIGCHLD` and `SIGTTOU` are not blocked, and will not be
once a handler that is running has returned; and no job with a process that has not been reaped is
in the foreground. The shell sets the terminal with `SIGTTOU` blocked and takes up statuses with
`SIGCHLD` blocked. And the job that `wait_for_job` calls `waitpid` for has the terminal. -/
theorem terminal_run (hr : Run noReuse s) :
    (s.pc = .readline → s.ttyPgrp = s.shellPgrp ∧ s.ttyAttr = s.savedTtyState ∧
      (s.handler = none → s.mask = ⟨false, false⟩) ∧
      (∀ m, s.handler = some m → m = ⟨false, false⟩) ∧
      ∀ jid job, s.jid2job.get jid = some job → job.status = .foreground →
        s.unreaped job.serial = 0) ∧
    (∀ l t, Path noReuse s l t → s.ttyPgrp ≠ s.shellPgrp → t.pc = .readline → RestoredSince l) ∧
    s.setUnblocked = false ∧
    (∀ e t pid, step s e = some t → e = .reap pid ∨ e = .waitpid pid → s.mask.sigchld = true) ∧
    ∀ jid job, s.pc = .waitForJob jid → s.jid2job.get jid = some job → keepsWaiting job = true →
      s.ttyPgrp = job.pgid := by
  refine ⟨fun hp => ?_, fun l t hpath ho hp => ?_, hr.shielded.blocked, ?_, ?_⟩
  · have howes : s.pc.owes = false := by rw [hp]; rfl
    have hlive : s.pc.live = true := by rw [hp]; rfl
    refine ⟨hr.hasTerminal.owner howes, hr.hasTerminal.attr howes, fun hh => ?_, fun m hm => ?_,
      fun jid job hg hst => ?_⟩
    · have hchld := hr.masked.main hh hlive
      have httou := hr.shielded.main hh hlive
      rw [hp] at hchld httou
      exact congrArg₂ Mask.mk hchld httou
    · have hchld := (hr.masked.handler hm).2.1
      have httou := hr.shielded.handler hm hlive
      rw [hp] at httou
      exact congrArg₂ Mask.mk hchld httou
    · have hle := hr.attended.finished hlive (by rw [hp]; rfl) hg hst
      have hcount := hr.counts hg
      omega
  · rcases hpath.restored hr ho with howes | hrest
    · rw [hp] at howes
      cases howes
    · exact hrest.1
  · exact fun e t pid hs he => hr.masked.sigchld (waiting_of_step hs he)
  · exact fun jid job hp hg hk => hr.fronted.waiting (by rw [hp]; rfl) hg hk

/-- A command in the foreground that changes the settings and is stopped. -/
def stopForeground : List Event :=
  startForeground ++ [.setAttr 100 9, .child 100 (.stop .sigtstp), .waitpid 100] ++
    List.replicate 10 .main

theorem terminal_run_stop : ∃ s t, Lts.exec step noReuse (State.init 50 7 .usual) startForeground =
      some s ∧ s.ttyPgrp = 100 ∧
    Lts.exec step noReuse (State.init 50 7 .usual) stopForeground = some t ∧ t.pc = .readline ∧
      t.ttyPgrp = t.shellPgrp ∧ t.ttyAttr = t.savedTtyState := by
  have hstart : (Lts.exec step noReuse (State.init 50 7 .usual) startForeground).map State.ttyPgrp =
      some 100 := by
    decide
  have hrun : (Lts.exec step noReuse (State.init 50 7 .usual) stopForeground).map State.pc =
      some .readline := by
    decide
  obtain ⟨s, hs, ho⟩ := Option.map_eq_some_iff.1 hstart
  obtain ⟨t, ht, hp⟩ := Option.map_eq_some_iff.1 hrun
  have hread := (terminal_run (Run.exec (by decide) ht)).1 hp
  exact ⟨s, t, hs, ho, ht, hp, hread.1, hread.2.1⟩

end State

end Cush
