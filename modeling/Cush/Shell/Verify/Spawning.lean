import Cush.Shell.Verify.Rest
import Cush.Shell.Verify.Terminal
import Cush.Spawn.Verify.Spawnix

/-!
# The spawns of a run

The steps `spawned` and `spawnFailed` of the shell stand for what `_posix_spawn_run` comes to: from
every state of a run in which a command is about to be spawned, the call returns, and its outcome is
that of one of the two steps, unless the child is killed before it runs the command. What the
command finds is told from the state of the shell: the signal that `handle_job` has blocked is still
blocked in it, and its group has the terminal if its pipeline is in the foreground.
-/

namespace Cush

open Spawni

/-- The signals that the shell blocks. -/
def Mask.signals (m : Mask) : SignalMask :=
  .ofSet fun sig => (sig == SIGCHLD && m.sigchld) || (sig == SIGTTOU && m.sigttou)

namespace State

variable {s t : State} {e : Event} {ok : State → Event → Bool} {ctx : SpawnCtx} {fa : FileActions}
  {cmd : AstCommand} {rest : List AstCommand} {a : Answers} {c : Caller}

/-- The shell process in the state `s`. -/
structure IsCaller (s : State) (c : Caller) : Prop where
  mask : c.task.mask = s.mask.signals
  tty : c.ttyPgrp = s.ttyPgrp

/-- What the kernel can answer in the state `s`. -/
structure Allows (s : State) (a : Answers) : Prop where
  clone : ∀ pid, a.clone = .ok pid → s.freshPid pid = true
  group : ∀ pgrp, a.group pgrp = true → s.groupExists pgrp = true

/-! ## Where commands are spawned -/

/-- Between commands only `SIGCHLD` is blocked. -/
theorem Run.spawn_mask (hr : Run ok s) (hp : s.pc = .spawn ctx fa) :
    s.handler = none ∧ s.mask = ⟨true, false⟩ := by
  have hlive : s.pc.live = true := by rw [hp]; rfl
  have hh : s.handler = none := by
    cases hh : s.handler with
    | none => rfl
    | some m =>
      have hb := ((Run.masked hr).handler hh).2.2
      rw [hp] at hb
      cases hb
  have hchld := (Run.masked hr).main hh hlive
  have httou := (Run.shielded hr).main hh hlive
  rw [hp] at hchld httou
  refine ⟨hh, ?_⟩
  cases hm : s.mask with
  | mk sigchld sigttou =>
    rw [hm] at hchld httou
    exact congrArg₂ Mask.mk hchld httou

/-! ## The attributes of a command -/

/-- The attributes of a command that is put into the group `pgid`, and takes the terminal if `fg`.
-/
structure CommandAttr (attr : SpawnAttr) (pgid : Pid) (fg : Bool) : Prop where
  pgrp : attr.pgrp = pgid
  flags : attr.flags =
    if fg then POSIX_SPAWN_TCSETPGROUP ||| POSIX_SPAWN_SETPGROUP else POSIX_SPAWN_SETPGROUP

theorem spawnAttr_ok (pgid : Pid) (leader fg : Bool) (ttyFd : Nat) :
    ∃ attr, spawnAttr pgid leader fg ttyFd = .ok attr ∧ CommandAttr attr pgid (leader && fg) := by
  cases leader <;> cases fg <;> exact ⟨_, rfl, rfl, rfl⟩

variable {attr : SpawnAttr} {pgid : Pid} {fg : Bool}

theorem CommandAttr.has (h : CommandAttr attr pgid fg) :
    attr.has POSIX_SPAWN_SETPGROUP = true ∧ attr.has POSIX_SPAWN_TCSETPGROUP = fg ∧
      attr.has POSIX_SPAWN_SETSID = false ∧ attr.has POSIX_SPAWN_SETSIGDEF = false ∧
      attr.has POSIX_SPAWN_SETSIGMASK = false ∧ attr.has POSIX_SPAWN_RESETIDS = false := by
  unfold SpawnAttr.has
  rw [h.flags]
  cases fg <;> decide

/-- The group of the command: its own, if it is the first one. -/
theorem CommandAttr.group (h : CommandAttr attr pgid fg) (t : Task) :
    (t.session attr).group attr = if pgid = 0 then t.pid else pgid := by
  rw [Task.group, if_pos h.has.1, h.pgrp]
  rfl

/-! ## The outcome of a spawn -/

/-- What `_posix_spawn_run` comes to, for a command at which the shell is in the state `s`. -/
structure SpawnOutcome (s : State) (ctx : SpawnCtx) (fa : FileActions) (cmd : AstCommand)
    (c : Caller) (r : SpawnRun) : Prop where
  caller : r.caller.task = c.task
  failed : r.ret ≠ 0 → r.ret = -1 ∧ r.printed = [.noSuchFile (cmd.argv.headD [])] ∧
    r.child = none ∧ ∃ took t, step s (.spawnFailed took) = some t ∧ t.procs = s.procs ∧
      t.ttyPgrp = r.caller.ttyPgrp
  started : r.ret = 0 → r.printed = [] ∧ ∃ u st, r.child = some (u, st) ∧
    ((st = .running ∧ ∃ t job, step s (.spawned u.pid) = some t ∧
        s.jid2job.get ctx.jid = some job ∧ t.ttyPgrp = r.caller.ttyPgrp ∧
        t.procs = s.procs ++ [⟨u.pid, u.pgid, job.serial, .running, []⟩]) ∨
      ∃ sig, st = .zombie (.signaled sig))

theorem step_spawned (hr : Run ok s) (hp : s.pc = .spawn ctx fa) (ht : ctx.todo = cmd :: rest)
    {pid : Pid} (hf : s.freshPid pid = true) (hg : ctx.pgid = 0 ∨ s.groupExists ctx.pgid = true) :
    ∃ job, s.jid2job.get ctx.jid = some job ∧
      step s (.spawned pid) = some (s.spawnOk ctx cmd rest job pid) := by
  obtain ⟨job, hjob, -⟩ := Run.spawning hr ctx (by rw [hp]; rfl)
  refine ⟨job, hjob, ?_⟩
  have hh := (hr.spawn_mask hp).1
  simp only [step, hp, Pc.live, if_true, hh, Option.isNone_none, answerStep, ht, hf, hg,
    and_self, forJob, hjob]

/-- The step of a spawn that fails, whoever has the terminal then. -/
theorem step_spawnFail (hr : Run ok s) (hp : s.pc = .spawn ctx fa) (ht : ctx.todo = cmd :: rest)
    {tty : Pid} (htty : tty = s.ttyPgrp ∨ takesTerminal ctx = true) :
    ∃ took t, step s (.spawnFailed took) = some t ∧ t.procs = s.procs ∧ t.ttyPgrp = tty := by
  obtain ⟨job, hjob, -⟩ := Run.spawning hr ctx (by rw [hp]; rfl)
  have hh := (hr.spawn_mask hp).1
  refine ⟨some tty, s.spawnFail ctx cmd (some tty), ?_, ?_⟩
  · simp only [step, hp, Pc.live, if_true, hh, Option.isNone_none, answerStep, ht]
  · have hjob' : s.jid2job.get ctx.jid = some job := hjob
    simp only [spawnFail, deleteJob, forJob, State.print, readNode, hjob', Option.getD_some,
      true_and]
    rcases htty with rfl | htakes
    · split <;> rfl
    · rw [if_pos htakes]

section Started

variable {args : SpawnArgs} {pid p' : Pid} {t' : Task}

/-- The step of a spawn whose child runs the program. -/
theorem IsSetUp.step (h : IsSetUp a args (c.childTask pid) c.ttyPgrp t' p') (hr : Run ok s)
    (hp : s.pc = .spawn ctx fa) (ht : ctx.todo = cmd :: rest) (hc : s.IsCaller c) (ha : s.Allows a)
    (hclone : a.clone = .ok pid) (hcmd : CommandAttr args.attr ctx.pgid (takesTerminal ctx)) :
    ∃ job, s.jid2job.get ctx.jid = some job ∧
      Cush.step s (.spawned t'.pid) = some (s.spawnOk ctx cmd rest job t'.pid) ∧
      (s.spawnOk ctx cmd rest job t'.pid).ttyPgrp = p' ∧
      (s.spawnOk ctx cmd rest job t'.pid).procs =
        s.procs ++ [⟨t'.pid, t'.pgid, job.serial, .running, []⟩] := by
  obtain ⟨hset, htc, -⟩ := hcmd.has
  obtain rfl : t'.pid = pid := h.pid
  have hpgid : t'.pgid = if ctx.pgid = 0 then t'.pid else ctx.pgid :=
    h.pgid.trans (hcmd.group _)
  have hgroup : ctx.pgid = 0 ∨ s.groupExists ctx.pgid = true := by
    by_cases hz : ctx.pgid = 0
    · exact .inl hz
    · have hgroup := h.group hset
      rw [hcmd.pgrp] at hgroup
      exact .inr (ha.group _ (hgroup hz))
  obtain ⟨job, hjob, hstep⟩ := step_spawned hr hp ht (ha.clone _ hclone) hgroup
  refine ⟨job, hjob, hstep, ?_, ?_⟩
  · rw [h.tty, htc, hpgid, hc.tty]
    rfl
  · rw [hpgid]
    rfl

/-- Its group has the terminal if its pipeline is in the foreground. -/
theorem IsSetUp.front (h : IsSetUp a args (c.childTask pid) c.ttyPgrp t' p') (hr : Run ok s)
    (hp : s.pc = .spawn ctx fa) (ht : ctx.todo = cmd :: rest) (hc : s.IsCaller c) (ha : s.Allows a)
    (hclone : a.clone = .ok pid) (hcmd : CommandAttr args.attr ctx.pgid (takesTerminal ctx)) :
    p' = t'.pgid ↔ ctx.node.pipe.bgJob = false := by
  obtain ⟨job, hjob, hstep, htty, hprocs⟩ := IsSetUp.step h hr hp ht hc ha hclone hcmd
  have hrt : Run (fun _ _ => true) (s.spawnOk ctx cmd rest job t'.pid) :=
    .step (hr.mono fun _ _ _ => rfl) rfl hstep
  have hmem : (⟨t'.pid, t'.pgid, job.serial, .running, []⟩ : Proc) ∈
      (s.spawnOk ctx cmd rest job t'.pid).procs := by
    rw [hprocs]
    exact List.mem_append_right _ (List.mem_singleton_self _)
  rw [← htty]
  constructor
  · intro hfront
    cases hb : ctx.node.pipe.bgJob with
    | false => rfl
    | true =>
      have hshell := hrt.retaining ctx.node ctx.jid rfl hb
      exact absurd (hfront.symm.trans hshell) (hrt.grouped.shell _ (children_mem hmem))
  · intro hb
    exact hrt.started_ttyPgrp rfl hb (SlotTable.get_modify_self hjob _) hmem rfl

end Started

theorem posixSpawnRun_kept (a : Answers) (ctx : SpawnCtx) (argv : List Word) (fa : FileActions)
    (ttyFd : Nat) (c : Caller) :
    ∃ attr r, CommandAttr attr ctx.pgid (takesTerminal ctx) ∧
      posixSpawnRun a ctx.pgid argv ctx.leader (!ctx.node.pipe.bgJob) fa ttyFd c =
        some (spawnReturn argv r) ∧
      r.Kept a { oldmask := c.task.mask, fa := some (fa.map .ofFileAction), attr } c := by
  obtain ⟨attr, hattr, hcmd⟩ := spawnAttr_ok ctx.pgid ctx.leader (!ctx.node.pipe.bgJob) ttyFd
  obtain ⟨r, hspawn, hkept⟩ := spawnix_kept a (some (fa.map .ofFileAction)) (some attr) argv c
  refine ⟨attr, r, hcmd, ?_, hkept⟩
  unfold posixSpawnRun
  rw [hattr]
  dsimp only
  rw [hspawn]
  rfl

/-- **The spawns of a run.** Where a command is about to be spawned, `_posix_spawn_run` returns, and
its outcome is that of a step of the shell: `spawned` if it returns 0 and the command runs, and
`spawnFailed` if it returns -1. The one other outcome is a child that has been killed before it
called `exec`, for which it returns 0 too; in the steps of the shell a child is killed later. -/
theorem posixSpawnRun_run (hr : Run ok s) (hp : s.pc = .spawn ctx fa) (hc : s.IsCaller c)
    (ha : s.Allows a) (ttyFd : Nat) :
    ∃ cmd rest r, ctx.todo = cmd :: rest ∧
      posixSpawnRun a ctx.pgid cmd.argv ctx.leader (!ctx.node.pipe.bgJob) fa ttyFd c = some r ∧
      SpawnOutcome s ctx fa cmd c r := by
  obtain ⟨cmd, rest, ht⟩ := List.exists_cons_of_ne_nil (hr.supplied ctx fa hp)
  obtain ⟨attr, r, hcmd, hrun, hkept⟩ := posixSpawnRun_kept a ctx cmd.argv fa ttyFd c
  refine ⟨cmd, rest, _, ht, hrun, ?_⟩
  unfold spawnReturn
  by_cases hec : r.ec = 0
  · rw [if_neg (not_not.2 hec)]
    refine ⟨hkept.task, fun h => absurd rfl h, fun _ => ⟨rfl, ?_⟩⟩
    obtain ⟨pid, u, st, hclone, hpid, hchild, hfate⟩ := hkept.started hec
    refine ⟨u, st, hchild, ?_⟩
    rcases hfate with ⟨hst, t', hup, rfl⟩ | hkilled
    · obtain ⟨job, hjob, hstep, htty, hprocs⟩ := IsSetUp.step hup hr hp ht hc ha hclone hcmd
      exact .inl ⟨hst, _, job, hstep, hjob, htty, hprocs⟩
    · exact .inr hkilled
  · rw [if_pos hec]
    refine ⟨hkept.task, fun _ => ⟨rfl, rfl, (hkept.failed hec).2.1, ?_⟩, fun h => nomatch h⟩
    refine step_spawnFail hr hp ht ?_
    rcases (hkept.failed hec).2.2 with htty | ⟨pid, -, htty | ⟨htakes, -⟩⟩
    · exact .inl (htty.trans hc.tty)
    · exact .inl (htty.trans hc.tty)
    · exact .inr (hcmd.has.2.1.symm.trans htakes)

/-- A kernel in which nothing fails. -/
def kindKernel : Answers :=
  { mmap := none, mmap_ne := nofun, clone := .ok 100, fails := fun _ => none,
    kills := fun _ => none, group := fun _ => false, nofile := 1024 }

/-- The shell when it spawns its first command. -/
def spawningShell : Caller :=
  { task :=
      { pid := 50, pgid := 50, sid := 40, mask := Mask.signals ⟨true, false⟩
        actions :=
          { get := fun sig => if sig = SIGCHLD then .handler 1 else .dfl
            reserved := fun sig h => if_neg (by rintro rfl; cases h) }
        fds := ⟨[some ⟨.shell 0, false⟩, some ⟨.shell 1, false⟩, some ⟨.shell 2, false⟩,
          some ⟨.shell 3, true⟩]⟩
        cwd := [], uid := 1000, euid := 1000, gid := 100, egid := 100, policy := 0, param := 0 }
    ttyPgrp := 50, errno := 0, pid := 0 }

/-- A command, set up. -/
def setUpOne : List Event :=
  [.line ['s'], .main, .main, .main, .main, .setUp fun _ => 0]

def ctxOne : SpawnCtx :=
  { node := ⟨0, ⟨[⟨[['s']], false⟩], none, none, false, false⟩⟩, jid := 1, fds := none, itr := 0,
    spawned := [], todo := [⟨[['s']], false⟩], pgid := 0, leader := true }

theorem exec_setUpOne : ∃ s, Run (fun _ _ => true) s ∧ s.pc = .spawn ctxOne [] ∧
    s.IsCaller spawningShell ∧ s.Allows kindKernel := by
  have hrun : (Lts.exec step (fun _ _ => true) (State.init 50 7 .usual) setUpOne).map
      (fun s => (s.pc, s.mask, s.ttyPgrp, s.freshPid 100)) =
      some (.spawn ctxOne [], ⟨true, false⟩, 50, true) := by
    decide
  obtain ⟨s, hs, he⟩ := Option.map_eq_some_iff.1 hrun
  obtain ⟨hpc, he⟩ := Prod.ext_iff.1 he
  obtain ⟨hmask, he⟩ := Prod.ext_iff.1 he
  obtain ⟨htty, hfresh⟩ := Prod.ext_iff.1 he
  refine ⟨s, Run.exec (by decide) hs, hpc, ⟨(congrArg Mask.signals hmask).symm, htty.symm⟩,
    fun pid hpid => ?_, fun pgrp h => nomatch h⟩
  obtain rfl := Except.ok.inj hpid
  exact hfresh

theorem posixSpawnRun_run_one : ∃ s cmd rest r, Run (fun _ _ => true) s ∧
    s.pc = .spawn ctxOne [] ∧ ctxOne.todo = cmd :: rest ∧
    posixSpawnRun kindKernel 0 cmd.argv true true [] 3 spawningShell = some r ∧
    SpawnOutcome s ctxOne [] cmd spawningShell r := by
  obtain ⟨s, hr, hp, hc, ha⟩ := exec_setUpOne
  obtain ⟨cmd, rest, r, h⟩ := posixSpawnRun_run hr hp hc ha 3
  exact ⟨s, cmd, rest, r, hr, hp, h⟩

/-! ## What a command finds -/

/-- What the program `u` finds, spawned for the caller `c`, with the terminal at `tty`. -/
structure ProgramFinds (ctx : SpawnCtx) (fa : FileActions) (c : Caller) (u : Task) (tty : Pid) :
    Prop where
  blocked : ∀ sig, u.mask.blocked sig = true ↔ sig = SIGCHLD
  handlers : ∀ sig, 1 ≤ sig → sig < NSIG →
    u.actions.get sig = if c.task.actions.get sig = .ign then .ign else .dfl
  pgid : u.pgid = if ctx.pgid = 0 then u.pid else ctx.pgid
  front : tty = u.pgid ↔ ctx.node.pipe.bgJob = false
  tty : tty = if takesTerminal ctx then u.pgid else c.ttyPgrp
  sid : u.sid = c.task.sid
  ids : u.uid = c.task.uid ∧ u.euid = c.task.euid ∧ u.gid = c.task.gid ∧ u.egid = c.task.egid
  fds : ∃ t₁, Cush.spawniChild c.task.fds fa = some t₁ ∧ u.fds.Agree t₁

theorem signals_spawn (sig : Nat) :
    (Mask.signals ⟨true, false⟩).blocked sig = true ↔ sig = SIGCHLD := by
  simp only [Mask.signals, SignalMask.ofSet, Bool.and_true, Bool.and_false, Bool.or_false,
    Bool.and_eq_true, beq_iff_eq]
  constructor
  · exact And.left
  · rintro rfl
    exact ⟨rfl, rfl⟩

theorem IsSetUp.finds {attr : SpawnAttr} {pid p' : Pid} {t' : Task}
    (h : IsSetUp a { oldmask := c.task.mask, fa := some (fa.map .ofFileAction), attr }
      (c.childTask pid) c.ttyPgrp t' p')
    (hcmd : CommandAttr attr ctx.pgid (takesTerminal ctx))
    (hmask : c.task.mask = Mask.signals ⟨true, false⟩)
    (hfront : p' = t'.pgid ↔ ctx.node.pipe.bgJob = false) :
    ProgramFinds ctx fa c
      (t'.started { oldmask := c.task.mask, fa := some (fa.map .ofFileAction), attr }) p' := by
  obtain ⟨hset, htc, hsid, hdef, hsm, hids⟩ := hcmd.has
  constructor
  · intro sig
    simp only [Task.started, hsm, hmask]
    exact signals_spawn sig
  · intro sig hlo hhi
    have hget := h.handlers sig hlo hhi
    simp only [startHandler, hdef, Bool.false_and] at hget
    refine (exec_get t'.actions sig).trans ?_
    rw [hget]
    change
      (if (if c.task.actions.get sig = .ign then Handler.ign else .dfl) = .ign then _ else _) = _
    split_ifs <;> simp_all
  · obtain rfl : t'.pid = pid := h.pid
    exact h.pgid.trans (hcmd.group _)
  · exact hfront
  · exact h.tty.trans (by rw [htc]; rfl)
  · exact h.sid.trans (if_neg (by simp [hsid]))
  · have heuid := h.uid.2
    have hegid := h.gid.2
    simp only [hids] at heuid hegid
    exact ⟨h.uid.1, heuid, h.gid.1, hegid⟩
  · have hfiles : effects 0 c.task.files (fa.map .ofFileAction) = some t'.files := h.files
    obtain ⟨t₁, ht₁, hfds⟩ := executeFrom_of_effects hfiles rfl
    have hagree : t'.fds.Agree t₁ := congrFun hfds
    refine ⟨t₁.exec, ?_, hagree.exec⟩
    rw [Cush.spawniChild, ht₁]
    rfl

/-- Every program that the shell runs is started with `SIGCHLD` blocked, with what its file actions
make of the descriptors of the shell, and with the terminal if its pipeline is in the foreground. -/
theorem spawned_finds_run (hr : Run ok s) (hp : s.pc = .spawn ctx fa) (hc : s.IsCaller c)
    (ha : s.Allows a) (argv : List Word) (ttyFd : Nat) {r : SpawnRun} {u : Task}
    (hrun : posixSpawnRun a ctx.pgid argv ctx.leader (!ctx.node.pipe.bgJob) fa ttyFd c = some r)
    (hret : r.ret = 0) (hu : r.child = some (u, .running)) :
    ProgramFinds ctx fa c u r.caller.ttyPgrp := by
  obtain ⟨attr, r', hcmd, hrun', hkept⟩ := posixSpawnRun_kept a ctx argv fa ttyFd c
  obtain rfl := Option.some.inj (hrun'.symm.trans hrun)
  obtain ⟨cmd, rest, ht⟩ := List.exists_cons_of_ne_nil (hr.supplied ctx fa hp)
  have hmask := hc.mask.trans (congrArg Mask.signals (hr.spawn_mask hp).2)
  unfold spawnReturn at hret hu ⊢
  by_cases hec : r'.ec = 0
  · rw [if_neg (not_not.2 hec)] at hu ⊢
    obtain ⟨pid, u', st, hclone, hpid, hchild, hfate⟩ := hkept.started hec
    cases Option.some.inj (hchild.symm.trans hu)
    obtain ⟨-, t', hup, rfl⟩ := hfate.resolve_right fun ⟨sig, hsig⟩ => nomatch hsig
    exact IsSetUp.finds hup hcmd hmask (IsSetUp.front hup hr hp ht hc ha hclone hcmd)
  · rw [if_pos hec] at hret
    cases hret

theorem spawned_finds_run_one : ∃ u r,
    posixSpawnRun kindKernel 0 [['s']] true true [] 3 spawningShell = some r ∧ r.ret = 0 ∧
      r.child = some (u, .running) ∧ ProgramFinds ctxOne [] spawningShell u r.caller.ttyPgrp := by
  have hrun : (posixSpawnRun kindKernel 0 [['s']] true true [] 3 spawningShell).map
      (fun r => (r.ret, r.child.map Prod.snd)) = some (0, some .running) := by
    decide +kernel
  obtain ⟨s, hr, hp, hc, ha⟩ := exec_setUpOne
  obtain ⟨r, hspawn, he⟩ := Option.map_eq_some_iff.1 hrun
  obtain ⟨hret, hchild⟩ := Prod.ext_iff.1 he
  obtain ⟨⟨u, st⟩, hu, rfl⟩ := Option.map_eq_some_iff.1 hchild
  exact ⟨u, r, hspawn, hret, hu, spawned_finds_run hr hp hc ha [['s']] 3 hspawn hret hu⟩

end State

end Cush
