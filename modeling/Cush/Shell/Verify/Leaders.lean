import Cush.Shell.Verify.Notices

/-!
# The groups of the jobs

The first process of a pipeline starts a group, and the others join it (`spawnOk` leaves out that
one is killed before). `SIGCHLD` is blocked while they are spawned, so the first process is not
reaped before the last one has joined: as long as a command is left to spawn, the group is there and
no other process can have got its id.
-/

namespace Cush

open ProcessLedger

namespace State

variable {s t : State} {e : Event} {ok : State → Event → Bool}

/-- The first process of a pipeline that is being spawned has not been reaped. -/
structure Leading (s : State) (ctx : SpawnCtx) : Prop where
  leader : ctx.leader = ctx.spawned.isEmpty
  process : ctx.spawned ≠ [] → ∃ job, s.jid2job.get ctx.jid = some job ∧
    ∃ p ∈ s.procs, p.pid = ctx.pgid ∧ p.pgid = ctx.pgid ∧ p.owner = job.serial

/-- The children of a step that takes none away. -/
theorem Leading.keep {ctx : SpawnCtx} (h : s.Leading ctx) (ht : t.jid2job = s.jid2job)
    (hp : ∀ p ∈ s.procs, ∃ q ∈ t.procs, p.Same q) : t.Leading ctx := by
  refine ⟨h.leader, fun hne => ?_⟩
  obtain ⟨job, hg, p, hmem, hpid, hpgid, ho⟩ := h.process hne
  obtain ⟨q, hq, hs⟩ := hp p hmem
  exact ⟨job, ht ▸ hg, q, hq, hs.pid.trans hpid, hs.pgid.trans hpgid, hs.owner.trans ho⟩

theorem changeProc_same {procs procs' : List Proc} {pid : Pid} {c : Change}
    (hn : (procs.map Proc.pid).Nodup) (h : changeProc procs pid c = some procs') :
    ∀ p ∈ procs, ∃ q ∈ procs', p.Same q := by
  obtain ⟨p, p', hp, hpid, hc, rfl⟩ := changeProc_cases h
  intro q hq
  refine ⟨_, List.mem_map_of_mem hq, ?_⟩
  split
  · rename_i hqp
    rw [eq_of_pid hn hq hp (hqp.trans hpid.symm)]
    exact Proc.change_same hc
  · exact .refl q

def AllLeading (s : State) : Prop :=
  ∀ ctx, s.pc.spawning = some ctx → s.Leading ctx

theorem AllLeading.of_none (h : t.pc.spawning = none) : t.AllLeading :=
  fun _ hc => nomatch h.symm.trans hc

theorem AllLeading.move (h : s.AllLeading) (hM : s.Masked) (hS : s.Spawning)
    (hn : (s.procs.map Proc.pid).Nodup) (hm : Move s e t) : t.AllLeading := by
  cases hm with
  | sigchld | setAttr | others | handlerStart | handlerReturn | lineEmpty =>
    exact fun ctx hp => (h ctx hp).keep rfl fun p hmem => ⟨p, hmem, .refl p⟩
  | child hc => exact fun ctx hp => (h ctx hp).keep rfl (changeProc_same hn hc)
  | handled out hwait => exact .of_none (hM.spawning hwait)
  | dispatch out hh hp hl ht => exact .of_none ht.spawning
  | @deadEnd i exiting hh hp => cases exiting <;> exact .of_none rfl
  | addJob =>
    intro ctx hc
    cases hc
    exact ⟨rfl, fun hne => absurd rfl hne⟩
  | @setUp ctx cmd rest mem fa fdIndex hh hp ht hs =>
    intro ctx' hc
    cases hc
    have hL := h ctx (by rw [hp]; rfl)
    exact ⟨hL.leader, hL.process⟩
  | @spawned ctx fa cmd rest job pid hh hp ht hg hf he =>
    intro ctx' hc
    cases hc
    have hspawn : s.pc.spawning = some ctx := by rw [hp]; rfl
    have hL := h ctx hspawn
    obtain ⟨job', hg', ha⟩ := hS ctx hspawn
    cases hg.symm.trans hg'
    constructor
    · cases hsp : ctx.spawned with
      | nil => simp
      | cons x xs => simp [hL.leader, hsp]
    · intro _
      refine ⟨_, SlotTable.get_modify_self hg _, ?_⟩
      by_cases hsp : ctx.spawned = []
      · -- the new process is the first one
        refine ⟨_, List.mem_append_right _ (List.mem_singleton_self _), ?_, ?_, rfl⟩
        · simp [hsp]
        · simp [hsp, ha.zero.2 hsp]
      · obtain ⟨job', hg', p, hmem, hpid, hpgid, ho⟩ := hL.process hsp
        cases hg.symm.trans hg'
        refine ⟨p, List.mem_append_left _ hmem, ?_, ?_, ho⟩
        · simpa [hsp] using hpid
        · simpa [hsp] using hpgid
  | _ => exact .of_none rfl

theorem Run.leading (hr : Run ok s) : s.AllLeading := by
  refine Lts.Reach.invariant (I := State.AllLeading) ?_ ?_ hr
  · rintro s ⟨shellPgrp, attr, openMax, -, rfl⟩
    exact .of_none rfl
  · intro s e t hr hI _ hs
    exact hI.move (Run.masked hr) (Run.spawning hr) (Sound.pids (Run.sound hr)) (step_move hs).2

/-! ## Groups are apart -/

theorem Move.shellPgrp (hm : Move s e t) : t.shellPgrp = s.shellPgrp := by
  cases hm <;> rfl

theorem freshPid_pgid {pid : Pid} (h : s.freshPid pid = true) :
    pid ≠ s.shellPgrp ∧ ∀ c ∈ s.ledger.children, c.pgid ≠ pid := by
  unfold freshPid at h
  simp only [Bool.and_eq_true, List.all_eq_true, decide_eq_true_eq] at h
  refine ⟨h.1.1.2, fun c hc => ?_⟩
  obtain ⟨p, hp, rfl⟩ := mem_children hc
  exact (h.1.2 p hp).2

/-- Every child is in the group that its job started, and none in that of the shell. -/
structure Grouped (s : State) : Prop where
  headed : s.ledger.Headed
  separate : s.ledger.Separate
  shell : ∀ c ∈ s.ledger.children, c.pgid ≠ s.shellPgrp

theorem headed_booked {L : Ledger Pid} (h : s.ledger.Headed) (hb : Booked s e L) : L.Headed := by
  cases hb with
  | stay => exact h
  | opened => exact h.openAccount 0
  | entered he hg hf => exact h.enter (account_of_get hg)
  | reaped hp hj hg => exact h.book (account_of_get hg) _
  | lost => exact h
  | failed => exact h.closeAccount _
  | deleted => exact h.closeAccount _

/-- A step that spawns nothing. -/
theorem children_booked {L : Ledger Pid} (hb : Booked s e L) (he : ∀ pid, e ≠ .spawned pid) :
    L.children.Sublist s.ledger.children := by
  cases hb with
  | entered he' => exact absurd he' (he _)
  | reaped | lost => exact List.filter_sublist
  | _ => exact List.Sublist.refl _

/-- The group that a process joins has a process of its pipeline. -/
theorem Leading.joins {ctx : SpawnCtx} {job : Job} (h : s.Leading ctx)
    (hg : s.jid2job.get ctx.jid = some job) (ha : Agrees ctx job) :
    job.pids = [] ∨ ∃ c ∈ s.ledger.children, c.owner = job.serial ∧ c.pgid = job.pgid := by
  by_cases hsp : ctx.spawned = []
  · exact Or.inl (ha.pids.2 hsp)
  · obtain ⟨job', hg', p, hmem, -, hpgid, ho⟩ := h.process hsp
    cases hg.symm.trans hg'
    exact Or.inr ⟨p.child, children_mem hmem, ho, hpgid.trans ha.pgid.symm⟩

theorem Grouped.step (h : s.Grouped) (hr : Run ok s) (hs : step s e = some t) : t.Grouped := by
  have hbook := Run.booked hr (step_move hs).2
  have hheaded := headed_booked h.headed hbook
  by_cases hsp : ∃ pid, e = .spawned pid
  · obtain ⟨pid, rfl⟩ := hsp
    obtain ⟨ctx, fa, cmd, rest, job, hp, -, hg, hf, rfl⟩ := spawned_step hr.spawning hs
    have hspawn : s.pc.spawning = some ctx := by rw [hp]; rfl
    obtain ⟨job', hg', ha⟩ := hr.spawning ctx hspawn
    cases hg.symm.trans hg'
    have hjoin := (hr.leading ctx hspawn).joins hg ha
    obtain ⟨hshell, hfresh⟩ := freshPid_pgid hf
    refine ⟨hheaded, ?_, ?_⟩
    · rw [ledger_spawnOk hg ha]
      exact h.separate.enter hfresh hjoin
    · rw [ledger_spawnOk hg ha]
      intro c hc
      rcases List.mem_append.1 hc with hc | hc
      · exact h.shell c hc
      · rw [List.mem_singleton.1 hc]
        dsimp only [Ledger.groupFor]
        split
        · exact hshell
        · rename_i hne
          rcases hjoin with hnil | ⟨d, hd, -, hpgid⟩
          · rw [show job.account.pids = [] from hnil] at hne
            exact absurd rfl hne
          · change job.pgid ≠ s.shellPgrp
            rw [← hpgid]
            exact h.shell d hd
  · have hsub := children_booked hbook fun pid he => hsp ⟨pid, he⟩
    refine ⟨hheaded, ?_, ?_⟩
    · exact fun c hc d hd => h.separate c (hsub.subset hc) d (hsub.subset hd)
    · rw [Move.shellPgrp (step_move hs).2]
      exact fun c hc => h.shell c (hsub.subset hc)

theorem Run.grouped (hr : Run ok s) : s.Grouped := by
  refine Lts.Reach.invariant (I := State.Grouped) ?_ (fun _ _ _ hr hI _ hs => hI.step hr hs) hr
  rintro s ⟨shellPgrp, attr, openMax, -, rfl⟩
  exact ⟨fun _ _ h => (nomatch h), fun _ h => (nomatch h), fun _ h => (nomatch h)⟩

/-- **The groups of the jobs in every run.** A process of a job is in the group of the job, which is
the pid of the first process of the pipeline. This one has not been reaped as long as a command is
left to spawn, so that its group exists. Jobs that have processes have groups of their own, which
are not the shell's. And only the first process of a pipeline in the foreground is asked to take the
terminal. -/
theorem groups_run (hr : Run ok s) :
    (∀ jid job, s.jid2job.get jid = some job →
      (∀ p ∈ s.procs, p.owner = job.serial → p.pgid = job.pgid) ∧
        ∀ pid, job.pids.head? = some pid → job.pgid = pid) ∧
    (∀ ctx, s.pc.spawning = some ctx → ctx.spawned ≠ [] →
      ∃ job, s.jid2job.get ctx.jid = some job ∧ job.pgid = ctx.pgid ∧
        (∃ p ∈ s.procs, p.pid = ctx.pgid ∧ p.pgid = ctx.pgid ∧ p.owner = job.serial) ∧
          s.groupExists ctx.pgid = true) ∧
    (∀ i a, s.jid2job.get i = some a → (∃ p ∈ s.procs, p.owner = a.serial) →
      a.pgid ≠ s.shellPgrp ∧ ∀ j b, s.jid2job.get j = some b →
        (∃ p ∈ s.procs, p.owner = b.serial) → a.pgid = b.pgid → i = j) ∧
    ∀ ctx fa, s.pc = .spawn ctx fa →
      (takesTerminal ctx = true ↔ ctx.spawned = [] ∧ ctx.node.pipe.bgJob = false) := by
  have group : ∀ jid job, s.jid2job.get jid = some job → ∀ p ∈ s.procs, p.owner = job.serial →
      p.pgid = job.pgid := fun jid job hg p hp ho =>
    (hr.sound.recorded _ (children_mem hp) (account_of_get hg) ho.symm).2
  refine ⟨fun jid job hg => ⟨group jid job hg, fun pid hpid => ?_⟩, ?_, ?_, ?_⟩
  · have hne : job.account.pids ≠ [] := by
      intro hnil
      rw [show job.pids = [] from hnil] at hpid
      cases hpid
    exact Option.some.inj ((hr.grouped.headed _ _ (account_of_get hg) hne).symm.trans hpid)
  · intro ctx hspawn hne
    obtain ⟨job, hg, ha⟩ := hr.spawning ctx hspawn
    obtain ⟨job', hg', p, hp, hpid, hpgid, ho⟩ := (hr.leading ctx hspawn).process hne
    cases hg.symm.trans hg'
    refine ⟨job, hg, ha.pgid, ⟨p, hp, hpid, hpgid, ho⟩, ?_⟩
    have hany : s.procs.any (fun p => p.pgid = ctx.pgid) = true :=
      List.any_eq_true.2 ⟨p, hp, decide_eq_true hpgid⟩
    unfold groupExists
    rw [hany, Bool.or_true, Bool.true_or]
  · rintro i a ha ⟨p, hp, hpo⟩
    have hpg := group i a ha p hp hpo
    refine ⟨fun hshell => ?_, ?_⟩
    · exact hr.grouped.shell _ (children_mem hp) (hpg.trans hshell)
    · rintro j b hb ⟨q, hq, hqo⟩ he
      have hqg := group j b hb q hq hqo
      have howner := hr.grouped.separate _ (children_mem hp) _ (children_mem hq)
        (hpg.trans (he.trans hqg.symm))
      apply hr.sound.serial_inj (account_of_get ha) (account_of_get hb)
      exact hpo.symm.trans (howner.trans hqo)
  · intro ctx fa hp
    have hleader := (hr.leading ctx (by rw [hp]; rfl)).leader
    unfold takesTerminal
    rw [hleader, Bool.and_eq_true, List.isEmpty_iff, Bool.not_eq_true']

/-- `a | b` after the first process has been spawned and has exited. -/
def spawnFirst : List Event :=
  [.line ['a', '|', 'b'], .main, .malloc [0, 0], .pipe2 (some (4, 5)), .main, .main, .main,
    .setUp fun _ => 0, .spawned 100, .child 100 (.exit 0), .setUp fun _ => 0]

theorem groups_run_first : ∃ s ctx,
    Lts.exec step (fun _ _ => true) (State.init 50 7 .usual) spawnFirst = some s ∧
      s.pc.spawning = some ctx ∧ s.procs.map Proc.state = [.zombie (.exited 0)] ∧
      s.groupExists ctx.pgid = true := by
  have hrun : (Lts.exec step (fun _ _ => true) (State.init 50 7 .usual) spawnFirst).map
      (fun s => (s.pc.spawning.map SpawnCtx.spawned, s.procs.map Proc.state)) =
      some (some [⟨[['a']], false⟩], [.zombie (.exited 0)]) := by
    decide
  obtain ⟨s, hs, he⟩ := Option.map_eq_some_iff.1 hrun
  obtain ⟨hctx, hprocs⟩ := Prod.ext_iff.1 he
  obtain ⟨ctx, hspawn, hspawned⟩ := Option.map_eq_some_iff.1 hctx
  have hne : ctx.spawned ≠ [] := by
    rw [hspawned]
    exact List.cons_ne_nil _ _
  obtain ⟨job, -, -, -, hgroup⟩ := (groups_run (Run.exec (by decide) hs)).2.1 ctx hspawn hne
  exact ⟨s, ctx, hs, hspawn, hprocs, hgroup⟩

end State

end Cush
