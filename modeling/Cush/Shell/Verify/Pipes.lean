import Cush.Shell.Verify.Context
import Cush.Spawn.Verify.Wiring

/-!
# The pipes of successive pipelines

`_set_up_pipe` keeps its place in the array of descriptors from one call to the next, and only the
last command of a pipeline sets it back. In a run in which the spawn loop is not left at another
command than the first or the last one, each pipeline finds the index at 0 and its commands are
wired to its own pipes.
-/

namespace Cush

namespace State

variable {s t : State} {e : Event}

/-- A spawn that fails is that of the first or the last command of a pipeline. -/
def endsSpawn (s : State) : Event → Bool
  | .spawnFailed _ => s.pc.spawning.all fun ctx => ctx.spawned.isEmpty || ctx.todo.length ≤ 1
  | _ => true

/-- `fd_index` and `itr` at the test of the loop over the commands. -/
structure SetUpAt (ctx : SpawnCtx) (fdIndex : Nat) : Prop where
  index : fdIndex = if ctx.todo = [] then 0 else fdIndexBefore ctx.spawned.length
  itr : ctx.itr = if ctx.node.pipe.commands.length > 1 then ctx.spawned.length else 0

/-- The file actions before a spawn, and `fd_index` after they have been added. -/
structure SpawnAt (openMax : OpenMax) (ctx : SpawnCtx) (fa : FileActions) (fdIndex : Nat) :
    Prop where
  index : fdIndex = if ctx.todo.length ≤ 1 then 0 else fdIndexBefore (ctx.spawned.length + 1)
  itr : ctx.itr = if ctx.node.pipe.commands.length > 1 then ctx.spawned.length + 1 else 0
  actions : ∃ cmd rest mem, ctx.todo = cmd :: rest ∧
    fa = (setUpCommand openMax ctx.node.pipe cmd (readFds (ctx.fds.getD []) mem)
      ctx.spawned.length (fdIndexBefore ctx.spawned.length)).1

structure Indexed (s : State) : Prop where
  outside : s.pc.live = true → s.pc.spawning = none → s.fdIndex = 0
  setUp : ∀ {ctx}, s.pc = .setUp ctx → SetUpAt ctx s.fdIndex
  spawn : ∀ {ctx fa}, s.pc = .spawn ctx fa → SpawnAt s.openMax ctx fa s.fdIndex

theorem Indexed.of_none (hp : t.pc.spawning = none) (h : t.pc.live = true → t.fdIndex = 0) :
    t.Indexed := by
  refine ⟨fun hl _ => h hl, fun hpc => ?_, fun hpc => ?_⟩ <;>
  · rw [hpc] at hp
    cases hp

theorem Indexed.of_same (h : s.Indexed) (hp : t.pc = s.pc) (hi : t.fdIndex = s.fdIndex)
    (hm : t.openMax = s.openMax) : t.Indexed :=
  ⟨fun hl hn => hi ▸ h.outside (hp ▸ hl) (hp ▸ hn), fun hpc => hi ▸ h.setUp (hp ▸ hpc),
    fun hpc => hi ▸ hm ▸ h.spawn (hp ▸ hpc)⟩

/-- The position of the next command. -/
theorem Agrees.position {ctx : SpawnCtx} {job : Job} (h : Agrees ctx job) {cmd : AstCommand}
    {rest : List AstCommand} (ht : ctx.todo = cmd :: rest) :
    ctx.node.pipe.commands.length = ctx.spawned.length + rest.length + 1 := by
  rw [← h.commands, ht, List.length_append, List.length_cons]
  rfl

/-- Setting up the next command. -/
theorem SetUpAt.setUp {ctx : SpawnCtx} {job : Job} {cmd : AstCommand} {rest : List AstCommand}
    {openMax : OpenMax} {mem : Nat → Fd} {fa : FileActions} {fdIndex fdIndex' : Nat}
    (h : SetUpAt ctx fdIndex) (ha : Agrees ctx job) (ht : ctx.todo = cmd :: rest)
    (hs : setUpCommand openMax ctx.node.pipe cmd (readFds (ctx.fds.getD []) mem) ctx.itr fdIndex =
      (fa, fdIndex')) :
    SpawnAt openMax
      { ctx with itr := if ctx.node.pipe.commands.length > 1 then ctx.itr + 1 else ctx.itr }
      fa fdIndex' := by
  have hlen := ha.position ht
  have hidx := h.index
  rw [if_neg (by rw [ht]; exact List.cons_ne_nil _ _)] at hidx
  have hitr : ctx.itr = ctx.spawned.length := by
    rw [h.itr]
    split <;> omega
  rw [hidx, hitr] at hs
  have hnext := setUpCommand_fdIndex openMax ctx.node.pipe cmd (readFds (ctx.fds.getD []) mem)
    (k := ctx.spawned.length) (by omega)
  rw [hs] at hnext
  refine ⟨?_, ?_, cmd, rest, mem, ht, ?_⟩
  · have hlast : ctx.spawned.length + 1 = ctx.node.pipe.commands.length ↔ ctx.todo.length ≤ 1 := by
      rw [ht, List.length_cons]
      omega
    simpa only [hlast] using hnext
  · dsimp only
    rw [hitr]
    split
    · rfl
    · omega
  · rw [hs]

/-- The next round of the loop. -/
theorem SpawnAt.next {openMax : OpenMax} {ctx : SpawnCtx} {job : Job} {fa : FileActions}
    {fdIndex : Nat} {cmd : AstCommand} {rest : List AstCommand} {pid : Pid}
    (h : SpawnAt openMax ctx fa fdIndex) (ha : Agrees ctx job) (ht : ctx.todo = cmd :: rest) :
    SetUpAt
      { ctx with spawned := ctx.spawned ++ [cmd], todo := rest,
                 pgid := if ctx.spawned.isEmpty then pid else ctx.pgid,
                 leader := if ctx.spawned.isEmpty then false else ctx.leader } fdIndex := by
  have hlen := ha.position ht
  constructor
  · rw [h.index, ht]
    simp only [List.length_cons, List.length_append, List.length_nil]
    cases rest with
    | nil => simp
    | cons c cs => simp
  · rw [h.itr]
    simp only [List.length_append, List.length_cons, List.length_nil]

theorem Indexed.move (h : s.Indexed) (hl : s.pc.live = true) (hS : s.Spawning)
    (hg : s.endsSpawn e = true) (hm : Move s e t) : t.Indexed := by
  have outside : s.pc.spawning = none → s.fdIndex = 0 := h.outside hl
  cases hm with
  | child | sigchld | setAttr | others | handlerStart | handlerReturn | handled | lineEmpty =>
    exact h.of_same rfl rfl rfl
  | lost | unblocked | eof | crash | abort | waitFatal | giveFatal =>
    exact .of_none rfl fun hd => nomatch hd
  | dispatch out hh hp hl ht => exact .of_none ht.spawning fun _ => outside (by rw [hp]; rfl)
  | @deadEnd i exiting hh hp =>
    refine .of_none ?_ fun _ => outside (by rw [hp]; rfl)
    cases exiting <;> rfl
  | @addJob node fds jid job hh hp hj hlt hjob =>
    refine ⟨fun _ hn => (nomatch hn), fun hpc => ?_, fun hpc => (nomatch hpc)⟩
    cases hpc
    refine ⟨?_, ?_⟩
    · have hzero := outside (by rw [hp]; rfl)
      dsimp only
      rw [hzero]
      split <;> rfl
    · dsimp only [List.length_nil]
      split <;> rfl
  | @setUp ctx cmd rest mem fa fdIndex hh hp ht hs =>
    refine ⟨fun _ hn => (nomatch hn), fun hpc => (nomatch hpc), fun hpc => ?_⟩
    cases hpc
    obtain ⟨job, -, ha⟩ := hS ctx (by rw [hp]; rfl)
    exact (h.setUp hp).setUp ha ht hs
  | @setUpEnd ctx hh hp ht =>
    have hidx := (h.setUp hp).index
    rw [if_pos ht] at hidx
    exact .of_none rfl fun _ => hidx
  | @spawned ctx fa cmd rest job pid hh hp ht hg hf he =>
    refine ⟨fun _ hn => (nomatch hn), fun hpc => ?_, fun hpc => (nomatch hpc)⟩
    cases hpc
    obtain ⟨job', -, ha⟩ := hS ctx (by rw [hp]; rfl)
    exact (h.spawn hp).next ha ht
  | @spawnFailed ctx fa cmd rest job took out tty hh hp ht hg' =>
    have hidx := (h.spawn hp).index
    simp only [endsSpawn, hp, Pc.spawning, Option.all_some, Bool.or_eq_true, List.isEmpty_iff,
      decide_eq_true_eq] at hg
    refine .of_none rfl fun _ => ?_
    change s.fdIndex = 0
    rw [hidx]
    rcases hg with hfirst | hlast
    · rw [hfirst]
      split <;> rfl
    · rw [if_pos hlast]
  | _ => exact .of_none rfl fun _ => outside (by rw [‹s.pc = _›]; rfl)

theorem Indexed.init {s : State} (h : s.Initial) : s.Indexed := by
  obtain ⟨shellPgrp, attr, openMax, -, rfl⟩ := h
  exact .of_none rfl fun _ => rfl

theorem Run.indexed (hr : Run endsSpawn s) : s.Indexed :=
  Lts.Reach.invariant (I := State.Indexed) (fun _ => Indexed.init)
    (fun _ _ _ hr hI hg hs => hI.move (step_move hs).1 (Run.spawning hr) hg (step_move hs).2) hr

/-- **A pipeline does not depend on earlier ones** in every run in which only the first or the last
command of a pipeline fails to spawn: `fd_index` is 0 outside the loop over the commands, the
indices read in it are inside the array, and the command at position `k` is wired to the pipes `k -
1` and `k` of its pipeline. -/
theorem fdIndex_run (hr : Run endsSpawn s) :
    (s.pc.live = true → s.pc.spawning = none → s.fdIndex = 0) ∧
    (∀ ctx cmd rest, s.pc = .setUp ctx → ctx.todo = cmd :: rest →
      1 < ctx.node.pipe.commands.length →
      ∀ i ∈ setUpPipeReads ctx.itr ctx.node.pipe.commands.length s.fdIndex,
        i < 2 * (ctx.node.pipe.commands.length - 1)) ∧
    (∀ ctx fa t0, s.pc = .spawn ctx fa →
      PipedTable s.openMax t0 (ctx.fds.getD []) ctx.node.pipe.commands.length →
      ∃ cmd t, ctx.node.pipe.commands[ctx.spawned.length]? = some cmd ∧
        spawniChild t0 fa = some t ∧ Wired ctx.node.pipe ctx.spawned.length cmd t) := by
  have hI := hr.indexed
  refine ⟨hI.outside, fun ctx cmd rest hp ht hn => ?_, fun ctx fa t0 hp htable => ?_⟩
  · obtain ⟨job, -, ha⟩ := hr.spawning ctx (by rw [hp]; rfl)
    have hat := hI.setUp hp
    have hidx := hat.index
    rw [if_neg (by rw [ht]; exact List.cons_ne_nil _ _)] at hidx
    have hitr := hat.itr
    rw [if_pos hn] at hitr
    rw [hidx, hitr]
    have hlen := ha.position ht
    exact setUpPipeReads_lt (by omega) hn
  · obtain ⟨job, -, ha⟩ := hr.spawning ctx (by rw [hp]; rfl)
    obtain ⟨cmd, rest, mem, ht, hfa⟩ := (hI.spawn hp).actions
    have hlen := ha.position ht
    obtain ⟨t, hspawn, hw⟩ := spawniChild_wired htable mem cmd (k := ctx.spawned.length) (by omega)
    rw [← hfa] at hspawn
    refine ⟨cmd, t, ?_, hspawn, hw⟩
    rw [← ha.commands, ht, List.getElem?_append_right (Nat.le_refl _), Nat.sub_self]
    rfl

/-- `a | b`, up to the set-up of its first command. -/
def setUpTwo : List Event :=
  [.line ['a', '|', 'b'], .main, .malloc [0, 0], .pipe2 (some (8, 9)), .main, .main, .main]

theorem fdIndex_run_two : ∃ s ctx,
    Lts.exec step endsSpawn (State.init 50 7 .usual) setUpTwo = some s ∧ s.pc = .setUp ctx ∧
      ctx.fds = some [8, 9] ∧
      ∀ i ∈ setUpPipeReads ctx.itr ctx.node.pipe.commands.length s.fdIndex, i < 2 := by
  have hrun : (Lts.exec step endsSpawn (State.init 50 7 .usual) setUpTwo).map State.pc =
      some (.setUp ⟨⟨0, ⟨[⟨[['a']], false⟩, ⟨[['b']], false⟩], none, none, false, false⟩⟩, 1,
        some [8, 9], 0, [], [⟨[['a']], false⟩, ⟨[['b']], false⟩], 0, true⟩) := by
    decide
  obtain ⟨s, hs, hp⟩ := Option.map_eq_some_iff.1 hrun
  exact ⟨s, _, hs, hp, rfl, (fdIndex_run (Run.exec (by decide) hs)).2.1 _ _ _ hp rfl (by decide)⟩

/-- `a | n | c` where the second command fails to spawn. -/
def failMiddle : List Event :=
  [.line ['a', '|', 'n', '|', 'c'], .main, .malloc [0, 0, 0, 0], .pipe2 (some (4, 5)),
    .pipe2 (some (6, 7)), .main, .main, .main, .setUp fun _ => 0, .spawned 100, .setUp fun _ => 0,
    .spawnFailed none] ++ List.replicate 9 .main

/-- The next pipeline reads beyond its array of two descriptors. -/
theorem fdIndex_failMiddle : ∃ s ctx, Run (fun _ _ => true) s ∧ s.pc = .setUp ctx ∧
    ctx.fds = some [8, 9] ∧ ctx.node.pipe.commands.length = 2 ∧ s.fdIndex = 2 ∧
      setUpPipeReads ctx.itr ctx.node.pipe.commands.length s.fdIndex = [3] := by
  have hrun : (Lts.exec step (fun _ _ => true) (State.init 50 7 .usual)
      (failMiddle ++ setUpTwo)).map (fun s => (s.fdIndex, s.pc)) =
      some (2, .setUp ⟨⟨1, ⟨[⟨[['a']], false⟩, ⟨[['b']], false⟩], none, none, false, false⟩⟩, 1,
        some [8, 9], 0, [], [⟨[['a']], false⟩, ⟨[['b']], false⟩], 0, true⟩) := by
    decide
  obtain ⟨s, hs, he⟩ := Option.map_eq_some_iff.1 hrun
  obtain ⟨hidx, hp⟩ := Prod.ext_iff.1 he
  refine ⟨s, _, Run.exec (by decide) hs, hp, rfl, rfl, hidx, ?_⟩
  change setUpPipeReads 0 2 s.fdIndex = [3]
  rw [show s.fdIndex = 2 from hidx]
  rfl

end State

end Cush
