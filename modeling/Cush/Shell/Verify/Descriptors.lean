import Cush.Shell.Verify.Pipes

/-!
# The descriptors of the shell

What a call of `handle_job` does with descriptors is recorded along the run: those that `pipe2`
returns, those that end up in the file actions of a child, and those that are closed. The array is
closed as a whole, so the shell's own descriptors are safe exactly if every entry was filled by
`pipe2`; what else a child can be passed lies beyond the array, where `fd_index` has not been set
back.
-/

namespace Cush

variable {openMax : OpenMax}

/-! ## The pipes in file actions -/

/-- The numbers that are duplicated onto the standard input or output: those of pipes. -/
def pipeFds (fa : FileActions) : List Fd :=
  fa.filterMap fun
    | .dup2 fd newfd => if newfd = STDERR_FILENO then none else some (fd : Int)
    | .open .. => none

theorem pipeFds_append (fa fb : FileActions) : pipeFds (fa ++ fb) = pipeFds fa ++ pipeFds fb :=
  List.filterMap_append

/-- A pipe is duplicated, if the number is a valid one. -/
theorem pipeFds_adddup2 (fa : FileActions) (fd : Fd) {newfd : Nat} (h : newfd < STDERR_FILENO) :
    pipeFds (fa.adddup2 openMax fd newfd) =
      pipeFds fa ++ [fd].filter (spawnValidFd openMax) := by
  rw [FileActions.adddup2_std openMax fa fd (Nat.le_of_lt h)]
  by_cases hfd : spawnValidFd openMax fd = true
  · have hpos : 0 ≤ fd := of_decide_eq_true (Bool.and_eq_true_iff.1 hfd).1
    have hdup : pipeFds [.dup2 fd.toNat newfd] = [fd] := by
      unfold pipeFds
      simp [Nat.ne_of_lt h, Int.toNat_of_nonneg hpos]
    rw [if_pos hfd, pipeFds_append, hdup, List.filter_cons_of_pos hfd, List.filter_nil]
  · rw [if_neg hfd, List.filter_cons_of_neg hfd, List.filter_nil, List.append_nil]

theorem pipeFds_setUpPipe (fa : FileActions) (newfds : Nat → Fd) (k n i : Nat) :
    pipeFds (setUpPipe openMax fa newfds k n i).1 =
      pipeFds fa ++ ((setUpPipeReads k n i).map newfds).filter (spawnValidFd openMax) := by
  have hin : STDIN_FILENO < STDERR_FILENO := by decide
  have hout : STDOUT_FILENO < STDERR_FILENO := by decide
  unfold setUpPipe setUpPipeReads
  split
  · exact pipeFds_adddup2 fa _ hout
  split
  · exact pipeFds_adddup2 fa _ hin
  · rw [pipeFds_adddup2 _ _ hout, pipeFds_adddup2 _ _ hin, List.append_assoc,
      ← List.filter_append]
    rfl

theorem pipeFds_ioActions (pipe : AstPipeline) (cmd : AstCommand) :
    pipeFds (ioActions pipe cmd) = [] := by
  obtain ⟨commands, inp, out, append, bg⟩ := pipe
  obtain ⟨argv, dup⟩ := cmd
  unfold ioActions
  rw [pipeFds_append]
  cases inp <;> cases out <;> cases append <;> cases dup <;> rfl

theorem pipeFds_stderrActions (dup : Bool) : pipeFds (stderrActions dup) = [] := by
  cases dup <;> rfl

/-- The pipes of a command are what `_set_up_pipe` reads, as far as it is valid. -/
theorem pipeFds_setUpCommand (pipe : AstPipeline) (cmd : AstCommand) (newfds : Nat → Fd)
    (k i : Nat) :
    pipeFds (setUpCommand openMax pipe cmd newfds k i).1 =
      if 1 < pipe.commands.length then
        ((setUpPipeReads k pipe.commands.length i).map newfds).filter (spawnValidFd openMax)
      else [] := by
  rw [setUpCommand_eq, pipeFds_append, pipeFds_stderrActions, List.append_nil]
  split
  · rw [pipeFds_setUpPipe, pipeFds_ioActions, List.nil_append]
  · exact pipeFds_ioActions pipe cmd

/-- What the command at position `k` of `n` is passed, where `fd_index` was `f` at the start. -/
def passedAt (openMax : OpenMax) (n f : Nat) (fds : List Fd) (k : Nat) (mem : Nat → Fd) :
    List Fd :=
  if 1 < n then
    ((setUpPipeReads k n (f + fdIndexBefore k)).map (readFds fds mem)).filter
      (spawnValidFd openMax)
  else []

/-! ## What a call does with descriptors -/

/-- The descriptors that `pipe2` has returned, whether it has failed, what memory held beyond the
array at each set-up, and what has been passed to children and closed. -/
structure FdTrace where
  returned : List Fd
  failed : Bool
  memory : List (Nat → Fd)
  passed : List Fd
  closed : List Fd

namespace State

/-- The trace after one more step. -/
def traceFds (c : FdTrace) (s : State) (e : Event) : FdTrace :=
  match e, s.pc with
  | .pipe2 none, _ => { c with failed := true }
  | .pipe2 (some (r, w)), _ => { c with returned := c.returned ++ [r, w] }
  | .setUp mem, .setUp ctx =>
    match ctx.todo with
    | [] => c
    | cmd :: _ =>
      { c with
        memory := c.memory ++ [mem]
        passed := c.passed ++ pipeFds (setUpCommand s.openMax ctx.node.pipe cmd
          (readFds (ctx.fds.getD []) mem) ctx.itr s.fdIndex).1 }
  | .main, .closeFds _ _ fds _ => { c with closed := c.closed ++ fds.getD [] }
  | _, _ => c

def fdTrace (l : List (State × Event)) : FdTrace :=
  l.foldl (fun c x => traceFds c x.1 x.2) ⟨[], false, [], [], []⟩

variable {s t u : State} {e : Event} {ok : State → Event → Bool} {c : FdTrace} {node : PipeNode}
  {f : Nat}

theorem fdTrace_snoc (l : List (State × Event)) (s : State) (e : Event) :
    fdTrace (l ++ [(s, e)]) = traceFds (fdTrace l) s e := by
  unfold fdTrace
  rw [List.foldl_append]
  rfl

/-- A call of `handle_job` that starts in the state `s` and ends in `t` leaves the descriptors of
the shell as they were: each one that `pipe2` returned is closed once, and no other number is closed
or passed to a child. -/
structure KeepsFds (s : State) (c : FdTrace) (t : State) : Prop where
  unchanged : ∀ fd, fd ∈ t.openFds ↔ fd ∈ s.openFds
  closed_once : ∀ fd ∈ c.returned, c.closed.count fd = 1
  closed_own : ∀ fd ∈ c.closed, fd ∈ c.returned
  passed_own : ∀ fd ∈ c.passed, fd ∈ c.returned

/-- Whatever a set-up reads beyond the array, where `fd_index` was `f` at the start of the call, is
negative or beyond the limit of descriptors, or one that `pipe2` returned. -/
def ReadsOwn (openMax : OpenMax) (pipe : AstPipeline) (f : Nat) (c : FdTrace) : Prop :=
  1 < pipe.commands.length → ∀ k mem, c.memory[k]? = some mem →
    ∀ i ∈ setUpPipeReads k pipe.commands.length (f + fdIndexBefore k),
      fdLen pipe ≤ i → mem i < 0 ∨ openMax.val ≤ mem i ∨ mem i ∈ c.returned

/-! ## During the call -/

/-- The array of descriptors in the loop of `_create_pipes`. -/
structure Creating (c : FdTrace) (node : PipeNode) (fds : List Fd) (i : Nat) : Prop where
  length : fds.length = fdLen node.pipe
  even : i % 2 = 0
  le : i ≤ fds.length
  filled : c.failed = false → fds.take i = c.returned
  short : c.failed = true → c.returned.length < i

/-- The array after that loop; there is none for a single command. -/
structure Created (c : FdTrace) (node : PipeNode) (fds : Option (List Fd)) : Prop where
  length : (fds.getD []).length = fdLen node.pipe
  filled : c.failed = false → fds.getD [] = c.returned
  short : c.failed = true → c.returned.length < (fds.getD []).length

/-- What has been passed in the set-ups so far. -/
structure Passed (openMax : OpenMax) (f : Nat) (c : FdTrace) (node : PipeNode)
    (fds : Option (List Fd)) : Prop where
  le : c.memory.length ≤ node.pipe.commands.length
  passed : c.passed = c.memory.zipIdx.flatMap fun (mem, k) =>
    passedAt openMax node.pipe.commands.length f (fds.getD []) k mem

/-- The variables of the loop over the commands before the command at position `k` is set up. -/
structure AtCommand (f k fdIndex : Nat) (ctx : SpawnCtx) : Prop where
  itr : 1 < ctx.node.pipe.commands.length → ctx.itr = k
  index : 1 < ctx.node.pipe.commands.length → k < ctx.node.pipe.commands.length →
    fdIndex = f + fdIndexBefore k

/-- What holds at the points of a call for `node`, where `fd_index` was `f` at the start. -/
def CallAt (openMax : OpenMax) (node : PipeNode) (f : Nat) (c : FdTrace) (fdIndex : Nat) :
    Pc → Prop
  | .handleJob node' =>
    node' = node ∧ c.returned = [] ∧ c.failed = false ∧ c.memory = [] ∧ c.passed = [] ∧ fdIndex = f
  | .createPipes node' fds i =>
    node' = node ∧ Creating c node fds i ∧ c.memory = [] ∧ c.passed = [] ∧ fdIndex = f
  | .blockSigchld node' fds | .addJob node' fds =>
    node' = node ∧ Created c node fds ∧ c.memory = [] ∧ c.passed = [] ∧ fdIndex = f
  | .setUp ctx =>
    ctx.node = node ∧ Created c node ctx.fds ∧ Passed openMax f c node ctx.fds ∧
      c.memory.length = ctx.spawned.length ∧ AtCommand f c.memory.length fdIndex ctx
  | .spawn ctx _ =>
    ctx.node = node ∧ Created c node ctx.fds ∧ Passed openMax f c node ctx.fds ∧
      c.memory.length = ctx.spawned.length + 1 ∧ AtCommand f c.memory.length fdIndex ctx
  | .closeFds node' _ fds _ => node' = node ∧ Created c node fds ∧ Passed openMax f c node fds
  | _ => True

/-- The descriptors of the shell in a call that started in the state `s`. -/
structure Calling (s : State) (node : PipeNode) (c : FdTrace) (u : State) : Prop where
  openFds : u.openFds = s.openFds ++ c.returned
  nodup : c.returned.Nodup
  fresh : ∀ fd ∈ c.returned, fd ∉ s.openFds
  closed : c.closed = []
  openMax : u.openMax = s.openMax
  at_pc : CallAt s.openMax node s.fdIndex c u.fdIndex u.pc

/-! ## One step of a call -/

theorem traceFds_point (c : FdTrace)
    (hc : ∀ node jid fds fail, s.pc ≠ .closeFds node jid fds fail) : traceFds c s .main = c := by
  unfold traceFds
  cases hpc : s.pc with
  | closeFds node jid fds fail => exact absurd hpc (hc node jid fds fail)
  | _ => rfl

theorem traceFds_main (c : FdTrace) {node : PipeNode} {jid : Nat} {fds : Option (List Fd)}
    {fail : Bool} (hp : s.pc = .closeFds node jid fds fail) :
    traceFds c s .main = { c with closed := c.closed ++ fds.getD [] } := by
  unfold traceFds
  rw [hp]

theorem traceFds_setUp (c : FdTrace) {ctx : SpawnCtx} {cmd : AstCommand} {rest : List AstCommand}
    (mem : Nat → Fd) (hp : s.pc = .setUp ctx) (ht : ctx.todo = cmd :: rest) :
    traceFds c s (.setUp mem) =
      { c with
        memory := c.memory ++ [mem]
        passed := c.passed ++ pipeFds (setUpCommand s.openMax ctx.node.pipe cmd
          (readFds (ctx.fds.getD []) mem) ctx.itr s.fdIndex).1 } := by
  unfold traceFds
  rw [hp]
  dsimp only
  rw [ht]

/-- A round of the loop of `_create_pipes`. -/
theorem pipe2_step {fds : List Fd} {i : Nat} {ends : Option (Fd × Fd)}
    (hp : s.pc = .createPipes node fds i) (hs : step s (.pipe2 ends) = some t) :
    i < fds.length ∧
      ((ends = none ∧ t = { s with pc := .createPipes node fds (i + 2) }) ∨
      ∃ r w, ends = some (r, w) ∧ r ≠ w ∧ r ∉ s.openFds ∧ w ∉ s.openFds ∧
        t = { s with openFds := s.openFds ++ [r, w],
                     pc := .createPipes node ((fds.set i r).set (i + 1) w) (i + 2) }) := by
  unfold step at hs
  split at hs
  · dsimp only at hs
    split at hs
    · unfold answerStep at hs
      rw [hp] at hs
      dsimp only at hs
      split at hs
      · rename_i hi
        refine ⟨hi, ?_⟩
        unfold createPipe at hs
        split at hs
        · cases hs
          exact Or.inl ⟨rfl, rfl⟩
        · rename_i r w
          split at hs
          · rename_i hok
            cases hs
            exact Or.inr ⟨r, w, rfl, hok.2.2.1, hok.2.2.2.1, hok.2.2.2.2, rfl⟩
          · cases hs
      · cases hs
    · cases hs
  · cases hs

theorem fdLen_even (pipe : AstPipeline) : fdLen pipe % 2 = 0 :=
  Nat.mul_mod_left _ _

/-- A round that fills its two entries of the array, or none. -/
theorem Creating.filledNext {fds : List Fd} {i : Nat} {r w : Fd} (h : Creating c node fds i)
    (hi : i < fds.length) :
    Creating { c with returned := c.returned ++ [r, w] } node ((fds.set i r).set (i + 1) w)
      (i + 2) := by
  have heven := fdLen_even node.pipe
  have hlen := h.length
  have hmod := h.even
  have hi1 : i + 1 < fds.length := by omega
  refine ⟨by simp [hlen], by omega, by simp; omega, fun hf => ?_, fun hf => ?_⟩
  · have htake : ((fds.set i r).set (i + 1) w).take (i + 2) = fds.take i ++ [r, w] := by
      have hr : ((fds.set i r).set (i + 1) w)[i]? = some r := by
        rw [List.getElem?_set_ne (by omega), List.getElem?_set_self hi]
      have hw : ((fds.set i r).set (i + 1) w)[i + 1]? = some w :=
        List.getElem?_set_self (by rwa [List.length_set])
      rw [List.take_add_one, List.take_add_one, hr, hw, List.take_set_of_le (Nat.le_succ i),
        List.take_set_of_le (Nat.le_refl i), List.append_assoc]
      rfl
    rw [htake, h.filled hf]
  · have hshort := h.short hf
    simp only [List.length_append, List.length_cons, List.length_nil]
    omega

theorem Creating.returned_le {fds : List Fd} {i : Nat} (h : Creating c node fds i) :
    c.returned.length ≤ i := by
  cases hf : c.failed with
  | false =>
    rw [← h.filled hf, List.length_take]
    exact Nat.min_le_left _ _
  | true => exact Nat.le_of_lt (h.short hf)

theorem Creating.failedNext {fds : List Fd} {i : Nat} (h : Creating c node fds i)
    (hi : i < fds.length) : Creating { c with failed := true } node fds (i + 2) := by
  have heven := fdLen_even node.pipe
  have hlen := h.length
  have hmod := h.even
  have hle := h.returned_le
  exact ⟨hlen, by omega, by omega, fun hf => (nomatch hf),
    fun _ => Nat.lt_of_le_of_lt hle (by omega)⟩

theorem Creating.created {fds : List Fd} {i : Nat} (h : Creating c node fds i)
    (hi : ¬ i < fds.length) : Created c node (some fds) := by
  have hle := h.le
  obtain rfl : i = fds.length := by omega
  refine ⟨h.length, fun hf => ?_, h.short⟩
  rw [← h.filled hf, List.take_length]
  rfl

theorem setUpCommand_index (openMax : OpenMax) (pipe : AstPipeline) (cmd : AstCommand)
    (newfds : Nat → Fd) {f k : Nat} (hk : k + 1 < pipe.commands.length) :
    (setUpCommand openMax pipe cmd newfds k (f + fdIndexBefore k)).2 =
      f + fdIndexBefore (k + 1) := by
  obtain ⟨fa, hfa⟩ := setUpCommand_setUpPipe pipe cmd newfds k (f + fdIndexBefore k)
  rw [hfa, if_pos (by omega), setUpPipe_fdIndex openMax fa newfds f hk]

theorem Passed.empty {fds : Option (List Fd)} (hm : c.memory = []) (hp : c.passed = []) :
    Passed openMax f c node fds := by
  refine ⟨?_, ?_⟩
  · rw [hm]
    exact Nat.zero_le _
  · rw [hm, hp]
    rfl

/-- The set-up of one more command. -/
theorem Passed.setUp {ctx : SpawnCtx} {cmd : AstCommand} {mem : Nat → Fd} {fdIndex : Nat}
    (h : Passed openMax f c ctx.node ctx.fds) (ha : AtCommand f c.memory.length fdIndex ctx)
    (hk : c.memory.length < ctx.node.pipe.commands.length) :
    Passed openMax f
      { c with
        memory := c.memory ++ [mem]
        passed := c.passed ++ pipeFds (setUpCommand openMax ctx.node.pipe cmd
          (readFds (ctx.fds.getD []) mem) ctx.itr fdIndex).1 }
      ctx.node ctx.fds := by
  refine ⟨?_, ?_⟩
  · rw [List.length_append]
    exact hk
  · have hnew : pipeFds (setUpCommand openMax ctx.node.pipe cmd (readFds (ctx.fds.getD []) mem)
        ctx.itr fdIndex).1 =
        passedAt openMax ctx.node.pipe.commands.length f (ctx.fds.getD []) c.memory.length mem := by
      rw [pipeFds_setUpCommand, passedAt]
      split
      · rename_i hn
        rw [ha.itr hn, ha.index hn hk]
      · rfl
    dsimp only
    rw [hnew, h.passed, List.zipIdx_append, List.flatMap_append]
    simp

/-- The variables after a set-up. -/
theorem AtCommand.setUp (openMax : OpenMax) {ctx : SpawnCtx} (cmd : AstCommand)
    (newfds : Nat → Fd) {k fdIndex : Nat} (h : AtCommand f k fdIndex ctx)
    (hk : k < ctx.node.pipe.commands.length) :
    AtCommand f (k + 1) (setUpCommand openMax ctx.node.pipe cmd newfds ctx.itr fdIndex).2
      { ctx with itr := if ctx.node.pipe.commands.length > 1 then ctx.itr + 1 else ctx.itr } := by
  refine ⟨fun hn => ?_, fun hn hlt => ?_⟩
  · dsimp only
    rw [if_pos hn, h.itr hn]
  · rw [h.itr hn, h.index hn hk, setUpCommand_index _ _ _ _ hlt]

theorem Calling.keep (h : Calling s node c u) (ho : t.openFds = u.openFds)
    (hm : t.openMax = u.openMax) (hat : CallAt s.openMax node s.fdIndex c t.fdIndex t.pc) :
    Calling s node c t :=
  ⟨ho.trans h.openFds, h.nodup, h.fresh, h.closed, hm.trans h.openMax, hat⟩

theorem Calling.pipe2 {fds : List Fd} {i : Nat} {ends : Option (Fd × Fd)}
    (h : Calling s node c u) (hp : u.pc = .createPipes node fds i)
    (hat : Creating c node fds i ∧ c.memory = [] ∧ c.passed = [] ∧ u.fdIndex = s.fdIndex)
    (hs : step u (.pipe2 ends) = some t) : Calling s node (traceFds c u (.pipe2 ends)) t := by
  obtain ⟨hc, hm, hpass, hidx⟩ := hat
  obtain ⟨hi, ⟨rfl, rfl⟩ | ⟨r, w, rfl, hne, hr, hw, rfl⟩⟩ := pipe2_step hp hs
  · exact ⟨h.openFds, h.nodup, h.fresh, h.closed, h.openMax, rfl, hc.failedNext hi, hm, hpass, hidx⟩
  · rw [h.openFds, List.mem_append, not_or] at hr hw
    refine ⟨?_, ?_, ?_, h.closed, h.openMax, rfl, hc.filledNext hi, hm, hpass, hidx⟩
    · dsimp only [traceFds]
      rw [h.openFds, List.append_assoc]
    · refine List.nodup_append.2 ⟨h.nodup, by simp [hne], ?_⟩
      rintro fd hfd _ hnew rfl
      simp only [List.mem_cons, List.not_mem_nil, or_false] at hnew
      rcases hnew with rfl | rfl
      · exact hr.2 hfd
      · exact hw.2 hfd
    · intro fd hfd
      rcases List.mem_append.1 hfd with hold | hnew
      · exact h.fresh fd hold
      · simp only [List.mem_cons, List.not_mem_nil, or_false] at hnew
        rcases hnew with rfl | rfl
        · exact hr.1
        · exact hw.1

/-- One step of a call. -/
theorem Calling.move (h : Calling s node c u) (hS : u.Spawning) (hu : u.pc.node.isSome = true)
    (ht : t.pc.node.isSome = true) (hs : step u e = some t) :
    Calling s node (traceFds c u e) t := by
  have hat := h.at_pc
  have hstep := hs
  cases (step_move hs).2 with
  | child | sigchld | setAttr | others | handlerStart | handlerReturn => exact h.keep rfl rfl hat
  | handled out hwait =>
    rcases hwait.event with rfl | rfl <;> exact h.keep rfl rfl hat
  | lost | unblocked | eof | crash | abort | waitFatal | giveFatal | closeFdsWait | closeFds =>
    cases ht
  | @handleJob node' hh hp hn =>
    rw [hp] at hat
    obtain ⟨rfl, hret, hfail, hm, hpass, hidx⟩ := hat
    rw [traceFds_point c (by rw [hp]; rintro _ _ _ _ ⟨⟩)]
    refine h.keep rfl rfl ⟨rfl, ⟨?_, fun _ => hret.symm, fun hf => ?_⟩, hm, hpass, hidx⟩
    · have hone : node'.pipe.commands.length - 1 = 0 := by omega
      unfold fdLen
      rw [hone]
      rfl
    · rw [hfail] at hf
      cases hf
  | @malloc node' fds hh hp hn hf =>
    rw [hp] at hat
    obtain ⟨rfl, hret, hfail, hm, hpass, hidx⟩ := hat
    refine h.keep rfl rfl
      ⟨rfl, ⟨hf, rfl, Nat.zero_le _, fun _ => ?_, fun hf => ?_⟩, hm, hpass, hidx⟩
    · exact hret.symm
    · rw [hfail] at hf
      cases hf
  | @pipe2 node' fds fds' i ends openFds hh hp hi hf =>
    rw [hp] at hat
    obtain ⟨rfl, hat⟩ := hat
    exact h.pipe2 hp hat hstep
  | @createPipesEnd node' fds i hh hp hi =>
    rw [hp] at hat
    obtain ⟨rfl, hc, hm, hpass, hidx⟩ := hat
    rw [traceFds_point c (by rw [hp]; rintro _ _ _ _ ⟨⟩)]
    exact h.keep rfl rfl ⟨rfl, hc.created hi, hm, hpass, hidx⟩
  | @blockSigchld node' fds hh hp =>
    rw [hp] at hat
    rw [traceFds_point c (by rw [hp]; rintro _ _ _ _ ⟨⟩)]
    exact h.keep rfl rfl hat
  | @addJob node' fds jid job hh hp hj hlt hjob =>
    rw [hp] at hat
    obtain ⟨rfl, hc, hm, hpass, hidx⟩ := hat
    rw [traceFds_point c (by rw [hp]; rintro _ _ _ _ ⟨⟩)]
    refine h.keep rfl rfl ⟨rfl, hc, .empty hm hpass, ?_, ?_⟩
    · rw [hm]
      rfl
    · rw [hm]
      exact ⟨fun _ => rfl, fun _ _ => hidx⟩
  | @setUp ctx cmd rest mem fa fdIndex hh hp htodo hset =>
    rw [hp] at hat
    obtain ⟨rfl, hc, hpass, hlen, hcmd⟩ := hat
    obtain ⟨job, -, hagrees⟩ := hS ctx (by rw [hp]; rfl)
    have hk : c.memory.length < ctx.node.pipe.commands.length := by
      rw [hlen, hagrees.position htodo]
      omega
    rw [h.openMax] at hset
    rw [traceFds_setUp c mem hp htodo, h.openMax]
    refine ⟨h.openFds, h.nodup, h.fresh, h.closed, rfl, rfl, ⟨hc.length, hc.filled, hc.short⟩,
      hpass.setUp hcmd hk, ?_, ?_⟩
    · rw [List.length_append, hlen]
      rfl
    · rw [List.length_append]
      have hnext := hcmd.setUp s.openMax cmd (readFds (ctx.fds.getD []) mem) hk
      rw [hset] at hnext
      exact hnext
  | @setUpEnd ctx hh hp htodo =>
    rw [hp] at hat
    obtain ⟨rfl, hc, hpass, -, -⟩ := hat
    rw [traceFds_point c (by rw [hp]; rintro _ _ _ _ ⟨⟩)]
    exact h.keep rfl rfl ⟨rfl, hc, hpass⟩
  | @spawned ctx fa cmd rest job pid hh hp htodo hg hf he =>
    rw [hp] at hat
    obtain ⟨rfl, hc, hpass, hlen, hcmd⟩ := hat
    refine h.keep rfl rfl ⟨rfl, hc, hpass, ?_, hcmd.itr, hcmd.index⟩
    dsimp only [spawnOk]
    rw [hlen, List.length_append]
    rfl
  | @spawnFailed ctx fa cmd rest job took out tty hh hp htodo hg =>
    rw [hp] at hat
    obtain ⟨rfl, hc, hpass, -, -⟩ := hat
    exact h.keep rfl rfl ⟨rfl, hc, hpass⟩
  | dispatch out hh hp =>
    rw [hp] at hu
    cases hu
  | deadEnd hh hp =>
    rw [hp] at hu
    cases hu
  | _ =>
    rw [‹u.pc = _›] at hu
    cases hu

theorem Calling.start (hp : s.pc = .handleJob node) :
    Calling s node (fdTrace []) s := by
  refine ⟨(List.append_nil _).symm, List.nodup_nil, fun _ hfd => (nomatch hfd), rfl, rfl, ?_⟩
  rw [hp]
  exact ⟨rfl, rfl, rfl, rfl, rfl, rfl⟩

/-- The points of one call of `handle_job`. -/
def InCall (l : List (State × Event)) : Prop :=
  ∀ x ∈ l, x.1.pc.node.isSome = true

theorem Path.calling (hr : Run ok s) (hp : s.pc = .handleJob node) {l : List (State × Event)}
    (hpath : Path ok s l u) (hin : InCall l) (hu : u.pc.node.isSome = true) :
    Calling s node (fdTrace l) u := by
  induction hpath with
  | nil => exact .start hp
  | @snoc l v w e hpath hok hs ih =>
    have hv : v.pc.node.isSome = true :=
      hin (v, e) (List.mem_append_right _ (List.mem_singleton_self _))
    have hcall := ih (fun x hx => hin x (List.mem_append_left _ hx)) hv
    have hrv : Run ok v := Lts.Path.reach hpath hr
    rw [fdTrace_snoc]
    exact hcall.move hrv.spawning hv hu hs

/-! ## The end of a call -/

/-- All the array is closed. -/
theorem closeFds_openFds {jid : Nat} {fds : Option (List Fd)} {fail : Bool}
    (hp : s.pc = .closeFds node jid fds fail) (hs : step s .main = some t) :
    t.openFds = s.openFds.filter fun fd => !(fds.getD []).contains fd := by
  obtain ⟨-, -, ha⟩ := step_main hs
  unfold answerStep mainStep at ha
  rw [hp] at ha
  cases ha
  unfold State.closeFds
  dsimp only
  split
  · unfold enterWaitForJob
    split <;> rfl
  split
  · unfold forJob
    split <;> rfl
  · rfl

/-- The whole array is closed, so each of its entries has to be one that `pipe2` returned. -/
theorem failed_of_keepsFds {fds : Option (List Fd)} (h : KeepsFds s c t)
    (hc : Created c node fds) (hclosed : c.closed = fds.getD []) : c.failed = false := by
  by_contra hf
  rw [Bool.not_eq_false] at hf
  have hshort := hc.short hf
  rw [← hclosed] at hshort
  have hnodup : c.closed.Nodup :=
    List.nodup_iff_count.2 fun fd => by
      by_cases hmem : fd ∈ c.closed
      · exact Nat.le_of_eq (h.closed_once fd (h.closed_own fd hmem))
      · rw [List.count_eq_zero.2 hmem]
        exact Nat.zero_le 1
  have hle := hnodup.length_le_of_subset h.closed_own
  omega

theorem mem_passedAt {n k : Nat} {fds : List Fd} {mem : Nat → Fd} {fd : Fd} :
    fd ∈ passedAt openMax n f fds k mem ↔ 1 < n ∧ spawnValidFd openMax fd = true ∧
      ∃ i ∈ setUpPipeReads k n (f + fdIndexBefore k), readFds fds mem i = fd := by
  unfold passedAt
  split
  · rename_i hn
    rw [List.mem_filter, List.mem_map, and_comm]
    exact (and_iff_right hn).symm
  · rename_i hn
    exact ⟨fun h => (nomatch h), fun h => absurd h.1 hn⟩

/-- Where the array is filled, what is passed to the children is their own unless it was read beyond
the array. -/
theorem passed_iff_readsOwn {fds : Option (List Fd)} (hc : Created c node fds)
    (hpass : Passed openMax f c node fds) (hf : c.failed = false) :
    (∀ fd ∈ c.passed, fd ∈ c.returned) ↔ ReadsOwn openMax node.pipe f c := by
  have hfds := hc.filled hf
  have hlen := hc.length
  rw [hpass.passed]
  constructor
  · intro h hn k mem hk i hi hle
    by_cases hvalid : spawnValidFd openMax (mem i) = true
    · have hread : readFds (fds.getD []) mem i = mem i := by
        unfold readFds
        rw [List.getElem?_eq_none (by omega), Option.getD_none]
      exact Or.inr (Or.inr (h _ (List.mem_flatMap.2 ⟨(mem, k),
        List.mk_mem_zipIdx_iff_getElem?.2 hk, mem_passedAt.2 ⟨hn, hvalid, i, hi, hread⟩⟩)))
    · exact (not_spawnValidFd.1 hvalid).imp_right Or.inl
  · intro h fd hfd
    obtain ⟨⟨mem, k⟩, hmem, hfd⟩ := List.mem_flatMap.1 hfd
    have hk := List.mk_mem_zipIdx_iff_getElem?.1 hmem
    obtain ⟨hn, hvalid, i, hi, hread⟩ := mem_passedAt.1 hfd
    unfold readFds at hread
    cases hget : (fds.getD [])[i]? with
    | some fd' =>
      rw [hget, Option.getD_some] at hread
      rw [← hfds, ← hread]
      exact List.mem_of_getElem? hget
    | none =>
      rw [hget, Option.getD_none] at hread
      have hle := List.getElem?_eq_none_iff.1 hget
      rw [← hread] at hvalid ⊢
      rcases h hn k mem hk i hi (by omega) with hneg | hlarge | hown
      · exact absurd hvalid (not_spawnValidFd.2 (Or.inl hneg))
      · exact absurd hvalid (not_spawnValidFd.2 (Or.inr hlarge))
      · exact hown

/-- Nothing is read beyond the array where `fd_index` is 0. -/
theorem readsOwn_zero (h : c.memory.length ≤ node.pipe.commands.length) :
    ReadsOwn openMax node.pipe 0 c := by
  intro hn k mem hk i hi hle
  have hlt := (List.getElem?_eq_some_iff.1 hk).1
  rw [Nat.zero_add] at hi
  have := setUpPipeReads_lt (by omega) hn i hi
  unfold fdLen at hle
  omega

theorem traceFds_failed (c : FdTrace) (s : State) (e : Event) :
    (traceFds c s e).failed = false ↔ c.failed = false ∧ e ≠ .pipe2 none := by
  cases e with
  | pipe2 ends =>
    cases ends with
    | none => exact ⟨fun h => (nomatch h), fun h => absurd rfl h.2⟩
    | some ends => exact (and_iff_left nofun).symm
  | setUp mem =>
    refine Iff.trans ?_ (and_iff_left nofun).symm
    unfold traceFds
    cases s.pc with
    | setUp ctx =>
      dsimp only
      split <;> exact Iff.rfl
    | _ => exact Iff.rfl
  | main =>
    refine Iff.trans ?_ (and_iff_left nofun).symm
    unfold traceFds
    cases s.pc <;> exact Iff.rfl
  | _ => exact (and_iff_left nofun).symm

theorem fdTrace_failed (l : List (State × Event)) :
    (fdTrace l).failed = false ↔ ∀ x ∈ l, x.2 ≠ .pipe2 none := by
  have hfold : ∀ c : FdTrace, (l.foldl (fun c x => traceFds c x.1 x.2) c).failed = false ↔
      c.failed = false ∧ ∀ x ∈ l, x.2 ≠ .pipe2 none := by
    induction l with
    | nil => simp
    | cons x l ih =>
      intro c
      rw [List.foldl_cons, ih, traceFds_failed, List.forall_mem_cons, and_assoc]
  exact (hfold _).trans (and_iff_right rfl)

/-- **The descriptors of the shell** are as before after every call of `handle_job` in which each
`pipe2` succeeds and no set-up reads another valid descriptor beyond the array, and after no other
one. Nothing is read beyond the array in a run in which only the first or the last command of a
pipeline fails to spawn. -/
theorem descriptors_run (hr : Run ok s) (hp : s.pc = .handleJob node) {l : List (State × Event)}
    (hpath : Path ok s l u) (hin : InCall l) {node' : PipeNode} {jid : Nat}
    {fds : Option (List Fd)} {fail : Bool} (hu : u.pc = .closeFds node' jid fds fail)
    (hs : step u .main = some t) :
    (KeepsFds s (fdTrace (l ++ [(u, .main)])) t ↔
      (∀ x ∈ l, x.2 ≠ .pipe2 none) ∧ ReadsOwn s.openMax node.pipe s.fdIndex (fdTrace l)) ∧
    (Run endsSpawn s → ReadsOwn s.openMax node.pipe s.fdIndex (fdTrace l)) := by
  have hcall := hpath.calling hr hp hin (by rw [hu]; rfl)
  have hat := hcall.at_pc
  rw [hu] at hat
  obtain ⟨rfl, hc, hpass⟩ := hat
  have hopen := closeFds_openFds hu hs
  rw [fdTrace_snoc, traceFds_main _ hu, hcall.closed, List.nil_append, ← fdTrace_failed]
  refine ⟨⟨fun h => ?_, fun ⟨hf, hown⟩ => ?_⟩, fun hrun => ?_⟩
  · have hf := failed_of_keepsFds h ⟨hc.length, hc.filled, hc.short⟩ rfl
    exact ⟨hf, (passed_iff_readsOwn hc hpass hf).1 h.passed_own⟩
  · have hfds := hc.filled hf
    refine ⟨fun fd => ?_, fun fd hfd => ?_, fun fd hfd => ?_,
      (passed_iff_readsOwn hc hpass hf).2 hown⟩
    · rw [hopen, hcall.openFds, hfds, List.mem_filter, List.mem_append, Bool.not_eq_true',
        ← Bool.not_eq_true, List.contains_iff_mem]
      exact ⟨fun h => h.1.resolve_right h.2, fun h => ⟨Or.inl h, fun hn => hcall.fresh fd hn h⟩⟩
    · dsimp only at hfd ⊢
      rw [hfds]
      have hle := List.nodup_iff_count.1 hcall.nodup fd
      have hpos := List.count_pos_iff.2 hfd
      omega
    · dsimp only at hfd ⊢
      rwa [hfds] at hfd
  · have hidx := hrun.indexed.outside (by rw [hp]; rfl) (by rw [hp]; rfl)
    rw [hidx]
    exact readsOwn_zero hpass.le

/-- `a | b`. -/
def nodeTwo : PipeNode :=
  ⟨0, ⟨[⟨[['a']], false⟩, ⟨[['b']], false⟩], none, none, false, false⟩⟩

/-- Up to the call of `handle_job` for it. -/
def enterTwo : List Event :=
  [.line ['a', '|', 'b'], .main]

/-- From there to the end of the loop over the commands, where `malloc` returns zeros. -/
def callTwo (ends : Option (Fd × Fd)) : List Event :=
  [.malloc [0, 0], .pipe2 ends, .main, .main, .main, .setUp fun _ => 0, .spawned 100,
    .setUp fun _ => 0, .spawned 101, .main]

/-- The two ends of the pipe are closed again. -/
theorem descriptors_run_two : ∃ s u t, Run endsSpawn s ∧
    Path endsSpawn s (Lts.record step s (callTwo (some (8, 9)))) u ∧ step u .main = some t ∧
    u.openFds = [0, 1, 2, 3, 8, 9] ∧
    KeepsFds s (fdTrace (Lts.record step s (callTwo (some (8, 9))) ++ [(u, .main)])) t := by
  have hrun : ((Lts.exec step endsSpawn (State.init 50 7 .usual) enterTwo).bind fun s =>
      (Lts.exec step endsSpawn s (callTwo (some (8, 9)))).bind fun u =>
        (step u .main).map fun _ => ((s.pc, u.pc), (u.openFds,
          (fdTrace (Lts.record step s (callTwo (some (8, 9))))).failed,
          (Lts.record step s (callTwo (some (8, 9)))).all fun x => x.1.pc.node.isSome))) =
      some ((.handleJob nodeTwo, .closeFds nodeTwo 1 (some [8, 9]) false),
        ([0, 1, 2, 3, 8, 9], false, true)) := by
    decide
  obtain ⟨s, hs, hrun⟩ := Option.bind_eq_some_iff.1 hrun
  obtain ⟨u, hu, hrun⟩ := Option.bind_eq_some_iff.1 hrun
  obtain ⟨t, ht, he⟩ := Option.map_eq_some_iff.1 hrun
  simp only [Prod.mk.injEq] at he
  obtain ⟨⟨hps, hpu⟩, hopen, hfail, hin⟩ := he
  have hr : Run endsSpawn s := Run.exec (by decide) hs
  have hpath := Path.record hu
  have hcall := descriptors_run hr hps hpath (List.all_eq_true.1 hin) hpu ht
  exact ⟨s, u, t, hr, hpath, ht, hopen, hcall.1.2 ⟨(fdTrace_failed _).1 hfail, hcall.2 hr⟩⟩

/-- Where `pipe2` fails, the shell closes its standard input. -/
theorem descriptors_failed : ∃ s u t, Run (fun _ _ => true) s ∧ s.pc = .handleJob nodeTwo ∧
    Path (fun _ _ => true) s (Lts.record step s (callTwo none)) u ∧
    InCall (Lts.record step s (callTwo none)) ∧ step u .main = some t ∧
    s.openFds = [0, 1, 2, 3] ∧ t.openFds = [1, 2, 3] ∧
    ¬ KeepsFds s (fdTrace (Lts.record step s (callTwo none) ++ [(u, .main)])) t := by
  have hrun : ((Lts.exec step (fun _ _ => true) (State.init 50 7 .usual) enterTwo).bind fun s =>
      (Lts.exec step (fun _ _ => true) s (callTwo none)).bind fun u =>
        (step u .main).map fun t => (s.pc, (s.openFds, t.openFds),
          (Lts.record step s (callTwo none)).all fun x => x.1.pc.node.isSome)) =
      some (.handleJob nodeTwo, ([0, 1, 2, 3], [1, 2, 3]), true) := by
    decide
  obtain ⟨s, hs, hrun⟩ := Option.bind_eq_some_iff.1 hrun
  obtain ⟨u, hu, hrun⟩ := Option.bind_eq_some_iff.1 hrun
  obtain ⟨t, ht, he⟩ := Option.map_eq_some_iff.1 hrun
  simp only [Prod.mk.injEq] at he
  obtain ⟨hps, ⟨hopen, hopen'⟩, hin⟩ := he
  refine ⟨s, u, t, Run.exec (by decide) hs, hps, Path.record hu, List.all_eq_true.1 hin, ht, hopen,
    hopen', fun h => ?_⟩
  have hzero := (h.unchanged 0).2 (by rw [hopen]; decide)
  rw [hopen'] at hzero
  exact absurd hzero (by decide)

end State

end Cush
