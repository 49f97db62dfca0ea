import Cush.Spawn.Verify.Wiring

/-!
# Which children open the files of a redirection

The redirections of a pipeline are set up in the loop over its commands, so every child opens both
files before its pipes replace what it has opened. What the children of a pipeline open is kept in
order, with the position of the child; a child whose spawn fails has executed a part of its actions,
and ends the loop.
-/

namespace Cush

variable {openMax : OpenMax}

/-- How a spawn ends: a failed one has executed so many of its file actions. -/
inductive SpawnOutcome where
  | spawned
  | failed (executed : Nat)
  deriving Repr, DecidableEq

/-- The actions that are executed. -/
def SpawnOutcome.executed : SpawnOutcome → FileActions → FileActions
  | .spawned, fa => fa
  | .failed executed, fa => fa.take executed

/-- The files that some actions open. -/
def opens (fa : FileActions) : List (Word × OpenMode) :=
  fa.filterMap fun
    | .open _ path oflag => some (path, oflag)
    | .dup2 .. => none

/-- A file opened by the child at a position. -/
abbrev ChildOpen := Nat × Word × OpenMode

/-- What the children open that the loop spawns from position `k` on, where each spawn ends as
given. -/
def childOpens (outcome : Nat → SpawnOutcome) : Nat → List FileActions → List ChildOpen
  | _, [] => []
  | k, fa :: fas =>
    (opens ((outcome k).executed fa)).map (k, ·) ++
      if outcome k = .spawned then childOpens outcome (k + 1) fas else []

/-- Whether an open is that of the input file; output files are opened for writing. -/
def ChildOpen.isInput (x : ChildOpen) : Bool :=
  x.2.2 = .readOnly

/-! ## The opens of one child -/

theorem opens_append (fa fb : FileActions) : opens (fa ++ fb) = opens fa ++ opens fb :=
  List.filterMap_append

/-- The redirections of a pipeline, as they are opened. -/
def redirectOpens (pipe : AstPipeline) : List (Word × OpenMode) :=
  pipe.ioredInput.toList.map (·, .readOnly) ++
    pipe.ioredOutput.toList.map (·, outputMode pipe.appendToOutput)

/-- Actions are added that open nothing. -/
def Extends (fa fb : FileActions) : Prop :=
  ∃ tail, fb = fa ++ tail ∧ opens tail = []

theorem Extends.refl (fa : FileActions) : Extends fa fa :=
  ⟨[], (List.append_nil fa).symm, rfl⟩

theorem Extends.trans {fa fb fc : FileActions} (h : Extends fa fb) (h' : Extends fb fc) :
    Extends fa fc := by
  obtain ⟨tail, rfl, ht⟩ := h
  obtain ⟨tail', rfl, ht'⟩ := h'
  refine ⟨tail ++ tail', List.append_assoc _ _ _, ?_⟩
  rw [opens_append, ht, ht']
  rfl

theorem extends_adddup2 (fa : FileActions) (fd : Fd) (newfd : Nat) :
    Extends fa (fa.adddup2 openMax fd newfd) := by
  unfold FileActions.adddup2
  split
  · exact ⟨_, rfl, rfl⟩
  · exact .refl fa

theorem extends_setUpPipe (fa : FileActions) (newfds : Nat → Fd) (itr cmdLen fdIndex : Nat) :
    Extends fa (setUpPipe openMax fa newfds itr cmdLen fdIndex).1 := by
  unfold setUpPipe
  split
  · exact extends_adddup2 fa _ _
  split
  · exact extends_adddup2 fa _ _
  · exact (extends_adddup2 fa _ _).trans (extends_adddup2 _ _ _)

/-- The actions of every command start with both redirections, and open nothing else. -/
theorem extends_setUpCommand (pipe : AstPipeline) (cmd : AstCommand) (newfds : Nat → Fd)
    (itr fdIndex : Nat) :
    Extends (ioActions pipe cmd) (setUpCommand openMax pipe cmd newfds itr fdIndex).1 := by
  have dup : ∀ fa : FileActions, Extends fa (fa ++ stderrActions cmd.dupStderrToStdout) := by
    intro fa
    cases cmd.dupStderrToStdout <;> exact ⟨_, rfl, rfl⟩
  have pipes : Extends (ioActions pipe cmd)
      (if 1 < pipe.commands.length then
        setUpPipe openMax (ioActions pipe cmd) newfds itr pipe.commands.length fdIndex
      else (ioActions pipe cmd, fdIndex)).1 := by
    split
    · exact extends_setUpPipe _ _ _ _ _
    · exact .refl _
  rw [setUpCommand_eq]
  exact pipes.trans (dup _)

theorem opens_ioActions (pipe : AstPipeline) (cmd : AstCommand) :
    opens (ioActions pipe cmd) = redirectOpens pipe := by
  obtain ⟨commands, inp, out, append, bg⟩ := pipe
  obtain ⟨argv, dup⟩ := cmd
  unfold ioActions
  rw [opens_append]
  cases inp <;> cases out <;> cases append <;> cases dup <;> rfl

theorem opens_setUpCommand (pipe : AstPipeline) (cmd : AstCommand) (newfds : Nat → Fd)
    (itr fdIndex : Nat) :
    opens (setUpCommand openMax pipe cmd newfds itr fdIndex).1 = redirectOpens pipe := by
  obtain ⟨tail, hfa, ht⟩ := extends_setUpCommand pipe cmd newfds itr fdIndex
  rw [hfa, opens_append, ht, List.append_nil, opens_ioActions]

/-- How many actions of a command precede the open of the output file. -/
def beforeOutput (pipe : AstPipeline) (cmd : AstCommand) : Nat :=
  if pipe.ioredInput.isSome then (if cmd.dupStderrToStdout then 2 else 1) else 0

theorem ioActions_output {pipe : AstPipeline} (cmd : AstCommand) {path : Word}
    (h : pipe.ioredOutput = some path) :
    ∃ pre rest, ioActions pipe cmd =
        pre ++ .open STDOUT_FILENO path (outputMode pipe.appendToOutput) :: rest ∧
      pre.length = beforeOutput pipe cmd ∧ ∀ x ∈ opens pre, x.2 = .readOnly := by
  obtain ⟨commands, inp, out, append, bg⟩ := pipe
  obtain ⟨argv, dup⟩ := cmd
  cases h
  unfold ioActions
  refine ⟨_, stderrActions dup, rfl, ?_⟩
  cases inp with
  | none => exact ⟨rfl, fun x hx => nomatch hx⟩
  | some iored =>
    cases dup <;>
    · refine ⟨rfl, fun x hx => ?_⟩
      rw [List.mem_singleton.1 hx]

theorem ioActions_input {pipe : AstPipeline} (cmd : AstCommand) {path : Word}
    (h : pipe.ioredInput = some path) :
    ∃ rest, ioActions pipe cmd = .open STDIN_FILENO path .readOnly :: rest := by
  obtain ⟨commands, inp, out, append, bg⟩ := pipe
  obtain ⟨argv, dup⟩ := cmd
  cases h
  cases dup <;> exact ⟨_, rfl⟩

theorem opens_take_subset (fa : FileActions) (m : Nat) :
    ∀ x ∈ opens (fa.take m), x ∈ opens fa :=
  fun _ hx => ((List.take_sublist m fa).filterMap _).subset hx

/-! ## The opens of the loop -/

theorem mem_childOpens {outcome : Nat → SpawnOutcome} {x : ChildOpen} {fas : List FileActions} :
    ∀ {k : Nat}, x ∈ childOpens outcome k fas ↔
      ∃ j fa, fas[j]? = some fa ∧ x.1 = k + j ∧ (∀ i < j, outcome (k + i) = .spawned) ∧
        x.2 ∈ opens ((outcome (k + j)).executed fa) := by
  induction fas with
  | nil => simp [childOpens]
  | cons fa fas ih =>
    intro k
    rw [childOpens, List.mem_append]
    constructor
    · rintro (hx | hx)
      · obtain ⟨y, hy, rfl⟩ := List.mem_map.1 hx
        exact ⟨0, fa, rfl, rfl, fun i hi => absurd hi (Nat.not_lt_zero i), hy⟩
      · split at hx
        · rename_i hk
          obtain ⟨j, fb, hget, hpos, hbefore, hy⟩ := ih.1 hx
          refine ⟨j + 1, fb, hget, by omega, fun i hi => ?_, ?_⟩
          · rcases i with _ | i
            · exact hk
            · have := hbefore i (by omega)
              rwa [Nat.add_right_comm, Nat.add_assoc] at this
          · rwa [Nat.add_right_comm, Nat.add_assoc] at hy
        · cases hx
    · rintro ⟨j, fb, hget, hpos, hbefore, hy⟩
      rcases j with _ | j
      · obtain rfl : fa = fb := Option.some.inj hget
        exact Or.inl (List.mem_map.2 ⟨x.2, hy, Prod.ext hpos.symm rfl⟩)
      · right
        have hk : outcome k = .spawned := hbefore 0 (Nat.succ_pos j)
        rw [if_pos hk]
        refine ih.2 ⟨j, fb, hget, by omega, fun i hi => ?_, ?_⟩
        · have := hbefore (i + 1) (by omega)
          rwa [← Nat.add_assoc, Nat.add_right_comm] at this
        · rwa [← Nat.add_assoc, Nat.add_right_comm] at hy

theorem nodup_childOpens {outcome : Nat → SpawnOutcome} {fas : List FileActions}
    (h : ∀ fa ∈ fas, (opens fa).Nodup) : ∀ k, (childOpens outcome k fas).Nodup := by
  induction fas with
  | nil => exact fun _ => List.nodup_nil
  | cons fa fas ih =>
    intro k
    rw [childOpens]
    have hfa : (opens ((outcome k).executed fa)).Nodup := by
      cases outcome k with
      | spawned => exact h fa List.mem_cons_self
      | failed m => exact (h fa List.mem_cons_self).sublist ((List.take_sublist m fa).filterMap _)
    refine List.nodup_append.2 ⟨?_, ?_, ?_⟩
    · exact List.pairwise_map.2 (hfa.imp fun hne he => hne (Prod.mk.inj he).2)
    · split
      · exact ih (fun fb hb => h fb (List.mem_cons_of_mem _ hb)) (k + 1)
      · exact List.nodup_nil
    · -- the children after this one have other positions
      rintro x hx _ hrest rfl
      obtain ⟨y, -, rfl⟩ := List.mem_map.1 hx
      split at hrest
      · obtain ⟨j, -, -, hpos, -⟩ := mem_childOpens.1 hrest
        dsimp only at hpos
        omega
      · cases hrest

theorem setUpCommands_get (pipe : AstPipeline) (newfds : Nat → Fd) (todo : List AstCommand) :
    ∀ (itr fdIndex j : Nat), ∃ i, (setUpCommands openMax pipe newfds itr fdIndex todo).1[j]? =
      todo[j]?.map fun cmd => (setUpCommand openMax pipe cmd newfds (itr + j) i).1 := by
  induction todo with
  | nil => exact fun _ _ _ => ⟨0, rfl⟩
  | cons c todo ih =>
    intro itr fdIndex j
    rcases j with _ | j
    · exact ⟨fdIndex, rfl⟩
    · obtain ⟨i, hi⟩ := ih (itr + 1) (setUpCommand openMax pipe c newfds itr fdIndex).2 j
      refine ⟨i, ?_⟩
      rw [Nat.add_right_comm, Nat.add_assoc] at hi
      exact hi

/-- What the children of a pipeline open, where the spawns end as given. -/
def loopOpens (openMax : OpenMax) (pipe : AstPipeline) (newfds : Nat → Fd) (fdIndex : Nat)
    (outcome : Nat → SpawnOutcome) : List ChildOpen :=
  childOpens outcome 0 (setUpCommands openMax pipe newfds 0 fdIndex pipe.commands).1

section Loop

variable {pipe : AstPipeline} {newfds : Nat → Fd} {fdIndex : Nat} {outcome : Nat → SpawnOutcome}

theorem of_mem_loopOpens {x : ChildOpen} (h : x ∈ loopOpens openMax pipe newfds fdIndex outcome) :
    ∃ cmd i, pipe.commands[x.1]? = some cmd ∧ (∀ k < x.1, outcome k = .spawned) ∧
      x.2 ∈ opens ((outcome x.1).executed (setUpCommand openMax pipe cmd newfds x.1 i).1) := by
  obtain ⟨j, fa, hget, hpos, hbefore, hx⟩ := mem_childOpens.1 h
  rw [Nat.zero_add] at hpos hx
  obtain ⟨i, hi⟩ := setUpCommands_get pipe newfds pipe.commands 0 fdIndex j
  rw [hget, Nat.zero_add] at hi
  obtain ⟨cmd, hcmd, hfa⟩ := Option.map_eq_some_iff.1 hi.symm
  subst hpos
  refine ⟨cmd, i, hcmd, fun k hk => ?_, hfa ▸ hx⟩
  have := hbefore k hk
  rwa [Nat.zero_add] at this

theorem mem_loopOpens {k : Nat} {y : Word × OpenMode} {cmd : AstCommand}
    (hc : pipe.commands[k]? = some cmd) (hb : ∀ i < k, outcome i = .spawned)
    (hy : ∀ i, y ∈ opens ((outcome k).executed (setUpCommand openMax pipe cmd newfds k i).1)) :
    (k, y) ∈ loopOpens openMax pipe newfds fdIndex outcome := by
  obtain ⟨i, hi⟩ := setUpCommands_get pipe newfds pipe.commands 0 fdIndex k
  rw [hc, Nat.zero_add, Option.map_some] at hi
  refine mem_childOpens.2 ⟨k, _, hi, (Nat.zero_add k).symm, fun j hj => ?_, ?_⟩
  · rw [Nat.zero_add]
    exact hb j hj
  · rw [Nat.zero_add]
    exact hy i

theorem loopOpens_subset {x : ChildOpen} (h : x ∈ loopOpens openMax pipe newfds fdIndex outcome) :
    x.2 ∈ redirectOpens pipe := by
  obtain ⟨cmd, i, -, -, hx⟩ := of_mem_loopOpens h
  rw [← opens_setUpCommand pipe cmd newfds x.1 i]
  cases ho : outcome x.1 with
  | spawned => rw [ho] at hx; exact hx
  | failed m => rw [ho] at hx; exact opens_take_subset _ m _ hx

/-! ## Main result -/

/-- The input file is opened by the first child only and the output file by the last one only, no
child opens a file twice, and the child that should open a file does so where it is spawned; the
output file is not touched where a command before the last one fails to spawn. -/
structure OpensOnce (pipe : AstPipeline) (outcome : Nat → SpawnOutcome) (l : List ChildOpen) :
    Prop where
  nodup : l.Nodup
  input_first : ∀ x ∈ l, x.isInput = true → x.1 = 0
  output_last : ∀ x ∈ l, x.isInput = false → x.1 + 1 = pipe.commands.length
  input_once : outcome 0 = .spawned →
    l.filter ChildOpen.isInput = pipe.ioredInput.toList.map (0, ·, .readOnly)
  output_once : (∀ k < pipe.commands.length, outcome k = .spawned) →
    l.filter (fun x => !x.isInput) = pipe.ioredOutput.toList.map
      (pipe.commands.length - 1, ·, outputMode pipe.appendToOutput)
  untouched : ∀ k, k + 1 < pipe.commands.length → outcome k ≠ .spawned →
    ∀ x ∈ l, x.isInput = true

/-- The loop over the commands ends before a second child opens the input file. -/
def EndsBeforeInput (outcome : Nat → SpawnOutcome) : Prop :=
  outcome 0 ≠ .spawned ∨ outcome 1 = .failed 0

/-- The first child fails before it opens the output file. -/
def EndsBeforeOutput (pipe : AstPipeline) (outcome : Nat → SpawnOutcome) : Prop :=
  ∃ cmd m, pipe.commands.head? = some cmd ∧ outcome 0 = .failed m ∧ m ≤ beforeOutput pipe cmd

theorem outputMode_ne_readOnly (append : Bool) : outputMode append ≠ .readOnly := by
  cases append <;> exact fun h => nomatch h

theorem setUpCommand_input {f : Nat → Fd} (cmd : AstCommand) (itr i : Nat) {path : Word}
    (h : pipe.ioredInput = some path) :
    ∃ rest, (setUpCommand openMax pipe cmd f itr i).1 =
      .open STDIN_FILENO path .readOnly :: rest := by
  obtain ⟨tail, hfa, -⟩ := extends_setUpCommand pipe cmd f itr i
  obtain ⟨rest, hio⟩ := ioActions_input cmd h
  exact ⟨rest ++ tail, by rw [hfa, hio, List.cons_append]⟩

theorem setUpCommand_output {f : Nat → Fd} (cmd : AstCommand) (itr i : Nat) {path : Word}
    (h : pipe.ioredOutput = some path) :
    ∃ pre rest, (setUpCommand openMax pipe cmd f itr i).1 =
        pre ++ .open STDOUT_FILENO path (outputMode pipe.appendToOutput) :: rest ∧
      pre.length = beforeOutput pipe cmd ∧ ∀ x ∈ opens pre, x.2 = .readOnly := by
  obtain ⟨tail, hfa, -⟩ := extends_setUpCommand pipe cmd f itr i
  obtain ⟨pre, rest, hio, hlen, hpre⟩ := ioActions_output cmd h
  exact ⟨pre, rest ++ tail, by rw [hfa, hio, List.append_assoc, List.cons_append], hlen, hpre⟩

/-- The second child opens the input file as well. -/
theorem second_opens_input {path : Word} (hi : pipe.ioredInput = some path)
    (hn : 1 < pipe.commands.length) (h : ¬ EndsBeforeInput outcome) :
    (1, path, .readOnly) ∈ loopOpens openMax pipe newfds fdIndex outcome := by
  rw [EndsBeforeInput, not_or, not_not] at h
  refine mem_loopOpens (List.getElem?_eq_getElem hn) (fun i hlt => ?_) fun i => ?_
  · obtain rfl : i = 0 := by omega
    exact h.1
  · obtain ⟨rest, hfa⟩ := setUpCommand_input (f := newfds) (pipe.commands[1]) 1 i hi
    rw [hfa]
    cases ho : outcome 1 with
    | spawned => exact List.mem_cons_self
    | failed m =>
      rcases m with _ | m
      · exact absurd ho h.2
      · exact List.mem_cons_self

/-- The first child opens the output file. -/
theorem first_opens_output {path : Word} (hi : pipe.ioredOutput = some path)
    (hn : 0 < pipe.commands.length) (h : ¬ EndsBeforeOutput pipe outcome) :
    (0, path, outputMode pipe.appendToOutput) ∈ loopOpens openMax pipe newfds fdIndex outcome := by
  refine mem_loopOpens (List.getElem?_eq_getElem hn) (fun i hlt => absurd hlt (Nat.not_lt_zero i))
    fun i => ?_
  obtain ⟨pre, rest, hfa, hlen, -⟩ :=
    setUpCommand_output (f := newfds) (pipe.commands[0]) 0 i hi
  rw [hfa]
  have hmem : ∀ l : FileActions, (path, outputMode pipe.appendToOutput) ∈
      opens (pre ++ .open STDOUT_FILENO path (outputMode pipe.appendToOutput) :: l) := by
    intro l
    rw [opens_append]
    exact List.mem_append_right _ List.mem_cons_self
  cases ho : outcome 0 with
  | spawned => exact hmem rest
  | failed m =>
    have hm : pre.length < m := by
      by_contra hle
      rw [hlen, Nat.not_lt] at hle
      exact h ⟨_, m, List.head?_eq_getElem? ▸ List.getElem?_eq_getElem hn, ho, hle⟩
    obtain ⟨m, rfl⟩ := Nat.exists_eq_add_of_lt hm
    rw [SpawnOutcome.executed, Nat.add_assoc, List.take_length_add_append, List.take_succ_cons]
    exact hmem _

/-- Where the first child fails before the output file, no output file is opened. -/
theorem isInput_of_endsBeforeOutput
    (h : pipe.ioredOutput = none ∨ EndsBeforeOutput pipe outcome) {x : ChildOpen}
    (hx : x ∈ loopOpens openMax pipe newfds fdIndex outcome) : x.isInput = true := by
  apply decide_eq_true
  cases ho : pipe.ioredOutput with
  | none =>
    have hmem := loopOpens_subset hx
    rw [redirectOpens, ho, Option.toList_none, List.map_nil, List.append_nil] at hmem
    obtain ⟨path, -, he⟩ := List.mem_map.1 hmem
    rw [← he]
  | some path =>
    obtain ⟨cmd, m, hhead, hfail, hm⟩ := h.resolve_left (by rw [ho]; exact fun h => nomatch h)
    obtain ⟨cmd', i, hget, hbefore, hmem⟩ := of_mem_loopOpens hx
    have hzero : x.1 = 0 := by
      by_contra hne
      have := hbefore 0 (Nat.pos_of_ne_zero hne)
      rw [hfail] at this
      cases this
    rw [hzero] at hget hmem
    rw [List.head?_eq_getElem?, hget] at hhead
    obtain rfl : cmd' = cmd := Option.some.inj hhead
    obtain ⟨pre, rest, hfa, hlen, hpre⟩ := setUpCommand_output (f := newfds) cmd' 0 i ho
    rw [hfail, SpawnOutcome.executed, hfa, List.take_append_of_le_length (by omega)] at hmem
    exact hpre _ (opens_take_subset pre m _ hmem)

theorem first_of_endsBeforeInput (h : pipe.ioredInput = none ∨ EndsBeforeInput outcome)
    {x : ChildOpen} (hx : x ∈ loopOpens openMax pipe newfds fdIndex outcome)
    (hin : x.isInput = true) : x.1 = 0 := by
  rcases h with hi | hends
  · exfalso
    have hmem := loopOpens_subset hx
    rw [redirectOpens, hi, Option.toList_none, List.map_nil, List.nil_append] at hmem
    obtain ⟨path, -, he⟩ := List.mem_map.1 hmem
    have hmode := of_decide_eq_true hin
    rw [← he] at hmode
    exact outputMode_ne_readOnly _ hmode
  · by_contra hne
    obtain ⟨cmd, i, -, hbefore, hmem⟩ := of_mem_loopOpens hx
    have hzero := hbefore 0 (Nat.pos_of_ne_zero hne)
    have hone := hends.resolve_left (not_not.2 hzero)
    have hx1 : x.1 = 1 := by
      by_contra h1
      have := hbefore 1 (by omega)
      rw [hone] at this
      cases this
    rw [hx1, hone] at hmem
    cases hmem

theorem nodup_redirectOpens (pipe : AstPipeline) : (redirectOpens pipe).Nodup := by
  obtain ⟨commands, inp, out, append, bg⟩ := pipe
  cases inp <;> cases out <;> cases append <;> simp [redirectOpens, outputMode]

theorem nodup_loopOpens : (loopOpens openMax pipe newfds fdIndex outcome).Nodup := by
  apply nodup_childOpens
  intro fa hfa
  obtain ⟨j, hj⟩ := List.mem_iff_getElem?.1 hfa
  obtain ⟨i, hi⟩ := setUpCommands_get pipe newfds pipe.commands 0 fdIndex j
  rw [hj] at hi
  obtain ⟨cmd, -, rfl⟩ := Option.map_eq_some_iff.1 hi.symm
  rw [opens_setUpCommand]
  exact nodup_redirectOpens pipe

/-- Where only the first child opens the input file and is spawned, it opens it once. -/
theorem loopOpens_input (hn : pipe.commands ≠ []) (ho : outcome 0 = .spawned)
    (h : ∀ x ∈ loopOpens openMax pipe newfds fdIndex outcome, x.isInput = true → x.1 = 0) :
    (loopOpens openMax pipe newfds fdIndex outcome).filter ChildOpen.isInput =
      pipe.ioredInput.toList.map (0, ·, .readOnly) := by
  obtain ⟨cmd, rest, hc⟩ := List.exists_cons_of_ne_nil hn
  rw [loopOpens, hc, setUpCommands, childOpens, ho, if_pos rfl] at h ⊢
  rw [List.filter_append, SpawnOutcome.executed, opens_setUpCommand, redirectOpens]
  have hrest : (childOpens outcome (0 + 1) (setUpCommands openMax pipe newfds (0 + 1)
      (setUpCommand openMax pipe cmd newfds 0 fdIndex).2 rest).1).filter ChildOpen.isInput =
      [] := by
    apply List.filter_eq_nil_iff.2
    intro x hx hin
    obtain ⟨j, -, -, hpos, -⟩ := mem_childOpens.1 hx
    have := h x (List.mem_append_right _ hx) hin
    omega
  rw [hrest, List.append_nil]
  obtain ⟨commands, inp, out, append, bg⟩ := pipe
  cases inp <;> cases out <;> cases append <;> rfl

theorem loopOpens_single (h : pipe.commands.length = 1) (ho : outcome 0 = .spawned) :
    loopOpens openMax pipe newfds fdIndex outcome = (redirectOpens pipe).map (0, ·) := by
  obtain ⟨cmd, hc⟩ := List.length_eq_one_iff.1 h
  have hfas : (setUpCommands openMax pipe newfds 0 fdIndex [cmd]).1 =
      [(setUpCommand openMax pipe cmd newfds 0 fdIndex).1] := rfl
  rw [loopOpens, hc, hfas]
  simp only [childOpens, ho, if_true, List.append_nil, SpawnOutcome.executed, opens_setUpCommand]

end Loop

/-- **The files of redirections** of a pipeline are opened as they should be if and only if it has
one command, or no second child opens the input file and no first one the output file: there is no
such redirection, or the first spawns fail before that. -/
theorem redirects_iff (openMax : OpenMax) (pipe : AstPipeline) (newfds : Nat → Fd) (fdIndex : Nat)
    (outcome : Nat → SpawnOutcome) (hn : pipe.commands ≠ []) :
    OpensOnce pipe outcome (loopOpens openMax pipe newfds fdIndex outcome) ↔
      pipe.commands.length = 1 ∨
        (pipe.ioredInput = none ∨ EndsBeforeInput outcome) ∧
          (pipe.ioredOutput = none ∨ EndsBeforeOutput pipe outcome) := by
  have hpos : 0 < pipe.commands.length := List.length_pos_iff.2 hn
  constructor
  · intro h
    by_cases hone : pipe.commands.length = 1
    · exact Or.inl hone
    refine Or.inr ⟨?_, ?_⟩
    · cases hi : pipe.ioredInput with
      | none => exact Or.inl rfl
      | some path =>
        right
        by_contra hends
        have hx := h.input_first _ (second_opens_input hi (by omega) hends) rfl
        cases hx
    · cases hi : pipe.ioredOutput with
      | none => exact Or.inl rfl
      | some path =>
        right
        by_contra hends
        have hx := h.output_last _ (first_opens_output hi hpos hends)
          (decide_eq_false (outputMode_ne_readOnly _))
        exact hone hx.symm
  · rintro (hone | ⟨hin, hout⟩)
    · have hfirst : ∀ x ∈ loopOpens openMax pipe newfds fdIndex outcome, x.1 = 0 := by
        intro x hx
        obtain ⟨cmd, i, hget, -, -⟩ := of_mem_loopOpens hx
        have := (List.getElem?_eq_some_iff.1 hget).1
        omega
      have hin : ∀ x ∈ loopOpens openMax pipe newfds fdIndex outcome, x.isInput = true → x.1 = 0 :=
        fun x hx _ => hfirst x hx
      refine ⟨nodup_loopOpens, hin, fun x hx _ => ?_, fun ho => loopOpens_input hn ho hin,
        fun hall => ?_, fun k hk => ?_⟩
      · rw [hfirst x hx, hone]
      · rw [loopOpens_single hone (hall 0 hpos), redirectOpens, hone]
        obtain ⟨commands, inp, out, append, bg⟩ := pipe
        cases inp <;> cases out <;> cases append <;> rfl
      · omega
    · have hall := fun x => @isInput_of_endsBeforeOutput openMax pipe newfds fdIndex outcome hout x
      have hfirst := fun x => @first_of_endsBeforeInput openMax pipe newfds fdIndex outcome hin x
      refine ⟨nodup_loopOpens, hfirst, fun x hx he => ?_, fun ho => loopOpens_input hn ho hfirst,
        fun hsp => ?_, fun _ _ _ => hall⟩
      · rw [hall x hx] at he
        cases he
      · -- every spawn succeeds, so that there is no output file
        have hnoout : pipe.ioredOutput = none := by
          apply hout.resolve_right
          rintro ⟨cmd, m, -, hfail, -⟩
          rw [hsp 0 hpos] at hfail
          cases hfail
        rw [hnoout]
        apply List.filter_eq_nil_iff.2
        intro x hx
        rw [hall x hx]
        exact Bool.false_ne_true

/-- The one command of `b < i > o` opens both files. -/
theorem redirects_iff_single :
    OpensOnce ⟨[⟨[['b']], false⟩], some ['i'], some ['o'], false, false⟩ (fun _ => .spawned)
      (loopOpens .usual ⟨[⟨[['b']], false⟩], some ['i'], some ['o'], false, false⟩ (fun _ => 0) 0
        fun _ => .spawned) :=
  (redirects_iff _ _ (fun _ => 0) 0 (fun _ => .spawned) (List.cons_ne_nil _ _)).2 (Or.inl rfl)

/-- In `a < i | b > o` the first child opens the output file. -/
theorem redirects_both : ¬ ∀ (openMax : OpenMax) (pipe : AstPipeline) (newfds : Nat → Fd)
    (fdIndex : Nat) (outcome : Nat → SpawnOutcome), pipe.commands ≠ [] →
    OpensOnce pipe outcome (loopOpens openMax pipe newfds fdIndex outcome) := by
  intro h
  have hlast := (h .usual
    ⟨[⟨[['a']], false⟩, ⟨[['b']], false⟩], some ['i'], some ['o'], false, false⟩
    (fun _ => 4) 0 (fun _ => .spawned) (List.cons_ne_nil _ _)).output_last
  exact absurd (hlast (0, ['o'], .truncate) (by decide) rfl) (by decide)

end Cush
