import Cush.Ast.Verify.Memory

/-!
# Command lines that own their memory

What memory a command line has: its block, the pipelines on its list with theirs, down to the words
of each command, every block once. The functions of `shell-ast.c` make such memory of its parts, and
free all of it and nothing else.
-/

namespace Cush.AstMemory

open LinkedList Separation Assertion LinkHeap

variable {a x v : Address} {w : Word} {ws : List Word} {as : List Address} {fuel : Nat}
  {i o : Ptr Address} {c : AstCommand} {p : AstPipeline} {cl : AstCommandLine}

/-! ## The memory of a command line -/

def textAt (a : Address) (w : Word) : Part :=
  blockAt a (.text w)

/-- A pointer to a string, or null. -/
def textOrNull : Ptr Address → Option Word → Part
  | none, none => 1
  | some a, some w => textAt a w
  | _, _ => ⊥

/-- An array of words with a null pointer behind them. -/
def wordsAt (a : Address) (ws : List Word) : Part :=
  ⨆ as : List Address, blockAt a (.array (as.map some ++ [none])) * each textAt as ws

/-- A command, without the element that links it. -/
def commandAt (a : Address) (c : AstCommand) : Part :=
  ⨆ argv : Address, blockAt a (.command ⟨some argv, c.dupStderrToStdout⟩) * wordsAt argv c.argv

/-- A pipeline, without the element that links it. -/
def pipelineAt (a : Address) (p : AstPipeline) : Part :=
  ⨆ i : Ptr Address, ⨆ o : Ptr Address, ⨆ as : List Address,
    blockAt a (.pipeline ⟨i, o, p.appendToOutput, p.bgJob⟩) * textOrNull i p.ioredInput *
      textOrNull o p.ioredOutput * list (listOf a) (as.map .elem) * each commandAt as p.commands

def commandLineAt (a : Address) (cl : AstCommandLine) : Part :=
  ⨆ as : List Address,
    blockAt a .commandLine * list (listOf a) (as.map .elem) * each pipelineAt as cl.pipes

/-! ## Making it -/

section Create

variable (alloc : Allocator)

theorem astCommandCreate_spec (dup : Bool) :
    Spec (wordsAt v ws) (astCommandCreate alloc (some v) dup) fun a =>
      commandAt a (Cush.astCommandCreate ws dup) * node (.elem a) := by
  refine Triple.last (malloc_spec alloc) (wordsAt v ws) (one_mul _).ge fun a => ?_
  have hcmd : blockAt a (.command ⟨some v, dup⟩) * wordsAt v ws ≤
      commandAt a (Cush.astCommandCreate ws dup) := le_iSup_of_le v le_rfl
  rw [Block.members, nodes_cons, nodes_nil, mul_one, mul_right_comm]
  exact mul_le_mul_left hcmd _

theorem astPipelineCreate_spec {wi wo : Option Word} (append : Bool) :
    Spec (textOrNull i wi * textOrNull o wo) (astPipelineCreate alloc i o append) fun a =>
      pipelineAt a (Cush.astPipelineCreate wi wo append) * node (.elem a) := by
  refine Triple.step (malloc_spec alloc) (textOrNull i wi * textOrNull o wo) (one_mul _).ge
    fun a => ?_
  rw [Block.members, nodes_cons]
  refine Triple.step listInit_spec (blockAt a (.pipeline ⟨i, o, append, false⟩) *
    node (.elem a) * textOrNull i wi * textOrNull o wo) (le_of_eq ?_) fun _ => .pure ?_
  · rw [listOf]
    ac_rfl
  · have hpipe : blockAt a (.pipeline ⟨i, o, append, false⟩) * textOrNull i wi * textOrNull o wo *
        list (listOf a) (([] : List Address).map .elem) * each commandAt [] [] ≤
          pipelineAt a (Cush.astPipelineCreate wi wo append) :=
      le_iSup_of_le i (le_iSup_of_le o (le_iSup_of_le [] le_rfl))
    refine le_trans (le_of_eq ?_) (mul_le_mul_left hpipe _)
    rw [List.map_nil, each_nil, mul_one]
    ac_rfl

theorem astPipelineAddCommand_spec :
    Spec (pipelineAt a p * (commandAt x c * node (.elem x))) (astPipelineAddCommand a x)
      fun _ => pipelineAt a (Cush.astPipelineAddCommand p c) := by
  unfold pipelineAt
  simp only [iSup_mul]
  refine .iSup fun i => .iSup fun o => .iSup fun as => ?_
  refine Triple.last listPushBack_spec (blockAt a (.pipeline ⟨i, o, p.appendToOutput, p.bgJob⟩) *
    textOrNull i p.ioredInput * textOrNull o p.ioredOutput * each commandAt as p.commands *
    commandAt x c) (le_of_eq (by ac_rfl)) fun _ => ?_
  refine le_iSup_of_le i (le_iSup_of_le o (le_iSup_of_le (as ++ [x]) ?_))
  rw [List.map_append, mul_comm (list _ _), mul_assoc _ (each _ _ _), mul_right_comm]
  exact mul_le_mul_right each_concat.ge _

theorem astCommandLineCreateEmpty_spec :
    Spec 1 (astCommandLineCreateEmpty alloc) fun a =>
      commandLineAt a Cush.astCommandLineCreateEmpty := by
  refine Triple.step (malloc_spec alloc) 1 (mul_one _).ge fun a => ?_
  refine Triple.step listInit_spec (blockAt a .commandLine) (le_of_eq ?_) fun _ => .pure ?_
  · rw [Block.members, listOf]
    ac_rfl
  · refine le_iSup_of_le [] (le_of_eq ?_)
    rw [List.map_nil, Cush.astCommandLineCreateEmpty, each_nil, mul_one, mul_comm]

/-- `list_push_back(&cmdline->pipes, &pipe->elem)` -/
theorem pushPipeline_spec :
    Spec (commandLineAt a cl * (pipelineAt x p * node (.elem x)))
      (onLists (listPushBack (listOf a) (some (.elem x))))
      fun _ => commandLineAt a ⟨cl.pipes ++ [p]⟩ := by
  unfold commandLineAt
  simp only [iSup_mul]
  refine .iSup fun as => ?_
  refine Triple.last listPushBack_spec (blockAt a .commandLine * each pipelineAt as cl.pipes *
    pipelineAt x p) (le_of_eq (by ac_rfl)) fun _ => ?_
  refine le_iSup_of_le (as ++ [x]) ?_
  rw [List.map_append, mul_comm (list _ _), mul_assoc _ (each _ _ _), mul_right_comm]
  exact mul_le_mul_right each_concat.ge _

theorem astCommandLineCreate_spec :
    Spec (pipelineAt x p * node (.elem x)) (astCommandLineCreate alloc x) fun a =>
      commandLineAt a (Cush.astCommandLineCreate p) := by
  refine Triple.step (astCommandLineCreateEmpty_spec alloc) _ (one_mul _).ge fun a => ?_
  exact Triple.step pushPipeline_spec 1 (mul_one _).ge fun _ => .pure (mul_one _).le

end Create

/-! ## Freeing it -/

theorem free_text_spec : Spec (textAt a w) (free (some a)) fun _ => 1 := by
  have hfree := free_spec (a := a) (b := .text w)
  rwa [Block.members, nodes_nil, mul_one] at hfree

theorem free_textOrNull_spec {w : Option Word} : Spec (textOrNull i w) (free i) fun _ => 1 := by
  cases i <;> cases w
  case none.none => exact free_null_spec
  case some.some => exact free_text_spec
  all_goals exact .of_bot le_rfl

theorem freeWords_spec (done : List Address) (hfuel : as.length < fuel) :
    Spec (blockAt v (.array ((done ++ as).map some ++ [none])) * each textAt as ws)
      (freeWords (some v) fuel done.length)
      fun _ => blockAt v (.array ((done ++ as).map some ++ [none])) := by
  induction as generalizing done ws fuel with
  | nil =>
    obtain ⟨fuel, rfl⟩ := Nat.exists_eq_succ_of_ne_zero (Nat.ne_of_gt hfuel)
    refine Triple.read (getBlock_spec rfl) _ rfl ?_
    rw [List.append_nil, List.getElem?_append_right (by simp)]
    simp only [List.length_map, Nat.sub_self, List.getElem?_cons_zero]
    cases ws with
    | nil => exact .pure (mul_one _).le
    | cons w ws => exact .of_bot (by simp)
  | cons a as ih =>
    obtain ⟨fuel, rfl⟩ := Nat.exists_eq_succ_of_ne_zero (Nat.ne_zero_of_lt hfuel)
    refine Triple.read (getBlock_spec rfl) _ rfl ?_
    rw [List.getElem?_append_left (by simp)]
    simp only [List.getElem?_map, List.getElem?_append_right (le_refl done.length), Nat.sub_self,
      List.getElem?_cons_zero, Option.map_some]
    cases ws with
    | nil => exact .of_bot (by simp)
    | cons w ws =>
      refine Triple.step free_text_spec
        (blockAt v (.array ((done ++ a :: as).map some ++ [none])) * each textAt as ws)
        (le_of_eq (by rw [each_cons]; ac_rfl)) fun _ => ?_
      have hrest := @ih ws fuel (done ++ [a]) (by simpa using hfuel)
      rw [List.append_assoc, List.singleton_append, List.length_append, List.length_singleton]
        at hrest
      exact hrest.conseq (one_mul _).le fun _ => le_rfl

theorem free_array_spec {ptrs : List (Ptr Address)} :
    Spec (blockAt a (.array ptrs)) (free (some a)) fun _ => 1 := by
  have hfree := free_spec (a := a) (b := .array ptrs)
  rwa [Block.members, nodes_nil, mul_one] at hfree

theorem free_command_spec {b : CommandBlock} :
    Spec (blockAt a (.command b) * node (.elem a)) (free (some a)) fun _ => 1 := by
  have hfree := free_spec (a := a) (b := .command b)
  rwa [Block.members, nodes_cons, nodes_nil, mul_one] at hfree

theorem astCommandFree_spec :
    Spec (commandAt a c * node (.elem a)) (astCommandFree a) fun _ => 1 := by
  unfold commandAt wordsAt
  simp only [iSup_mul, mul_iSup]
  refine .iSup fun argv => .iSup fun as => ?_
  generalize hb : CommandBlock.mk (some argv) c.dupStderrToStdout = b
  generalize hptrs : as.map some ++ [none] = ptrs
  refine Triple.read (getBlock_spec rfl)
    (blockAt argv (.array ptrs) * each textAt as c.argv * node (.elem a)) (by ac_rfl) ?_
  have hlive : each textAt as c.argv ≤ live as := each_le_live fun _ _ => blockAt_le_live
  refine Triple.learn (rounds_spec hlive)
    (blockAt a (.command b) * blockAt argv (.array ptrs) * node (.elem a)) (le_of_eq (by ac_rfl))
    fun fuel hfuel => ?_
  have hwords : Spec (blockAt argv (.array ptrs) * each textAt as c.argv)
      (freeWords b.argv fuel 0) fun _ => blockAt argv (.array ptrs) := by
    subst hb hptrs
    exact freeWords_spec [] hfuel
  refine Triple.step hwords (blockAt a (.command b) * node (.elem a)) (le_of_eq (by ac_rfl))
    fun _ => ?_
  refine Triple.read (getBlock_spec rfl) (blockAt argv (.array ptrs) * node (.elem a))
    (by ac_rfl) ?_
  have hargv : Spec (blockAt argv (.array ptrs)) (free b.argv) fun _ => 1 := by
    subst hb
    exact free_array_spec
  refine Triple.step hargv (blockAt a (.command b) * node (.elem a)) (le_of_eq (by ac_rfl))
    fun _ => ?_
  exact free_command_spec.conseq (one_mul _).le fun _ => le_rfl

/-- A loop that frees the elements of a list, each with what it is embedded in. -/
theorem freeElements_spec {β : Type} {A : Address → β → Part} {freeEntry : Address → AstM Unit}
    {vs : List β} (hfree : ∀ a v, Spec (A a v * node (.elem a)) (freeEntry a) fun _ => 1)
    (hfuel : as.length < fuel) :
    Spec (list (listOf x) (as.map .elem) * each A as vs)
      (freeElements (listOf x) freeEntry fuel ((listOf x).place (as.map .elem)))
      fun _ => list (listOf x) [] := by
  induction as generalizing vs fuel with
  | nil =>
    obtain ⟨fuel, rfl⟩ := Nat.exists_eq_succ_of_ne_zero (Nat.ne_of_gt hfuel)
    have hend : (listOf x).place (([] : List Address).map .elem) = listEnd (listOf x) := rfl
    rw [freeElements, if_pos hend]
    cases vs with
    | nil => exact .pure (mul_one _).le
    | cons v vs => exact .of_bot (by simp)
  | cons a as ih =>
    obtain ⟨fuel, rfl⟩ := Nat.exists_eq_succ_of_ne_zero (Nat.ne_zero_of_lt hfuel)
    have hne : (listOf x).place ((a :: as).map .elem) ≠ listEnd (listOf x) := by
      simp [listEnd, listOf]
    rw [freeElements, if_neg hne]
    cases vs with
    | nil => exact .of_bot (by simp)
    | cons v vs =>
      refine Triple.read listEntry_spec _ (one_mul _).symm ?_
      refine Triple.learn (listRemove_spec []) (each A (a :: as) (v :: vs)) le_rfl fun e he => ?_
      subst he
      refine Triple.step (hfree a v) (list (listOf x) (as.map .elem) * each A as vs)
        (le_of_eq (by rw [each_cons, List.nil_append]; ac_rfl)) fun _ => ?_
      exact (ih (Nat.lt_of_succ_lt_succ hfuel)).conseq (one_mul _).le fun _ => le_rfl

theorem commandAt_le_live : commandAt a c ≤ live [a] :=
  iSup_le fun _ => (mul_le_mul_left blockAt_le_live _).trans (live_mul_le _ _)

theorem listBegin_spec : Spec (list (listOf a) (as.map .elem)) (onLists (listBegin (listOf a)))
    fun e => fact (e = (listOf a).place (as.map .elem)) * list (listOf a) (as.map .elem) :=
  listRead_spec fun _ h => listBegin_ends h

theorem free_pipeline_spec {b : PipelineBlock} :
    Spec (blockAt a (.pipeline b) * list (listOf a) [] * node (.elem a)) (free (some a))
      fun _ => 1 := by
  have hfree := free_spec (a := a) (b := .pipeline b)
  refine hfree.conseq ?_ fun _ => le_rfl
  rw [Block.members, nodes_cons, mul_assoc, mul_comm (list _ _)]
  exact mul_le_mul_right (mul_le_mul_right list_le_nodes _) _

theorem astPipelineFree_spec :
    Spec (pipelineAt a p * node (.elem a)) (astPipelineFree a) fun _ => 1 := by
  unfold pipelineAt
  simp only [iSup_mul]
  refine .iSup fun i => .iSup fun o => .iSup fun as => ?_
  generalize hb : PipelineBlock.mk i o p.appendToOutput p.bgJob = b
  refine Triple.read listBegin_spec (blockAt a (.pipeline b) * textOrNull i p.ioredInput *
    textOrNull o p.ioredOutput * each commandAt as p.commands * node (.elem a)) (by ac_rfl) ?_
  have hlive : each commandAt as p.commands ≤ live as := each_le_live fun _ _ => commandAt_le_live
  refine Triple.learn (rounds_spec hlive) (blockAt a (.pipeline b) * textOrNull i p.ioredInput *
    textOrNull o p.ioredOutput * list (listOf a) (as.map .elem) * node (.elem a))
    (le_of_eq (by ac_rfl)) fun fuel hfuel => ?_
  refine Triple.step (freeElements_spec (fun _ _ => astCommandFree_spec) hfuel)
    (blockAt a (.pipeline b) * textOrNull i p.ioredInput * textOrNull o p.ioredOutput *
      node (.elem a)) (le_of_eq (by ac_rfl)) fun _ => ?_
  refine Triple.read (getBlock_spec rfl) (list (listOf a) [] * textOrNull i p.ioredInput *
    textOrNull o p.ioredOutput * node (.elem a)) (by ac_rfl) ?_
  have hi : Spec (textOrNull i p.ioredInput) (free b.ioredInput) fun _ => 1 :=
    hb ▸ free_textOrNull_spec
  refine Triple.step hi (blockAt a (.pipeline b) * textOrNull o p.ioredOutput *
    list (listOf a) [] * node (.elem a)) (le_of_eq (by ac_rfl)) fun _ => ?_
  refine Triple.read (getBlock_spec rfl) (textOrNull o p.ioredOutput * list (listOf a) [] *
    node (.elem a)) (by rw [one_mul]; ac_rfl) ?_
  have ho : Spec (textOrNull o p.ioredOutput) (free b.ioredOutput) fun _ => 1 :=
    hb ▸ free_textOrNull_spec
  refine Triple.step ho (blockAt a (.pipeline b) * list (listOf a) [] * node (.elem a))
    (le_of_eq (by rw [one_mul]; ac_rfl)) fun _ => ?_
  exact free_pipeline_spec.conseq (one_mul _).le fun _ => le_rfl

theorem free_commandLine_spec :
    Spec (blockAt a .commandLine * list (listOf a) []) (free (some a)) fun _ => 1 :=
  free_spec.conseq (mul_le_mul_right list_le_nodes _) fun _ => le_rfl

theorem pipelineAt_le_live : pipelineAt a p ≤ live [a] := by
  refine iSup_le fun i => iSup_le fun o => iSup_le fun as => ?_
  simp only [mul_assoc]
  exact (mul_le_mul_left blockAt_le_live _).trans (live_mul_le _ _)

/-- `ast_command_line_free` frees all the memory of a command line, each block once, and touches
nothing else. -/
theorem astCommandLineFree_spec : Spec (commandLineAt a cl) (astCommandLineFree a) fun _ => 1 := by
  unfold commandLineAt
  refine .iSup fun as => ?_
  refine Triple.read listBegin_spec (blockAt a .commandLine * each pipelineAt as cl.pipes)
    (by ac_rfl) ?_
  have hlive : each pipelineAt as cl.pipes ≤ live as := each_le_live fun _ _ => pipelineAt_le_live
  refine Triple.learn (rounds_spec hlive) (blockAt a .commandLine *
    list (listOf a) (as.map .elem)) (le_of_eq (by ac_rfl)) fun fuel hfuel => ?_
  refine Triple.step (freeElements_spec (fun _ _ => astPipelineFree_spec) hfuel)
    (blockAt a .commandLine) (le_of_eq (by ac_rfl)) fun _ => ?_
  exact free_commandLine_spec.conseq (mul_comm _ _).le fun _ => le_rfl

end Cush.AstMemory
