import Cush.Ast.Verify.CommandLine
import Cush.Grammar.Memory
import Cush.Grammar.Verify.Read

/-!
# The memory of a parse

What memory the semantic values have: helpers with the words of their obstacks, pipelines of
helpers, and the command lines made of them. Each function of the grammar makes of such memory what
its counterpart on values makes of the values, and fails where that one does.
-/

namespace Cush.AstMemory

open LinkedList Separation Assertion ShiftReduce LinkHeap

variable {a b v x : Address} {w : Word} {ws : List Word} {as : List Address} {i o f : Ptr Address}
  {c c' : CmdHelper} {p : PipeHelper} {cl : AstCommandLine} {q : AstPipeline}

/-! ## Helpers -/

/-- The words of an obstack. -/
def grownAt (a : Address) (ws : List Word) : Part :=
  ⨆ as : List Address, blockAt a (.array (as.map some)) * each textAt as ws

/-- A command helper without its file names, to which it points with `i` and `o`. -/
def helperWith (i o : Ptr Address) (a : Address) (c : CmdHelper) : Part :=
  ⨆ words : Address,
    blockAt a (.cmdHelper ⟨some words, i, o, c.appendToOutput, c.redirectStderr⟩) *
      grownAt words c.words

/-- A command helper, without the element that links it. -/
def helperAt (a : Address) (c : CmdHelper) : Part :=
  ⨆ i : Ptr Address, ⨆ o : Ptr Address,
    helperWith i o a c * textOrNull i c.ioredInput * textOrNull o c.ioredOutput

theorem helper_le (words : Address) :
    blockAt a (.cmdHelper ⟨some words, i, o, c.appendToOutput, c.redirectStderr⟩) *
      grownAt words c.words * textOrNull i c.ioredInput * textOrNull o c.ioredOutput ≤
        helperAt a c := by
  have hwith : blockAt a (.cmdHelper ⟨some words, i, o, c.appendToOutput, c.redirectStderr⟩) *
      grownAt words c.words ≤ helperWith i o a c := le_iSup_of_le words le_rfl
  exact le_iSup_of_le i (le_iSup_of_le o (mul_le_mul_left (mul_le_mul_left hwith _) _))

/-- A command helper whose file names have moved on. -/
def movedAt (a : Address) (c : CmdHelper) : Part :=
  ⨆ i : Ptr Address, ⨆ o : Ptr Address, helperWith i o a c

def pipeHelperAt (a : Address) (p : PipeHelper) : Part :=
  ⨆ as : List Address,
    blockAt a .pipeHelper * list (listOf a) (as.map .elem) * each helperAt as p.commands

section Helpers

variable (alloc : Allocator)

theorem obstackInit_spec : Spec 1 (obstackInit alloc) fun a => grownAt a [] := by
  refine (malloc_spec alloc).conseq le_rfl fun a => ?_
  rw [Block.members, nodes_nil]
  exact le_iSup_of_le [] le_rfl

theorem obstackPtrGrow_spec {ptrs : List (Ptr Address)} {ptr : Ptr Address} :
    Spec (blockAt a (.array ptrs)) (obstackPtrGrow (some a) ptr)
      fun _ => blockAt a (.array (ptrs ++ [ptr])) :=
  Triple.read (getBlock_spec rfl) 1 (mul_one _).symm setBlock_spec

theorem obstackPtrGrow_word :
    Spec (grownAt a ws * textAt b w) (obstackPtrGrow (some a) (some b))
      fun _ => grownAt a (ws ++ [w]) := by
  unfold grownAt
  simp only [iSup_mul]
  refine .iSup fun as => ?_
  refine Triple.last obstackPtrGrow_spec (each textAt as ws * textAt b w) (mul_assoc _ _ _).le
    fun _ => ?_
  refine le_iSup_of_le (as ++ [b]) ?_
  rw [List.map_append, each_concat]
  exact le_rfl

theorem initPipe_spec : Spec 1 (initPipe alloc) fun a => pipeHelperAt a Cush.initPipe := by
  refine Triple.step (malloc_spec alloc) 1 (mul_one _).ge fun a => ?_
  refine Triple.step listInit_spec (blockAt a .pipeHelper) (le_of_eq ?_) fun _ => .pure ?_
  · rw [Block.members, listOf]
    ac_rfl
  · refine le_iSup_of_le [] (le_of_eq ?_)
    rw [List.map_nil, Cush.initPipe, each_nil, mul_one, mul_comm]

theorem initCmd_spec {wf wi wo : Option Word} (append inc : Bool) :
    Spec (textOrNull f wf * textOrNull i wi * textOrNull o wo)
      (initCmd alloc f i o append inc)
      fun a => helperAt a (Cush.initCmd wf wi wo append inc) * node (.elem a) := by
  refine Triple.step (malloc_spec alloc) _ (one_mul _).ge fun a => ?_
  rw [Block.members, nodes_cons, nodes_nil, mul_one]
  refine Triple.step (obstackInit_spec alloc) _ (one_mul _).ge fun v => ?_
  refine Triple.step setBlock_spec (grownAt v [] * textOrNull f wf * (node (.elem a) *
    textOrNull i wi * textOrNull o wo)) (le_of_eq (by ac_rfl)) fun _ => ?_
  have hhelper : blockAt a (.cmdHelper ⟨some v, i, o, append, inc⟩) *
      (grownAt v wf.toList * (node (.elem a) * textOrNull i wi * textOrNull o wo)) ≤
        helperAt a (Cush.initCmd wf wi wo append inc) * node (.elem a) := by
    refine (le_of_eq ?_).trans (mul_le_mul_left
      (helper_le v (i := i) (o := o) (c := Cush.initCmd wf wi wo append inc)) _)
    rw [Cush.initCmd]
    ac_rfl
  cases f <;> cases wf
  case none.none =>
    refine .pure ((le_of_eq ?_).trans hhelper)
    rw [textOrNull, mul_one, Option.toList_none]
  case some.some a₁ w =>
    have hgrow : Spec (grownAt v [] * textAt a₁ w) (obstackPtrGrow (some v) (some a₁))
        fun _ => grownAt v [w] := obstackPtrGrow_word
    refine Triple.step hgrow (blockAt a (.cmdHelper ⟨some v, i, o, append, inc⟩) *
      (node (.elem a) * textOrNull i wi * textOrNull o wo)) (le_of_eq ?_) fun _ => .pure ?_
    · rw [textOrNull]
      ac_rfl
    · rw [mul_left_comm]
      exact hhelper
  all_goals exact .of_bot (by simp [textOrNull])

theorem makeAstCommand_spec (hw : c.words ≠ []) :
    Spec (movedAt a c) (makeAstCommand alloc a) fun r => ⨆ x : Address, ⨆ b : HelperBlock,
      fact (r = some x) *
        (commandAt x (Cush.astCommandCreate c.words c.redirectStderr) * node (.elem x) *
          blockAt a (.cmdHelper b)) := by
  unfold movedAt helperWith grownAt
  simp only [mul_iSup]
  refine .iSup fun i => .iSup fun o => .iSup fun words => .iSup fun as => ?_
  cases as with
  | nil =>
    cases hc : c.words with
    | nil => exact absurd hc hw
    | cons w ws => exact .of_bot (by simp)
  | cons a₁ as =>
    refine Triple.read (getBlock_spec rfl) _ rfl ?_
    refine Triple.step obstackPtrGrow_spec
      (blockAt a (.cmdHelper ⟨some words, i, o, c.appendToOutput, c.redirectStderr⟩) *
        each textAt (a₁ :: as) c.words) (le_of_eq (by ac_rfl)) fun _ => ?_
    refine Triple.read (getBlock_spec rfl) _ rfl ?_
    refine Triple.step (malloc_spec alloc) _ (one_mul _).ge fun v => ?_
    rw [Block.members, nodes_nil, mul_one]
    refine Triple.step free_array_spec
      (blockAt v (.array ((a₁ :: as).map some ++ [none])) *
        (blockAt a (.cmdHelper ⟨some words, i, o, c.appendToOutput, c.redirectStderr⟩) *
          each textAt (a₁ :: as) c.words)) (le_of_eq (by ac_rfl)) fun _ => ?_
    rw [one_mul]
    refine Triple.read (getBlock_spec rfl) _ rfl ?_
    rw [if_neg (by simp)]
    refine Triple.read (getBlock_spec rfl) (blockAt v (.array ((a₁ :: as).map some ++ [none])) *
      each textAt (a₁ :: as) c.words) (by ac_rfl) ?_
    have hwords : blockAt v (.array ((a₁ :: as).map some ++ [none])) *
        each textAt (a₁ :: as) c.words ≤ wordsAt v c.words := le_iSup_of_le (a₁ :: as) le_rfl
    refine Triple.step (astCommandCreate_spec alloc c.redirectStderr)
      (blockAt a (.cmdHelper ⟨some words, i, o, c.appendToOutput, c.redirectStderr⟩))
      ((le_of_eq (by ac_rfl)).trans (mul_le_mul_left hwords _)) fun x => .pure ?_
    exact le_iSup_of_le x (le_iSup_of_le _ (le_fact_mul rfl le_rfl))

end Helpers

/-! ## Outcomes -/

/-- The outcome of an action that stops the parse: an error, or the end of the process. -/
def out : ParseStop → Except Fault ErrorMessage
  | .yyabort msg => .ok msg
  | .abort .nullCommand => .error .null
  | .abort _ => .error .assertion

section Outcomes

variable {β γ : Type} {err : ParseStop → Except Fault γ} {res : Except ParseStop (γ → Part)}
  {P P' Q : Part} {d : AstM β} {k : β → AstM γ} {d' : AstM γ}

/-- A program ends with what `res` says, or fails as `res` says. -/
def Meets (err : ParseStop → Except Fault γ) (res : Except ParseStop (γ → Part)) (P : Part)
    (d : AstM γ) : Prop :=
  match res with
  | .ok Q => Spec P d Q
  | .error e => Halts Memory.heap (err e) P d

theorem Meets.conseq (h : Meets err res P d') (hP : P' ≤ P) : Meets err res P' d' := by
  cases res with
  | ok Q => exact Triple.conseq h hP fun _ => le_rfl
  | error e => exact Halts.conseq h hP

theorem Meets.of_bot (hP : P ≤ ⊥) : Meets err res P d' := by
  cases res with
  | ok Q => exact Triple.of_bot hP
  | error e => exact Halts.of_bot hP

theorem Meets.iSup {ι : Sort*} {g : ι → Part} (h : ∀ i, Meets err res (g i) d') :
    Meets err res (⨆ i, g i) d' := by
  cases res with
  | ok Q => exact Triple.iSup h
  | error e => exact Halts.iSup h

theorem Meets.step {Q : β → Part} (h : Spec P d Q) (F : Part) (hP : P' ≤ P * F)
    (hk : ∀ r, Meets err res (Q r * F) (k r)) : Meets err res P' (d >>= k) := by
  have hd : Spec P' d fun r => Q r * F := (h.frame F).conseq hP fun _ => le_rfl
  cases res with
  | ok Q => exact Triple.bind hd hk
  | error e => exact Halts.after hd hk

theorem Meets.learn {Q : β → Part} {ψ : β → Prop}
    (h : Spec P d fun r => Assertion.fact (ψ r) * Q r) (F : Part) (hP : P' ≤ P * F)
    (hk : ∀ r, ψ r → Meets err res (Q r * F) (k r)) : Meets err res P' (d >>= k) := by
  refine Meets.step h F hP fun r => ?_
  rw [mul_assoc, fact_mul]
  exact .iSup (hk r)

theorem Meets.read {r : β} (h : Spec P d fun r' => Assertion.fact (r' = r) * P) (F : Part)
    (hP : P' = P * F) (hk : Meets err res P' (k r)) : Meets err res P' (d >>= k) :=
  Meets.learn h F hP.le fun _ hr => hr ▸ hP ▸ hk

/-- A part of an action that takes `YYABORT` if it fails. -/
def Tries (res : Except ParseStop Part) (P : Part) (d : AstM (Except ErrorMessage Unit)) : Prop :=
  Meets (fun e => (out e).map .error) (res.map fun Q r => fact (r = .ok ()) * Q) P d

theorem Tries.succeed (h : P ≤ Q) :
    Tries (.ok Q) P (pure (.ok ()) : AstM (Except ErrorMessage Unit)) := by
  unfold Tries Meets
  exact Triple.pure (le_fact_mul rfl h)

theorem Tries.abort {msg : ErrorMessage} :
    Tries (.error (.yyabort msg)) P
      (pure (.error msg) : AstM (Except ErrorMessage Unit)) := by
  unfold Tries Meets
  exact Halts.pure

end Outcomes

/-! ## Pipelines of helpers -/

theorem helperAt_eq : helperAt a c = ⨆ i : Ptr Address, ⨆ o : Ptr Address, ⨆ words : Address,
    ⨆ as : List Address,
      blockAt a (.cmdHelper ⟨some words, i, o, c.appendToOutput, c.redirectStderr⟩) *
        (blockAt words (.array (as.map some)) * each textAt as c.words) *
          textOrNull i c.ioredInput * textOrNull o c.ioredOutput := by
  simp only [helperAt, helperWith, grownAt, iSup_mul, mul_iSup]

theorem le_helperAt {words : Address} :
    blockAt a (.cmdHelper ⟨some words, i, o, c.appendToOutput, c.redirectStderr⟩) *
      (blockAt words (.array (as.map some)) * each textAt as c.words) *
        textOrNull i c.ioredInput * textOrNull o c.ioredOutput ≤ helperAt a c :=
  (mul_le_mul_left (mul_le_mul_left (mul_le_mul_right (le_iSup_of_le as le_rfl) _) _) _).trans
    (helper_le words)

/-- `list_push_back(&pipe->commands, &cmd->elem)` -/
theorem pushElem_spec :
    Spec (pipeHelperAt a p * (helperAt x c * node (.elem x)))
      (onLists (listPushBack (listOf a) (some (.elem x))))
      fun _ => pipeHelperAt a ⟨p.commands ++ [c]⟩ := by
  unfold pipeHelperAt
  simp only [iSup_mul]
  refine .iSup fun as => ?_
  refine Triple.last listPushBack_spec (blockAt a .pipeHelper * each helperAt as p.commands *
    helperAt x c) (le_of_eq (by ac_rfl)) fun _ => ?_
  refine le_iSup_of_le (as ++ [x]) ?_
  rw [List.map_append, mul_comm (list _ _), mul_assoc _ (each _ _ _), mul_right_comm]
  exact mul_le_mul_right each_concat.ge _

theorem pushHelper_tries :
    Tries
      ((if c.words = [] then .error (.yyabort .invnul) else .ok ⟨p.commands ++ [c]⟩ :
        Except ParseStop PipeHelper).map (pipeHelperAt a))
      (pipeHelperAt a p * (helperAt x c * node (.elem x))) (pushHelper a x) := by
  rw [helperAt_eq]
  simp only [iSup_mul, mul_iSup]
  refine .iSup fun i => .iSup fun o => .iSup fun words => .iSup fun as => ?_
  refine Meets.read (getBlock_spec rfl) (pipeHelperAt a p * node (.elem x) *
    (blockAt words (.array (as.map some)) * each textAt as c.words) *
      textOrNull i c.ioredInput * textOrNull o c.ioredOutput) (by ac_rfl) ?_
  refine Meets.read (getBlock_spec rfl) (pipeHelperAt a p * node (.elem x) *
    blockAt x (.cmdHelper ⟨some words, i, o, c.appendToOutput, c.redirectStderr⟩) *
      each textAt as c.words * textOrNull i c.ioredInput * textOrNull o c.ioredOutput)
    (by ac_rfl) ?_
  by_cases hw : c.words = []
  · cases as with
    | nil =>
      rw [if_pos hw, if_pos List.map_nil]
      exact Tries.abort
    | cons a₁ as => exact .of_bot (by simp [hw])
  · cases as with
    | nil =>
      obtain ⟨w, ws, hws⟩ := List.exists_cons_of_ne_nil hw
      exact .of_bot (by simp [hws])
    | cons a₁ as =>
      rw [if_neg hw, if_neg (by simp)]
      refine Meets.step pushElem_spec 1 ?_ fun _ => Tries.succeed (mul_one _).le
      rw [mul_one]
      exact mul_le_mul_right (mul_le_mul_left le_helperAt _) _

theorem listEmpty_spec :
    Spec (pipeHelperAt a p) (onLists (listEmpty (listOf a)))
      fun r => fact (r = p.commands.isEmpty) * pipeHelperAt a p := by
  unfold pipeHelperAt
  refine .iSup fun as => ?_
  have hempty : as.length = p.commands.length →
      (as.map Place.elem).isEmpty = p.commands.isEmpty := by
    intro hlen
    cases as <;> cases hp : p.commands <;> simp [hp] at hlen ⊢
  by_cases hlen : as.length = p.commands.length
  · refine Triple.last (listRead_spec fun _ h => listEmpty_ends h)
      (blockAt a .pipeHelper * each helperAt as p.commands) (le_of_eq (by ac_rfl)) fun r => ?_
    rw [mul_assoc, hempty hlen]
    exact mul_le_mul_right (le_iSup_of_le as (le_of_eq (by ac_rfl))) _
  · exact .of_bot (by rw [each_eq_bot hlen, Quantale.mul_bot])

/-- The last element of a list that owns what its elements are embedded in. -/
theorem owned_concat {β : Type} {A : Address → β → Part} {vs : List β} {u : β} (B : Part) :
    (⨆ as : List Address, B * list (listOf a) (as.map .elem) * each A as (vs ++ [u])) =
      ⨆ as : List Address, ⨆ x : Address,
        B * list (listOf a) (as.map .elem ++ [.elem x]) * each A as vs * A x u := by
  refine le_antisymm (iSup_le fun as => ?_) (iSup_le fun as => iSup_le fun x => ?_)
  · rcases List.eq_nil_or_concat' as with rfl | ⟨as, x, rfl⟩
    · rw [each_eq_bot (by simp), Quantale.mul_bot]
      exact bot_le
    · refine le_iSup_of_le as (le_iSup_of_le x (le_of_eq ?_))
      rw [each_concat, List.map_append, mul_assoc _ (each _ _ _)]
      rfl
  · refine le_iSup_of_le (as ++ [x]) (le_of_eq ?_)
    rw [each_concat, List.map_append, mul_assoc _ (each _ _ _)]
    rfl

theorem pipeHelperAt_concat {hs : List CmdHelper} : pipeHelperAt a ⟨hs ++ [c]⟩ =
    ⨆ as : List Address, ⨆ x : Address, blockAt a .pipeHelper *
      list (listOf a) (as.map .elem ++ [.elem x]) * each helperAt as hs * helperAt x c :=
  owned_concat _

theorem getHelper_spec : Spec (helperWith i o a c) (getBlock Block.cmdHelper? (some a)) fun r =>
    fact (r.ioredInput = i ∧ r.ioredOutput = o ∧ r.appendToOutput = c.appendToOutput) *
      helperWith i o a c := by
  unfold helperWith
  refine .iSup fun words => ?_
  refine Triple.last (getBlock_spec rfl) (grownAt words c.words) le_rfl fun r => ?_
  rw [mul_assoc]
  refine fact_mul_le fun hr => le_fact_mul ?_ (le_iSup_of_le words le_rfl)
  subst hr
  exact ⟨rfl, rfl, rfl⟩

theorem textOrNull_eq_bot {w : Option Word} (h : i.isSome ≠ w.isSome) : textOrNull i w = ⊥ := by
  cases i <;> cases w <;> simp [textOrNull] at h ⊢

theorem getInput_spec : Spec (helperAt a c) (getBlock Block.cmdHelper? (some a)) fun r =>
    fact (r.ioredInput.isSome = c.ioredInput.isSome) * helperAt a c := by
  unfold helperAt
  refine .iSup fun i => .iSup fun o => ?_
  by_cases hi : i.isSome = c.ioredInput.isSome
  · refine Triple.last getHelper_spec (textOrNull i c.ioredInput * textOrNull o c.ioredOutput)
      (mul_assoc _ _ _).le fun r => ?_
    rw [mul_assoc, ← mul_assoc (helperWith i o a c)]
    refine fact_mul_le fun hr => le_fact_mul ?_ (le_iSup_of_le i (le_iSup_of_le o le_rfl))
    rw [hr.1, hi]
  · exact .of_bot (by rw [textOrNull_eq_bot hi, Quantale.mul_bot, Quantale.bot_mul])

theorem addToPipeline_tries (redirectStderr : Bool) :
    Tries ((Cush.addToPipeline p c redirectStderr).map (pipeHelperAt a))
      (pipeHelperAt a p * (helperAt x c * node (.elem x)))
      (addToPipeline a x redirectStderr) := by
  refine Meets.read listEmpty_spec (helperAt x c * node (.elem x)) rfl ?_
  obtain ⟨hs⟩ := p
  rcases List.eq_nil_or_concat' hs with rfl | ⟨hs, l, rfl⟩
  · have hnil := addToPipeline_nil c redirectStderr
    rw [Cush.initPipe] at hnil
    rw [if_pos (show ([] : List CmdHelper).isEmpty = true from rfl), hnil]
    exact pushHelper_tries (p := ⟨[]⟩)
  · rw [if_neg (by simp), addToPipeline_concat, pipeHelperAt_concat]
    simp only [iSup_mul]
    refine .iSup fun as => .iSup fun y => ?_
    have hback : Spec (list (listOf a) (as.map .elem ++ [.elem y]))
        (onLists (LinkedList.listBack (listOf a))) fun e =>
          fact (e = some (.elem y)) * list (listOf a) (as.map .elem ++ [.elem y]) :=
      listRead_spec fun _ h => listBack_ends h
    refine Meets.read hback (blockAt a .pipeHelper * each helperAt as hs * helperAt y l *
      (helperAt x c * node (.elem x))) (by ac_rfl) ?_
    refine Meets.read listEntry_spec _ (one_mul _).symm ?_
    rw [helperAt_eq (a := y) (c := l)]
    simp only [iSup_mul, mul_iSup]
    refine .iSup fun i => .iSup fun o => .iSup fun words => .iSup fun ws => ?_
    refine Meets.read (getBlock_spec rfl) (blockAt a .pipeHelper *
      list (listOf a) (as.map .elem ++ [.elem y]) * each helperAt as hs *
        (blockAt words (.array (ws.map some)) * each textAt ws l.words) *
          textOrNull i l.ioredInput * textOrNull o l.ioredOutput *
            (helperAt x c * node (.elem x))) (by ac_rfl) ?_
    by_cases ho : o.isSome = l.ioredOutput.isSome
    swap
    · exact .of_bot (by rw [textOrNull_eq_bot ho, Quantale.mul_bot, Quantale.mul_bot,
        Quantale.bot_mul])
    by_cases hl : l.ioredOutput.isSome = true
    · rw [if_pos hl, if_pos (ho.trans hl)]
      exact Tries.abort
    have ho' : ¬ o.isSome = true := by rwa [ho]
    rw [if_neg hl, if_neg ho']
    refine Meets.step setBlock_spec (blockAt a .pipeHelper *
      list (listOf a) (as.map .elem ++ [.elem y]) * each helperAt as hs *
        (blockAt words (.array (ws.map some)) * each textAt ws l.words) *
          textOrNull i l.ioredInput * textOrNull o l.ioredOutput *
            (helperAt x c * node (.elem x))) (le_of_eq (by ac_rfl)) fun _ => ?_
    have hlast : blockAt y (.cmdHelper ⟨some words, i, o, l.appendToOutput, redirectStderr⟩) *
        (blockAt words (.array (ws.map some)) * each textAt ws l.words) *
          textOrNull i l.ioredInput * textOrNull o l.ioredOutput ≤
            helperAt y { l with redirectStderr } :=
      le_helperAt (c := { l with redirectStderr })
    have hpipe : blockAt a .pipeHelper * list (listOf a) (as.map .elem ++ [.elem y]) *
        each helperAt as hs * helperAt y { l with redirectStderr } ≤
          pipeHelperAt a ⟨hs ++ [{ l with redirectStderr }]⟩ := by
      rw [pipeHelperAt_concat]
      exact le_iSup_of_le as (le_iSup_of_le y le_rfl)
    refine Meets.learn (getInput_spec (c := c))
      (pipeHelperAt a ⟨hs ++ [{ l with redirectStderr }]⟩ * node (.elem x)) ?_ fun r hr => ?_
    · refine le_trans (le_of_eq ?_) (mul_le_mul_right (mul_le_mul_left
        ((mul_le_mul_right hlast _).trans hpipe) _) _)
      ac_rfl
    by_cases hc : c.ioredInput.isSome = true
    · rw [if_pos hc, if_pos (hr.trans hc)]
      exact Tries.abort
    have hr' : ¬ r.ioredInput.isSome = true := by rwa [hr]
    rw [if_neg hc, if_neg hr']
    exact pushHelper_tries.conseq (le_of_eq (mul_left_comm _ _ _))

/-! ## Redirections -/

/-- A helper that an input redirection makes. -/
def IsInput (c : CmdHelper) : Prop :=
  c.words = [] ∧ c.ioredOutput = none

/-- A helper that an output redirection makes. -/
def IsOutput (c : CmdHelper) : Prop :=
  c.words = [] ∧ c.ioredInput = none

theorem textOrNull_none_le : textOrNull i none ≤ 1 := by
  cases i <;> simp [textOrNull]

theorem free_helper_spec {b : HelperBlock} :
    Spec (blockAt a (.cmdHelper b) * node (.elem a)) (free (some a)) fun _ => 1 := by
  have hfree := free_spec (a := a) (b := .cmdHelper b)
  rwa [Block.members, nodes_cons, nodes_nil, mul_one] at hfree

/-- `command input` and `command output` free the obstack of the helper on the right, and look at
the helper on the left. -/
theorem redirect_tries {res : Except ParseStop Part}
    {k : HelperBlock → AstM (Except ErrorMessage Unit)} (hw : c'.words = [])
    (hk : ∀ i o words i' o' words', i.isSome = c.ioredInput.isSome →
      o.isSome = c.ioredOutput.isSome →
      Tries res (blockAt a (.cmdHelper ⟨some words, i, o, c.appendToOutput, c.redirectStderr⟩) *
        grownAt words c.words * textOrNull i c.ioredInput * textOrNull o c.ioredOutput *
          node (.elem a) * (blockAt b (.cmdHelper
            ⟨words', i', o', c'.appendToOutput, c'.redirectStderr⟩) *
              textOrNull i' c'.ioredInput * textOrNull o' c'.ioredOutput * node (.elem b)))
        (k ⟨some words, i, o, c.appendToOutput, c.redirectStderr⟩)) :
    Tries res (helperAt a c * node (.elem a) * (helperAt b c' * node (.elem b)))
      (do
        let bb ← getBlock Block.cmdHelper? (some b)
        obstackFree bb.words
        let ab ← getBlock Block.cmdHelper? (some a)
        k ab) := by
  rw [helperAt_eq (a := b) (c := c')]
  simp only [iSup_mul, mul_iSup]
  refine .iSup fun i' => .iSup fun o' => .iSup fun words' => .iSup fun as' => ?_
  rw [hw]
  cases as' with
  | cons a₁ as' => exact .of_bot (by simp)
  | nil =>
    refine Meets.read (getBlock_spec rfl) (helperAt a c * node (.elem a) *
      (blockAt words' (.array []) * textOrNull i' c'.ioredInput * textOrNull o' c'.ioredOutput *
        node (.elem b))) (by rw [List.map_nil, each_nil, mul_one]; ac_rfl) ?_
    refine Meets.step free_array_spec (helperAt a c * node (.elem a) *
      (blockAt b (.cmdHelper ⟨some words', i', o', c'.appendToOutput, c'.redirectStderr⟩) *
        textOrNull i' c'.ioredInput * textOrNull o' c'.ioredOutput * node (.elem b)))
      (le_of_eq (by rw [List.map_nil, each_nil, mul_one]; ac_rfl)) fun _ => ?_
    unfold helperAt helperWith
    simp only [one_mul, iSup_mul]
    refine .iSup fun i => .iSup fun o => .iSup fun words => ?_
    by_cases hi : i.isSome = c.ioredInput.isSome
    swap
    · exact .of_bot (by
        simp only [textOrNull_eq_bot hi, Quantale.mul_bot, Quantale.bot_mul, le_refl])
    by_cases ho : o.isSome = c.ioredOutput.isSome
    swap
    · exact .of_bot (by
        simp only [textOrNull_eq_bot ho, Quantale.mul_bot, Quantale.bot_mul, le_refl])
    refine Meets.read (getBlock_spec rfl) (grownAt words c.words * textOrNull i c.ioredInput *
      textOrNull o c.ioredOutput * node (.elem a) * (blockAt b (.cmdHelper
        ⟨words', i', o', c'.appendToOutput, c'.redirectStderr⟩) *
          textOrNull i' c'.ioredInput * textOrNull o' c'.ioredOutput * node (.elem b)))
      (by ac_rfl) ?_
    exact hk i o words i' o' words' hi ho

theorem addInput_tries (hc : IsInput c') :
    Tries
      ((if c.ioredInput.isSome then .error (.yyabort .ambinp)
        else .ok { c with ioredInput := c'.ioredInput } : Except ParseStop CmdHelper).map
          fun c => helperAt a c * node (.elem a))
      (helperAt a c * node (.elem a) * (helperAt b c' * node (.elem b))) (addInput a b) := by
  refine redirect_tries hc.1 fun i o words i' o' words' hi ho => ?_
  by_cases hin : c.ioredInput.isSome = true
  · rw [if_pos hin, if_pos (hi.trans hin)]
    exact Tries.abort
  have hi' : ¬ i.isSome = true := by rwa [hi]
  rw [if_neg hin, if_neg hi']
  refine Meets.read (getBlock_spec rfl) (blockAt a (.cmdHelper
    ⟨some words, i, o, c.appendToOutput, c.redirectStderr⟩) * grownAt words c.words *
      textOrNull i c.ioredInput * textOrNull o c.ioredOutput * node (.elem a) *
        (textOrNull i' c'.ioredInput * textOrNull o' c'.ioredOutput * node (.elem b)))
    (by ac_rfl) ?_
  refine Meets.step setBlock_spec (grownAt words c.words *
    textOrNull i c.ioredInput * textOrNull o c.ioredOutput * node (.elem a) *
      (blockAt b (.cmdHelper ⟨words', i', o', c'.appendToOutput, c'.redirectStderr⟩) *
        textOrNull i' c'.ioredInput * textOrNull o' c'.ioredOutput * node (.elem b)))
    (le_of_eq (by ac_rfl)) fun _ => ?_
  refine Meets.step free_helper_spec (blockAt a (.cmdHelper
    ⟨some words, i', o, c.appendToOutput, c.redirectStderr⟩) * grownAt words c.words *
      textOrNull i' c'.ioredInput * textOrNull o c.ioredOutput * node (.elem a) *
        (textOrNull i c.ioredInput * textOrNull o' c'.ioredOutput)) (le_of_eq (by ac_rfl))
    fun _ => Tries.succeed ?_
  have hnone : c.ioredInput = none := by simpa using hin
  have hgone : textOrNull i c.ioredInput * textOrNull o' c'.ioredOutput ≤ 1 := by
    rw [hnone, hc.2]
    exact mul_le_one' textOrNull_none_le textOrNull_none_le
  have hhelper : blockAt a (.cmdHelper ⟨some words, i', o, c.appendToOutput, c.redirectStderr⟩) *
      grownAt words c.words * textOrNull i' c'.ioredInput * textOrNull o c.ioredOutput ≤
        helperAt a { c with ioredInput := c'.ioredInput } :=
    helper_le words (c := { c with ioredInput := c'.ioredInput })
  rw [one_mul]
  exact (mul_le_of_le_one_right' hgone).trans (mul_le_mul_left hhelper _)

theorem addOutput_tries (hc : IsOutput c') :
    Tries
      ((if c.ioredOutput.isSome then .error (.yyabort .ambout)
        else .ok { c with
          ioredOutput := c'.ioredOutput
          appendToOutput := c'.appendToOutput
          redirectStderr := c'.redirectStderr } : Except ParseStop CmdHelper).map
            fun c => helperAt a c * node (.elem a))
      (helperAt a c * node (.elem a) * (helperAt b c' * node (.elem b))) (addOutput a b) := by
  refine redirect_tries hc.1 fun i o words i' o' words' hi ho => ?_
  by_cases hout : c.ioredOutput.isSome = true
  · rw [if_pos hout, if_pos (ho.trans hout)]
    exact Tries.abort
  have ho' : ¬ o.isSome = true := by rwa [ho]
  rw [if_neg hout, if_neg ho']
  refine Meets.read (getBlock_spec rfl) (blockAt a (.cmdHelper
    ⟨some words, i, o, c.appendToOutput, c.redirectStderr⟩) * grownAt words c.words *
      textOrNull i c.ioredInput * textOrNull o c.ioredOutput * node (.elem a) *
        (textOrNull i' c'.ioredInput * textOrNull o' c'.ioredOutput * node (.elem b)))
    (by ac_rfl) ?_
  refine Meets.step setBlock_spec (grownAt words c.words *
    textOrNull i c.ioredInput * textOrNull o c.ioredOutput * node (.elem a) *
      (blockAt b (.cmdHelper ⟨words', i', o', c'.appendToOutput, c'.redirectStderr⟩) *
        textOrNull i' c'.ioredInput * textOrNull o' c'.ioredOutput * node (.elem b)))
    (le_of_eq (by ac_rfl)) fun _ => ?_
  refine Meets.step free_helper_spec (blockAt a (.cmdHelper
    ⟨some words, i, o', c'.appendToOutput, c'.redirectStderr⟩) * grownAt words c.words *
      textOrNull i c.ioredInput * textOrNull o' c'.ioredOutput * node (.elem a) *
        (textOrNull i' c'.ioredInput * textOrNull o c.ioredOutput)) (le_of_eq (by ac_rfl))
    fun _ => Tries.succeed ?_
  have hnone : c.ioredOutput = none := by simpa using hout
  have hgone : textOrNull i' c'.ioredInput * textOrNull o c.ioredOutput ≤ 1 := by
    rw [hnone, hc.2]
    exact mul_le_one' textOrNull_none_le textOrNull_none_le
  have hhelper : blockAt a (.cmdHelper
      ⟨some words, i, o', c'.appendToOutput, c'.redirectStderr⟩) * grownAt words c.words *
        textOrNull i c.ioredInput * textOrNull o' c'.ioredOutput ≤
      helperAt a { c with
        ioredOutput := c'.ioredOutput
        appendToOutput := c'.appendToOutput
        redirectStderr := c'.redirectStderr } :=
    helper_le words (c := { c with
      ioredOutput := c'.ioredOutput
      appendToOutput := c'.appendToOutput
      redirectStderr := c'.redirectStderr })
  rw [one_mul]
  exact (mul_le_of_le_one_right' hgone).trans (mul_le_mul_left hhelper _)

/-! ## Abstract pipelines -/

/-- A pipeline as the parser makes it. -/
structure Chained (p : PipeHelper) : Prop where
  nonempty : p.commands ≠ []
  words : ∀ c ∈ p.commands, c.words ≠ []
  inputs : ∀ c ∈ p.commands.tail, c.ioredInput = none
  outputs : ∀ c ∈ p.commands.dropLast, c.ioredOutput = none

theorem addCommands_spec (alloc : Allocator) {hs : List CmdHelper} {fuel : Nat}
    (hw : ∀ h ∈ hs, h.words ≠ []) (hfuel : as.length < fuel) :
    Spec (pipelineAt a q * list (listOf b) (as.map .elem) * each movedAt as hs)
      (addCommands alloc a b fuel ((listOf b).place (as.map .elem)))
      fun _ => pipelineAt a { q with
        commands := q.commands ++ hs.map fun h => ⟨h.words, h.redirectStderr⟩ } *
          list (listOf b) [] := by
  induction as generalizing hs q fuel with
  | nil =>
    obtain ⟨fuel, rfl⟩ := Nat.exists_eq_succ_of_ne_zero (Nat.ne_of_gt hfuel)
    have hend : (listOf b).place (([] : List Address).map .elem) = listEnd (listOf b) := rfl
    rw [addCommands, if_pos hend]
    cases hs with
    | nil => exact .pure (le_of_eq (by simp))
    | cons h hs => exact .of_bot (by simp)
  | cons x as ih =>
    obtain ⟨fuel, rfl⟩ := Nat.exists_eq_succ_of_ne_zero (Nat.ne_zero_of_lt hfuel)
    have hne : (listOf b).place ((x :: as).map .elem) ≠ listEnd (listOf b) := by
      simp [listEnd, listOf]
    rw [addCommands, if_neg hne]
    cases hs with
    | nil => exact .of_bot (by simp)
    | cons h hs =>
      refine Triple.read listEntry_spec _ (one_mul _).symm ?_
      refine Triple.step (makeAstCommand_spec alloc (hw h List.mem_cons_self))
        (pipelineAt a q * list (listOf b) ((x :: as).map .elem) * each movedAt as hs)
        (le_of_eq (by rw [each_cons]; ac_rfl)) fun r => ?_
      simp only [iSup_mul, mul_assoc]
      refine .iSup fun y => .iSup fun hb => .fact fun hr => ?_
      subst hr
      refine Triple.step astPipelineAddCommand_spec (blockAt x (.cmdHelper hb) *
        list (listOf b) ((x :: as).map .elem) * each movedAt as hs) (le_of_eq (by ac_rfl))
        fun _ => ?_
      have hremove : Spec (list (listOf b) ((x :: as).map .elem))
          (onLists (listRemove (some (.elem x)))) fun e =>
            fact (e = (listOf b).place (as.map .elem)) *
              (list (listOf b) (as.map .elem) * node (.elem x)) := listRemove_spec []
      refine Triple.learn hremove (pipelineAt a (Cush.astPipelineAddCommand q
        (Cush.astCommandCreate h.words h.redirectStderr)) * blockAt x (.cmdHelper hb) *
          each movedAt as hs) (le_of_eq (by ac_rfl)) fun e he => ?_
      subst he
      refine Triple.step free_helper_spec (pipelineAt a (Cush.astPipelineAddCommand q
        (Cush.astCommandCreate h.words h.redirectStderr)) * list (listOf b) (as.map .elem) *
          each movedAt as hs) (le_of_eq (by ac_rfl)) fun _ => ?_
      rw [one_mul]
      have hrest := ih (q := Cush.astPipelineAddCommand q
        (Cush.astCommandCreate h.words h.redirectStderr))
        (fun h' hh' => hw h' (List.mem_cons_of_mem _ hh')) (Nat.lt_of_succ_lt_succ hfuel)
      refine hrest.conseq le_rfl fun _ => le_of_eq ?_
      simp [Cush.astPipelineAddCommand, Cush.astCommandCreate]

theorem free_pipeHelper_spec :
    Spec (blockAt a .pipeHelper * list (listOf a) []) (free (some a)) fun _ => 1 :=
  free_spec.conseq (mul_le_mul_right list_le_nodes _) fun _ => le_rfl

theorem movedAt_le_live : movedAt a c ≤ live [a] :=
  iSup_le fun _ => iSup_le fun _ => iSup_le fun _ =>
    (mul_le_mul_left blockAt_le_live _).trans (live_mul_le _ _)

/-- A helper at an address, with the pointers that it holds. -/
def helperOn (x : Address × Ptr Address × Ptr Address) (c : CmdHelper) : Part :=
  helperWith x.2.1 x.2.2 x.1 c

def inputOn (x : Address × Ptr Address × Ptr Address) (c : CmdHelper) : Part :=
  textOrNull x.2.1 c.ioredInput

def outputOn (x : Address × Ptr Address × Ptr Address) (c : CmdHelper) : Part :=
  textOrNull x.2.2 c.ioredOutput

theorem each_helperAt_le {cs : List CmdHelper} : each helperAt as cs ≤
    ⨆ xs : List (Address × Ptr Address × Ptr Address), fact (xs.map Prod.fst = as) *
      (each helperOn xs cs * (each inputOn xs cs * each outputOn xs cs)) := by
  have hhelper : each helperAt as cs ≤
      each (fun a c => ⨆ t, helperOn (a, t) c * (inputOn (a, t) c * outputOn (a, t) c)) as cs := by
    refine each_mono fun a c => ?_
    rw [iSup_prod]
    exact iSup_mono fun i => iSup_mono fun o => (mul_assoc _ _ _).le
  refine hhelper.trans ((each_iSup
    (B := fun x c => helperOn x c * (inputOn x c * outputOn x c))).trans (iSup_mono fun xs => ?_))
  rw [each_mul, each_mul]

theorem each_helperOn_le (xs : List (Address × Ptr Address × Ptr Address)) (cs : List CmdHelper) :
    each helperOn xs cs ≤ each movedAt (xs.map Prod.fst) cs := by
  have hmap : each movedAt (xs.map Prod.fst) (cs.map id) =
      each (fun x c => movedAt x.1 (id c)) xs cs := each_map Prod.fst id
  rw [List.map_id] at hmap
  rw [hmap]
  exact each_mono fun x c => le_iSup_of_le x.2.1 (le_iSup_of_le x.2.2 le_rfl)

/-- The file names of a pipeline are those of its first and its last command. -/
theorem Chained.inputs_le (hp : Chained p) {x : Address × Ptr Address × Ptr Address}
    {xs : List (Address × Ptr Address × Ptr Address)} {cs : List CmdHelper}
    (hc : p.commands = c :: cs) : each inputOn (x :: xs) p.commands ≤ inputOn x c := by
  rw [hc, each_cons]
  refine mul_le_of_le_one_right' (each_le_one fun x c' hc' => ?_)
  rw [inputOn, hp.inputs c' (by rwa [hc])]
  exact textOrNull_none_le

theorem Chained.outputs_le (hp : Chained p) {x : Address × Ptr Address × Ptr Address}
    {xs : List (Address × Ptr Address × Ptr Address)} {cs : List CmdHelper}
    (hc : p.commands = cs ++ [c]) : each outputOn (xs ++ [x]) p.commands ≤ outputOn x c := by
  rw [hc, each_concat]
  refine mul_le_of_le_one_left' (each_le_one fun x c' hc' => ?_)
  rw [outputOn, hp.outputs c' (by rwa [hc, List.dropLast_concat])]
  exact textOrNull_none_le

theorem getFirst_spec {x : Address × Ptr Address × Ptr Address}
    {xs : List (Address × Ptr Address × Ptr Address)} {cs : List CmdHelper} :
    Spec (each helperOn (x :: xs) (c :: cs)) (getBlock Block.cmdHelper? (some x.1)) fun r =>
      fact (r.ioredInput = x.2.1) * each helperOn (x :: xs) (c :: cs) := by
  refine Triple.last getHelper_spec (each helperOn xs cs) le_rfl fun r => ?_
  rw [mul_assoc]
  exact fact_mul_le fun hr => le_fact_mul hr.1 le_rfl

theorem getLast_spec {x : Address × Ptr Address × Ptr Address}
    {xs : List (Address × Ptr Address × Ptr Address)} {cs : List CmdHelper} :
    Spec (each helperOn (xs ++ [x]) (cs ++ [c])) (getBlock Block.cmdHelper? (some x.1)) fun r =>
      fact (r.ioredOutput = x.2.2 ∧ r.appendToOutput = c.appendToOutput) *
        each helperOn (xs ++ [x]) (cs ++ [c]) := by
  rw [each_concat]
  refine Triple.last getHelper_spec (each helperOn xs cs) (mul_comm _ _).le fun r => ?_
  rw [mul_assoc, mul_comm (helperWith _ _ _ _)]
  exact fact_mul_le fun hr => le_fact_mul hr.2 le_rfl

/-- The commands move into the pipeline that has been made for them. -/
theorem moveCommands_spec (alloc : Allocator) (as : List Address) {z : Address}
    {hs : List CmdHelper} (hw : ∀ h ∈ hs, h.words ≠ []) :
    Spec (pipelineAt z q * node (.elem z) * blockAt a .pipeHelper *
        list (listOf a) (as.map .elem) * each movedAt as hs)
      (do
        let e ← onLists (listBegin (listOf a))
        addCommands alloc z a (← rounds) e
        free (some a)
        return z)
      fun x => pipelineAt x { q with
        commands := q.commands ++ hs.map fun h => ⟨h.words, h.redirectStderr⟩ } *
          node (.elem x) := by
  refine Triple.read listBegin_spec (pipelineAt z q * node (.elem z) * blockAt a .pipeHelper *
    each movedAt as hs) (by ac_rfl) ?_
  have hlive : each movedAt as hs ≤ live as := each_le_live fun _ _ => movedAt_le_live
  refine Triple.learn (rounds_spec hlive) (pipelineAt z q * node (.elem z) *
    blockAt a .pipeHelper * list (listOf a) (as.map .elem)) (mul_comm _ _).le fun fuel hfuel => ?_
  refine Triple.step (addCommands_spec alloc hw hfuel) (node (.elem z) * blockAt a .pipeHelper)
    (le_of_eq (by ac_rfl)) fun _ => ?_
  exact Triple.step free_pipeHelper_spec (pipelineAt z { q with
    commands := q.commands ++ hs.map fun h => ⟨h.words, h.redirectStderr⟩ } * node (.elem z))
    (le_of_eq (by ac_rfl)) fun _ => .pure (one_mul _).le

theorem makeAstPipeline_eq {l : CmdHelper} {cs hs : List CmdHelper} (hc : p.commands = c :: cs)
    (hl : p.commands = hs ++ [l]) (hw : ∀ c ∈ p.commands, c.words ≠ []) :
    Cush.makeAstPipeline p = .ok
      { Cush.astPipelineCreate c.ioredInput l.ioredOutput l.appendToOutput with
        commands := p.commands.map fun h => ⟨h.words, h.redirectStderr⟩ } := by
  have hne : p.commands ≠ [] := by simp [hc]
  have hfront : Cush.listFront p.commands = .ok c := by simp [Cush.listFront, hc]
  have hback : Cush.listBack p.commands = .ok l := by simp [Cush.listBack, hl]
  unfold Cush.makeAstPipeline
  simp only [hne, if_false, hfront, hback, bind, Except.bind]
  rw [addCommands_eq _ hw]
  simp [Cush.astPipelineCreate]

theorem makeAstPipeline_spec (alloc : Allocator) (hp : Chained p) :
    ∃ q, Cush.makeAstPipeline p = .ok q ∧
      Spec (pipeHelperAt a p) (makeAstPipeline alloc a)
        fun x => pipelineAt x q * node (.elem x) := by
  obtain ⟨c, cs, hc⟩ := List.exists_cons_of_ne_nil hp.nonempty
  obtain ⟨hs, l, hl⟩ := (List.eq_nil_or_concat' p.commands).resolve_left hp.nonempty
  refine ⟨_, makeAstPipeline_eq hc hl hp.words, ?_⟩
  refine Triple.read listEmpty_spec 1 (mul_one _).symm ?_
  rw [if_neg (by simp [hc])]
  unfold pipeHelperAt
  refine .iSup fun as => ?_
  refine Triple.conseq ?_ (mul_le_mul_right each_helperAt_le _) fun _ => le_rfl
  rw [mul_iSup]
  refine .iSup fun xs => ?_
  rw [mul_left_comm]
  refine .fact fun hxs => ?_
  rcases eq_or_ne xs [] with rfl | hne
  · exact .of_bot (by simp [hc])
  obtain ⟨x, xs', hx⟩ := List.exists_cons_of_ne_nil hne
  obtain ⟨ys, y, hy⟩ := (List.eq_nil_or_concat' xs).resolve_left hne
  have hinput : each inputOn xs p.commands ≤ inputOn x c := hx ▸ hp.inputs_le hc
  have houtput : each outputOn xs p.commands ≤ outputOn y l := hy ▸ hp.outputs_le hl
  refine Triple.conseq ?_ (mul_le_mul_right (mul_le_mul_right (mul_le_mul' hinput houtput) _) _)
    fun _ => le_rfl
  have hcons : as.map Place.elem = .elem x.1 :: (xs'.map Prod.fst).map .elem := by
    rw [← hxs, hx]
    rfl
  have hconcat : as.map Place.elem = (ys.map Prod.fst).map .elem ++ [.elem y.1] := by
    rw [← hxs, hy]
    simp
  have hfront : Spec (list (listOf a) (as.map .elem))
      (onLists (LinkedList.listFront (listOf a))) fun e =>
        fact (e = some (.elem x.1)) * list (listOf a) (as.map .elem) :=
    listRead_spec fun _ h => listFront_ends (hcons ▸ h)
  have hback : Spec (list (listOf a) (as.map .elem))
      (onLists (LinkedList.listBack (listOf a))) fun e =>
        fact (e = some (.elem y.1)) * list (listOf a) (as.map .elem) :=
    listRead_spec fun _ h => listBack_ends (hconcat ▸ h)
  have hfirst : Spec (each helperOn xs p.commands) (getBlock Block.cmdHelper? (some x.1)) fun r =>
      fact (r.ioredInput = x.2.1) * each helperOn xs p.commands := by
    rw [hx, hc]
    exact getFirst_spec
  have hlast : Spec (each helperOn xs p.commands) (getBlock Block.cmdHelper? (some y.1)) fun r =>
      fact (r.ioredOutput = y.2.2 ∧ r.appendToOutput = l.appendToOutput) *
        each helperOn xs p.commands := by
    rw [hy, hl]
    exact getLast_spec
  have hmoved : each helperOn xs p.commands ≤ each movedAt as p.commands :=
    hxs ▸ each_helperOn_le xs p.commands
  refine Triple.read hfront (blockAt a .pipeHelper * (each helperOn xs p.commands *
    (inputOn x c * outputOn y l))) (by ac_rfl) ?_
  refine Triple.read listEntry_spec _ (one_mul _).symm ?_
  refine Triple.read hback (blockAt a .pipeHelper * (each helperOn xs p.commands *
    (inputOn x c * outputOn y l))) (by ac_rfl) ?_
  refine Triple.read listEntry_spec _ (one_mul _).symm ?_
  refine Triple.learn hfirst (blockAt a .pipeHelper * list (listOf a) (as.map .elem) *
    (inputOn x c * outputOn y l)) (le_of_eq (by ac_rfl)) fun f hf => ?_
  refine Triple.learn hlast (blockAt a .pipeHelper * list (listOf a) (as.map .elem) *
    (inputOn x c * outputOn y l)) le_rfl fun f' hf' => ?_
  rw [hf, hf'.1, hf'.2]
  refine Triple.step (astPipelineCreate_spec alloc l.appendToOutput) (blockAt a .pipeHelper *
    list (listOf a) (as.map .elem) * each helperOn xs p.commands) (le_of_eq (by
      rw [inputOn, outputOn]; ac_rfl)) fun z => ?_
  refine (moveCommands_spec alloc as hp.words).conseq ?_ fun _ => le_rfl
  refine (mul_le_mul_right (mul_le_mul_right hmoved _) _).trans (le_of_eq ?_)
  ac_rfl

/-! ## Command lines -/

theorem commandLineAt_concat {ps : List AstPipeline} : commandLineAt a ⟨ps ++ [q]⟩ =
    ⨆ as : List Address, ⨆ x : Address, blockAt a .commandLine *
      list (listOf a) (as.map .elem ++ [.elem x]) * each pipelineAt as ps * pipelineAt x q :=
  owned_concat _

/-- `list_back` of an empty list fails its assertion. -/
theorem listBack_empty {l : ListHdr Place} :
    Triple Memory.heap (· = Fault.assertion) (list l []) (onLists (LinkedList.listBack l))
      fun _ => ⊥ := by
  rintro F s ⟨h, g, ha, hs, ⟨hm, hin, hout⟩, hF⟩
  have hlinks : ∀ p ∈ l.nodes [], links s.heap p = links h p := by
    intro p hp
    obtain ⟨n, hn⟩ := hin p hp
    rw [hs]
    exact links_join_left (by simp [hn])
  have hempty := listEmpty_ends (local_holds l [] _ _ hlinks hm)
  have hfail : LinkedList.listBack l (links s.heap) = .error .assertion := by
    change (listEmpty l (links s.heap) >>= _) = _
    rw [hempty]
    rfl
  unfold onLists
  rw [hfail]

theorem setBackground_spec :
    Spec (pipelineAt x q)
      (do
        let p ← getBlock Block.pipeline? (some x)
        setBlock (some x) (.pipeline { p with bgJob := true }))
      fun _ => pipelineAt x { q with bgJob := true } := by
  unfold pipelineAt
  refine .iSup fun i => .iSup fun o => .iSup fun as => ?_
  refine Triple.read (getBlock_spec rfl) (textOrNull i q.ioredInput * textOrNull o q.ioredOutput *
    list (listOf x) (as.map .elem) * each commandAt as q.commands) (by ac_rfl) ?_
  refine Triple.last setBlock_spec (textOrNull i q.ioredInput * textOrNull o q.ioredOutput *
    list (listOf x) (as.map .elem) * each commandAt as q.commands) (le_of_eq (by ac_rfl))
    fun _ => ?_
  exact le_iSup_of_le i (le_iSup_of_le o (le_iSup_of_le as (le_of_eq (by ac_rfl))))

theorem markBackground_meets :
    Meets (fun e => (out e).map fun _ => ())
      ((Cush.markBackground cl).map fun cl' _ => commandLineAt a cl')
      (commandLineAt a cl) (markBackground a) := by
  obtain ⟨ps⟩ := cl
  rcases List.eq_nil_or_concat' ps with rfl | ⟨ps, q, rfl⟩
  · unfold commandLineAt
    refine .iSup fun as => ?_
    cases as with
    | cons x as => exact .of_bot (by simp)
    | nil =>
      have hfail : Triple Memory.heap (· = Fault.assertion)
          (blockAt a .commandLine * list (listOf a) []) (markBackground a) fun _ => ⊥ := by
        refine Triple.step listBack_empty (blockAt a .commandLine) (mul_comm _ _).le fun e => ?_
        exact .of_bot Quantale.bot_mul.le
      exact hfail.conseq (mul_one _).le fun _ => le_rfl
  · have hmark : Cush.markBackground ⟨ps ++ [q]⟩ = .ok ⟨ps ++ [{ q with bgJob := true }]⟩ := by
      simp [Cush.markBackground, Cush.listBack, bind, Except.bind, pure, Except.pure]
    rw [hmark, commandLineAt_concat]
    refine .iSup fun as => .iSup fun x => ?_
    have hback : Spec (list (listOf a) (as.map .elem ++ [.elem x]))
        (onLists (LinkedList.listBack (listOf a))) fun e =>
          fact (e = some (.elem x)) * list (listOf a) (as.map .elem ++ [.elem x]) :=
      listRead_spec fun _ h => listBack_ends h
    refine Meets.read hback (blockAt a .commandLine * each pipelineAt as ps * pipelineAt x q)
      (by ac_rfl) ?_
    refine Meets.read listEntry_spec _ (one_mul _).symm ?_
    refine Triple.last setBackground_spec (blockAt a .commandLine *
      list (listOf a) (as.map .elem ++ [.elem x]) * each pipelineAt as ps) (mul_comm _ _).le
      fun _ => ?_
    refine le_trans ?_ commandLineAt_concat.ge
    exact le_iSup_of_le as (le_iSup_of_le x (mul_comm _ _).le)

end Cush.AstMemory
