import Cush.Grammar.Verify.Lines
import Cush.Grammar.Verify.Memory

/-!
# Parsing leaves no memory behind

Every action of the grammar does in memory what it does on values, with the memory of its result in
the place of that of its right-hand side. A parse that accepts a line makes the command line of the
parse with values out of memory of its own, and leaves the rest as it was; one that stops has the
error of the parse with values, and leaves what is on its stack.
-/

namespace Cush.AstMemory

open LinkedList Separation Assertion ShiftReduce LinkHeap

variable {a b x : Address} {w : Word} {c : CmdHelper} {p : PipeHelper} {cl : AstCommandLine}

/-! ## Semantic values -/

/-- The memory of a semantic value. -/
def rep : SemValue → SemPtr → Part
  | .none, .none => 1
  | .word w, .word a => textAt a w
  | .command c, .command a => helperAt a c * node (.elem a)
  | .pipe p, .pipe a => pipeHelperAt a p
  | .astPipe p, .astPipe a => pipelineAt a p * node (.elem a)
  | .cmdline cl, .cmdline a => commandLineAt a cl
  | _, _ => ⊥

/-- A pointer of the kind of a value. -/
inductive Suits : SemValue → SemPtr → Prop
  | none : Suits .none .none
  | word (w : Word) (a : Address) : Suits (.word w) (.word a)
  | command (c : CmdHelper) (a : Address) : Suits (.command c) (.command a)
  | pipe (p : PipeHelper) (a : Address) : Suits (.pipe p) (.pipe a)
  | astPipe (p : AstPipeline) (a : Address) : Suits (.astPipe p) (.astPipe a)
  | cmdline (cl : AstCommandLine) (a : Address) : Suits (.cmdline cl) (.cmdline a)

theorem rep_eq_bot {u : SemValue} {ptr : SemPtr} (h : ¬ Suits u ptr) : rep u ptr = ⊥ := by
  cases u <;> cases ptr
  case none.none => exact absurd .none h
  case word.word => exact absurd (.word _ _) h
  case command.command => exact absurd (.command _ _) h
  case pipe.pipe => exact absurd (.pipe _ _) h
  case astPipe.astPipe => exact absurd (.astPipe _ _) h
  case cmdline.cmdline => exact absurd (.cmdline _ _) h
  all_goals rfl

theorem each_rep_eq_bot {us : List SemValue} {ptrs : List SemPtr}
    (h : ¬ List.Forall₂ Suits us ptrs) : each rep us ptrs = ⊥ := by
  induction us generalizing ptrs with
  | nil =>
    cases ptrs with
    | nil => exact absurd .nil h
    | cons ptr ptrs => rfl
  | cons u us ih =>
    cases ptrs with
    | nil => rfl
    | cons ptr ptrs =>
      rw [each_cons]
      by_cases hu : Suits u ptr
      · rw [ih fun hus => h (.cons hu hus), Quantale.mul_bot]
      · rw [rep_eq_bot hu, Quantale.bot_mul]

/-- What an action does in memory that has the result `res` on values. -/
def Acts (res : Option (Except ParseStop SemValue)) (P : Part)
    (d : AstM (Option (Except ErrorMessage SemPtr))) : Prop :=
  match res with
  | none => True
  | some res => Meets (fun e => (out e).map fun e => some (.error e))
      (res.map fun u r => ⨆ ptr, fact (r = some (.ok ptr)) * rep u ptr) P d

section Acts

variable {P P' : Part} {u : SemValue} {ptr : SemPtr} {res : Except ParseStop SemValue}

theorem Acts.returns (h : P ≤ rep u ptr) : Acts (some (.ok u)) P (returns ptr) := by
  unfold Acts Meets
  exact Triple.pure (le_iSup_of_le ptr (le_fact_mul rfl h))

theorem Acts.aborts {msg : ErrorMessage} :
    Acts (some (.error (.yyabort msg))) P (aborts msg) := by
  unfold Acts Meets
  exact Halts.pure

theorem Acts.step {β : Type} {d : AstM β} {Q : β → Part}
    {k : β → AstM (Option (Except ErrorMessage SemPtr))} (h : Spec P d Q) (F : Part)
    (hP : P' ≤ P * F) (hk : ∀ r, Acts (some res) (Q r * F) (k r)) :
    Acts (some res) P' (d >>= k) :=
  Meets.step h F hP hk

theorem Acts.conseq {d : AstM (Option (Except ErrorMessage SemPtr))} (h : Acts (some res) P d)
    (hP : P' ≤ P) : Acts (some res) P' d :=
  Meets.conseq h hP

theorem Acts.iSup {ι : Sort*} {g : ι → Part} {d : AstM (Option (Except ErrorMessage SemPtr))}
    (h : ∀ i, Acts (some res) (g i) d) : Acts (some res) (⨆ i, g i) d :=
  Meets.iSup h

theorem Acts.read {β : Type} {r : β} {d : AstM β}
    {k : β → AstM (Option (Except ErrorMessage SemPtr))}
    (h : Spec P d fun r' => Assertion.fact (r' = r) * P) (F : Part) (hP : P' = P * F)
    (hk : Acts (some res) P' (k r)) : Acts (some res) P' (d >>= k) :=
  Meets.read h F hP hk

theorem acts_orAbort {γ : Type} {res : Except ParseStop γ} {g : γ → SemValue} {Q : γ → Part}
    {d : AstM (Except ErrorMessage Unit)} (h : Tries (res.map Q) P d)
    (hQ : ∀ x, Q x ≤ rep (g x) ptr) : Acts (some (res.map g)) P (orAbort ptr d) := by
  cases res with
  | ok x =>
    have hd : Spec P d fun r => fact (r = .ok ()) * Q x := h
    change Spec P (orAbort ptr d) fun r => ⨆ p, fact (r = some (.ok p)) * rep (g x) p
    refine Triple.bind hd fun r => .fact fun hr => ?_
    subst hr
    exact .pure (le_iSup_of_le ptr (le_fact_mul rfl (hQ x)))
  | error e =>
    have hd : Halts Memory.heap ((out e).map .error) P d := h
    change Halts Memory.heap ((out e).map fun e => some (.error e)) P (orAbort ptr d)
    cases ho : out e with
    | ok msg =>
      rw [ho] at hd
      exact hd.bind_ok rfl
    | error f =>
      rw [ho] at hd
      exact hd.bind_error

end Acts

theorem ite_map {γ : Type} {φ : Prop} [Decidable φ] {e : ParseStop} {u : γ} (g : γ → SemValue) :
    (if φ then .error e else .ok (g u) : Except ParseStop SemValue) =
      (if φ then .error e else .ok u : Except ParseStop γ).map g := by
  split <;> rfl

theorem markBackground_error {e : ParseStop} (h : Cush.markBackground cl = .error e) :
    e = .abort .listBack := by
  obtain ⟨ps⟩ := cl
  rcases List.eq_nil_or_concat' ps with rfl | ⟨ps, q, rfl⟩
  · simp [Cush.markBackground, Cush.listBack, bind, Except.bind] at h
    exact h.symm
  · simp [Cush.markBackground, Cush.listBack, bind, Except.bind, pure, Except.pure] at h

theorem markBackground_acts {g : AstCommandLine → SemValue} {F : Part}
    {k : Unit → AstM (Option (Except ErrorMessage SemPtr))}
    (hk : ∀ cl', Acts (some (.ok (g cl'))) (commandLineAt a cl' * F) (k ())) :
    Acts (some ((Cush.markBackground cl).map g)) (commandLineAt a cl * F)
      (markBackground a >>= k) := by
  have hmark := @markBackground_meets a cl
  cases hm : Cush.markBackground cl with
  | ok cl' =>
    rw [hm] at hmark
    exact Acts.step hmark F le_rfl fun _ => hk cl'
  | error e =>
    rw [hm, markBackground_error hm] at hmark
    rw [markBackground_error hm]
    have hfail : Triple Memory.heap (· = Fault.assertion) (commandLineAt a cl) (markBackground a)
        fun _ => ⊥ := hmark
    exact hfail.step F le_rfl fun _ => .of_bot Quantale.bot_mul.le

theorem addWord_acts :
    Acts (some (.ok (.command { c with words := c.words ++ [w] })))
      (helperAt a c * node (.elem a) * textAt b w)
      (do
        let cb ← getBlock Block.cmdHelper? (some a)
        obstackPtrGrow cb.words (some b)
        returns (.command a)) := by
  unfold helperAt helperWith
  simp only [iSup_mul]
  refine .iSup fun i => .iSup fun o => .iSup fun words => ?_
  refine Acts.read (getBlock_spec rfl) (grownAt words c.words * textOrNull i c.ioredInput *
    textOrNull o c.ioredOutput * node (.elem a) * textAt b w) (by ac_rfl) ?_
  refine Acts.step obstackPtrGrow_word (blockAt a (.cmdHelper
    ⟨some words, i, o, c.appendToOutput, c.redirectStderr⟩) * textOrNull i c.ioredInput *
      textOrNull o c.ioredOutput * node (.elem a)) (le_of_eq (by ac_rfl)) fun _ => .returns ?_
  refine (le_of_eq ?_).trans (mul_le_mul_left
    (helper_le words (i := i) (o := o) (c := { c with words := c.words ++ [w] })) _)
  ac_rfl

/-! ## The values of a state -/

/-- What is known of the values on the right-hand side of a production. -/
def Suited : Production → List SemValue → Prop
  | .astPipeline, [.pipe p] => Chained p
  | .commandAddInput, [_, .command i] => IsInput i
  | .commandAddOutput, [_, .command o] => IsOutput o
  | _, _ => True

theorem semanticAction_acts (alloc : Allocator) (r : Production) (us : List SemValue)
    (ptrs : List SemPtr) (hr : Suited r us) :
    Acts (Cush.semanticAction r us) (each rep us ptrs) (semanticAction alloc r ptrs) := by
  by_cases hp : List.Forall₂ Suits us ptrs
  swap
  · rw [each_rep_eq_bot hp]
    cases Cush.semanticAction r us with
    | none => trivial
    | some res => exact Meets.of_bot le_rfl
  unfold Cush.semanticAction
  split
  -- cmd_line
  · rcases hp with _ | ⟨⟨⟩, ⟨⟩⟩
    exact .returns (mul_one _).le
  -- cmd_list
  · rcases hp with _ | _
    exact Acts.step (astCommandLineCreateEmpty_spec alloc) 1 (mul_one _).ge fun a =>
      .returns (mul_one _).le
  · rcases hp with _ | ⟨⟨⟩, ⟨⟩⟩
    exact Acts.step (astCommandLineCreate_spec alloc) 1 le_rfl fun a => .returns (mul_one _).le
  · rcases hp with _ | ⟨⟨⟩, _ | ⟨⟨⟩, ⟨⟩⟩⟩
    exact .returns (le_of_eq (by simp [rep]))
  · rcases hp with _ | ⟨⟨⟩, _ | ⟨⟨⟩, ⟨⟩⟩⟩
    exact markBackground_acts fun cl' => .returns (le_of_eq (by simp [rep]))
  · rcases hp with _ | ⟨⟨⟩, _ | ⟨⟨⟩, _ | ⟨⟨⟩, ⟨⟩⟩⟩⟩
    exact Acts.step pushPipeline_spec 1 (le_of_eq (by simp [rep])) fun _ => .returns (mul_one _).le
  · rcases hp with _ | ⟨⟨⟩, _ | ⟨⟨⟩, _ | ⟨⟨⟩, ⟨⟩⟩⟩⟩
    exact markBackground_acts fun cl' => Acts.step pushPipeline_spec 1 (le_of_eq (by simp [rep]))
      fun _ => .returns (mul_one _).le
  -- ast_pipeline
  · rcases hp with _ | ⟨⟨⟩, ⟨⟩⟩
    obtain ⟨q, hq, hspec⟩ := makeAstPipeline_spec alloc hr
    rw [hq]
    exact Acts.step hspec 1 le_rfl fun _ => .returns (mul_one _).le
  -- pipeline
  · rcases hp with _ | ⟨⟨⟩, ⟨⟩⟩
    exact Acts.step (initPipe_spec alloc) _ (one_mul _).ge fun x =>
      acts_orAbort ((addToPipeline_tries false).conseq (le_of_eq (by simp [rep]))) fun _ => le_rfl
  · rcases hp with _ | ⟨⟨⟩, _ | ⟨⟨⟩, _ | ⟨⟨⟩, ⟨⟩⟩⟩⟩
    exact acts_orAbort ((addToPipeline_tries false).conseq (le_of_eq (by simp [rep])))
      fun _ => le_rfl
  · rcases hp with _ | ⟨⟨⟩, _ | ⟨⟨⟩, _ | ⟨⟨⟩, ⟨⟩⟩⟩⟩
    exact acts_orAbort ((addToPipeline_tries true).conseq (le_of_eq (by simp [rep])))
      fun _ => le_rfl
  · rcases hp with _ | ⟨⟨⟩, _ | ⟨⟨⟩, ⟨⟩⟩⟩
    exact .aborts
  · rcases hp with _ | ⟨⟨⟩, _ | ⟨⟨⟩, _ | ⟨⟨⟩, ⟨⟩⟩⟩⟩
    exact .aborts
  -- command
  · rcases hp with _ | ⟨⟨⟩, ⟨⟩⟩
    exact Acts.step (initCmd_spec alloc false false) 1
      (le_of_eq (by simp [rep, textOrNull])) fun _ => .returns (mul_one _).le
  · rcases hp with _ | ⟨⟨⟩, ⟨⟩⟩
    exact .returns (mul_one _).le
  · rcases hp with _ | ⟨⟨⟩, ⟨⟩⟩
    exact .returns (mul_one _).le
  · rcases hp with _ | ⟨⟨⟩, _ | ⟨⟨⟩, ⟨⟩⟩⟩
    exact addWord_acts.conseq (le_of_eq (by simp [rep]))
  · next c i =>
    rcases hp with _ | ⟨⟨⟩, _ | ⟨⟨⟩, ⟨⟩⟩⟩
    rw [ite_map SemValue.command]
    exact acts_orAbort ((addInput_tries hr).conseq (le_of_eq (by simp [rep]))) fun _ => le_rfl
  · next c o =>
    rcases hp with _ | ⟨⟨⟩, _ | ⟨⟨⟩, ⟨⟩⟩⟩
    rw [ite_map SemValue.command]
    exact acts_orAbort ((addOutput_tries hr).conseq (le_of_eq (by simp [rep]))) fun _ => le_rfl
  -- input
  · rcases hp with _ | ⟨⟨⟩, _ | ⟨⟨⟩, ⟨⟩⟩⟩
    exact Acts.step (initCmd_spec alloc false false) 1
      (le_of_eq (by simp [rep, textOrNull])) fun _ => .returns (mul_one _).le
  · rcases hp with _ | ⟨⟨⟩, _ | ⟨⟨⟩, ⟨⟩⟩⟩
    exact .aborts
  -- output
  · rcases hp with _ | ⟨⟨⟩, _ | ⟨⟨⟩, ⟨⟩⟩⟩
    exact Acts.step (initCmd_spec alloc false false) 1
      (le_of_eq (by simp [rep, textOrNull])) fun _ => .returns (mul_one _).le
  · rcases hp with _ | ⟨⟨⟩, _ | ⟨⟨⟩, ⟨⟩⟩⟩
    exact Acts.step (initCmd_spec alloc false true) 1
      (le_of_eq (by simp [rep, textOrNull])) fun _ => .returns (mul_one _).le
  · rcases hp with _ | ⟨⟨⟩, _ | ⟨⟨⟩, ⟨⟩⟩⟩
    exact Acts.step (initCmd_spec alloc true false) 1
      (le_of_eq (by simp [rep, textOrNull])) fun _ => .returns (mul_one _).le
  · rcases hp with _ | ⟨⟨⟩, _ | ⟨⟨⟩, ⟨⟩⟩⟩
    exact .aborts
  · rcases hp with _ | ⟨⟨⟩, _ | ⟨⟨⟩, ⟨⟩⟩⟩
    exact .aborts
  · trivial

def typed : LrState → SemValue → Prop
  | .input, .command c | .commandAddInput, .command c => IsInput c
  | .output, .command c | .commandAddOutput, .command c => IsOutput c
  | _, .pipe p => Chained p
  | _, _ => True

theorem suited_of_typed {q : LrState} {v : SemValue} {r : Production}
    (rest : List (LrState × SemValue)) (hr : LrState.reduce q = some r) (ht : typed q v) :
    Suited r ((((q, v) :: rest).take r.arity).reverse.map Prod.snd) := by
  cases q <;> simp only [LrState.reduce, Option.some.injEq, reduceCtorEq] at hr <;> subst hr
  case pipeline => cases v <;> exact ht
  case commandAddInput =>
    cases rest <;> cases v <;> first | exact ht | trivial
  case commandAddOutput =>
    cases rest <;> cases v <;> first | exact ht | trivial
  all_goals trivial

/-- What is known of a value from the nonterminal that it is the value of. -/
def MadeOf : Nonterminal → SemValue → Prop
  | .input, .command c => IsInput c
  | .output, .command c => IsOutput c
  | .command, .command _ => True
  | .pipeline, .pipe p => Chained p
  | .astPipeline, .astPipe _ => True
  | .cmdList, .cmdline _ | .cmdLine, .cmdline _ => True
  | _, _ => False

theorem typed_of_madeOf {q q' : LrState} {n : Nonterminal} {v : SemValue}
    (hq : LrState.goto q n = some q') (hv : MadeOf n v) : typed q' v := by
  cases n <;> cases v <;> simp only [MadeOf] at hv
  all_goals
    cases q <;> simp only [LrState.goto, Option.some.injEq, reduceCtorEq] at hq <;> subst hq <;>
      exact hv

theorem chained_addToPipeline {p' : PipeHelper} {redirectStderr : Bool}
    (hp : p = Cush.initPipe ∨ Chained p)
    (h : Cush.addToPipeline p c redirectStderr = .ok p') : Chained p' := by
  rcases hp with rfl | hp
  · rw [addToPipeline_nil] at h
    by_cases hw : c.words = []
    · simp [hw] at h
    · rw [if_neg hw, Except.ok.injEq] at h
      subst h
      exact ⟨by simp, by simpa using hw, by simp, by simp⟩
  · obtain ⟨hs⟩ := p
    obtain ⟨hs, l, rfl⟩ := (List.eq_nil_or_concat' hs).resolve_left hp.nonempty
    rw [addToPipeline_concat] at h
    by_cases hout : l.ioredOutput.isSome = true
    · simp [hout] at h
    by_cases hin : c.ioredInput.isSome = true
    · simp [hout, hin] at h
    by_cases hw : c.words = []
    · simp [hout, hin, hw] at h
    rw [if_neg hout, if_neg hin, if_neg hw, Except.ok.injEq] at h
    subst h
    have hout' : l.ioredOutput = none := by simpa using hout
    have hin' : c.ioredInput = none := by simpa using hin
    refine ⟨by simp, fun h hh => ?_, fun h hh => ?_, fun h hh => ?_⟩
    · simp only [List.mem_append, List.mem_singleton] at hh
      rcases hh with (hh | rfl) | rfl
      · exact hp.words h (List.mem_append_left _ hh)
      · exact hp.words l (List.mem_append_right _ (List.mem_singleton_self l))
      · exact hw
    · have hinputs := hp.inputs
      cases hs with
      | nil =>
        simp only [List.nil_append, List.singleton_append, List.tail_cons,
          List.mem_singleton] at hh
        rw [hh, hin']
      | cons h₀ hs =>
        simp only [List.cons_append, List.tail_cons, List.mem_append, List.mem_singleton]
          at hh hinputs
        rcases hh with (hh | rfl) | rfl
        · exact hinputs h (.inl hh)
        · exact hinputs l (.inr rfl)
        · exact hin'
    · have houtputs := hp.outputs
      simp only [List.dropLast_concat] at hh houtputs
      rcases List.mem_append.1 hh with hh | hh
      · exact houtputs h hh
      · rw [List.mem_singleton.1 hh]
        exact hout'

theorem madeOf_of_action {r : Production} {vs : List SemValue} {v : SemValue}
    (hvs : ∀ p, .pipe p ∈ vs → Chained p) (h : Cush.semanticAction r vs = some (.ok v)) :
    MadeOf r.lhs v := by
  have hmap : ∀ {γ : Type} {res : Except ParseStop γ} {g : γ → SemValue},
      some (res.map g) = some (.ok v) → ∃ x, res = .ok x ∧ v = g x := by
    intro γ res g he
    cases res with
    | ok x => exact ⟨x, rfl, by simpa [Except.map] using he.symm⟩
    | error e => simp [Except.map] at he
  unfold Cush.semanticAction at h
  split at h
  case h_5 | h_7 =>
    obtain ⟨x, -, rfl⟩ := hmap h
    trivial
  case h_8 =>
    obtain ⟨x, -, rfl⟩ := hmap h
    trivial
  case h_9 =>
    obtain ⟨x, hx, rfl⟩ := hmap h
    exact chained_addToPipeline (.inl rfl) hx
  case h_10 | h_11 =>
    obtain ⟨x, hx, rfl⟩ := hmap h
    exact chained_addToPipeline (.inr (hvs _ (by simp))) hx
  case h_18 | h_19 =>
    split at h <;> simp only [Option.some.injEq, Except.ok.injEq, reduceCtorEq] at h
    subst h
    trivial
  all_goals
    simp only [Option.some.injEq, Except.ok.injEq, reduceCtorEq] at h
  all_goals
    subst h
    trivial

/-! ## Parsing -/

section Parsing

variable (alloc : Allocator)

theorem tokenValue_spec (t : Token) :
    Spec 1 (tokenValue alloc t) (rep (Token.value t)) := by
  cases t with
  | word w =>
    refine Triple.step (malloc_spec alloc) 1 (mul_one _).ge fun a => .pure (le_of_eq ?_)
    rw [Block.members, nodes_nil, mul_one, mul_one]
    rfl
  | _ => exact .pure le_rfl

theorem typed_token (q : LrState) (t : Token) : typed q (Token.value t) := by
  cases t <;> cases q <;> trivial

theorem typed_pipe {q : LrState} (h : typed q (.pipe p)) : Chained p := by
  cases q <;> exact h

/-- The productions with the error token end the parse. -/
theorem error_stops {q q' : LrState} (h : LrState.shiftError q = some q') :
    LrState.consistent q' = true ∧ ∃ r, LrState.reduce q' = some r ∧
      ∀ us u, Cush.semanticAction r us ≠ some (.ok u) := by
  cases q <;> simp only [LrState.shiftError, Option.some.injEq, reduceCtorEq] at h <;> subst h
  all_goals
    refine ⟨rfl, _, rfl, fun us u => ?_⟩
    unfold Cush.semanticAction
    split <;> simp_all

theorem implements : Implements shellTables (shellActions alloc) Memory.heap rep typed out where
  bottom := le_rfl
  value := tokenValue_spec alloc
  typed_bottom := trivial
  typed_shift q q' t _ := typed_token q' t
  typed_error q q' _ := by cases q' <;> trivial
  typed_goto q v rest r w q₁ q₂ _ ht hw hg := by
    refine typed_of_madeOf hg (madeOf_of_action (fun p hp => ?_) hw)
    obtain ⟨x, hx, hxp⟩ := List.mem_map.1 hp
    have hmem := List.mem_of_mem_take (List.mem_reverse.1 hx)
    exact typed_pipe (hxp ▸ ht x hmem)
  error_stops q q' h := error_stops h
  action q v rest r ptrs hq ht := by
    have hacts := semanticAction_acts alloc r _ ptrs
      (suited_of_typed rest hq (ht _ List.mem_cons_self))
    have hres : Cush.semanticAction r ((((q, v) :: rest).take r.arity).reverse.map Prod.snd) =
        shellTables.action r
          ((((q, v) :: rest).take (shellTables.arity r)).reverse.map Prod.snd) := rfl
    rw [hres] at hacts
    revert hacts
    split
    · exact fun _ => trivial
    · next w hw =>
      rw [hw]
      exact id
    · next e he =>
      rw [he]
      exact id

theorem shift_ne {q q' : LrState} {t : Token} (h : LrState.shift q t = some q') :
    q' ≠ .start ∧ q' ≠ .cmdLine := by
  cases q <;> cases t <;> simp only [LrState.shift, LrState.shiftPipeline, LrState.shiftCommand,
    LrState.shiftRedirect, LrState.shiftIntoCommand, LrState.shiftName, Option.some.injEq,
    reduceCtorEq] at h <;> subst h <;> exact ⟨nofun, nofun⟩

theorem shiftError_ne {q q' : LrState} (h : LrState.shiftError q = some q') :
    q' ≠ .start ∧ q' ≠ .cmdLine := by
  cases q <;> simp only [LrState.shiftError, Option.some.injEq, reduceCtorEq] at h <;> subst h <;>
    exact ⟨nofun, nofun⟩

theorem goto_start {q q' : LrState} {n : Nonterminal} (h : LrState.goto q n = some q') :
    q' ≠ .start ∧ (q' = .cmdLine → q = .start) := by
  cases q <;> cases n <;> simp only [LrState.goto, Option.some.injEq, reduceCtorEq] at h <;>
    subst h <;> simp

/-- The final state is entered from the first. -/
theorem next_start {q q' : LrState} (h : Tables.Next shellTables q q') :
    q' ≠ .start ∧ (q' = .cmdLine → q = .start) := by
  rcases h with ⟨t, ht⟩ | he | ⟨n, hn⟩
  · exact ⟨(shift_ne ht).1, fun hc => absurd hc (shift_ne ht).2⟩
  · exact ⟨(shiftError_ne he).1, fun hc => absurd hc (shiftError_ne he).2⟩
  · exact goto_start hn

/-- What is below the final state on the stack. -/
theorem reached_final {q : LrState} {v : SemValue} {rest : shellTables.Stack}
    (h : Tables.Reached shellTables typed ((q, v) :: rest)) (hq : shellTables.final q = true) :
    rest = [(.start, .none)] := by
  obtain rfl : q = .cmdLine := of_decide_eq_true hq
  generalize hstk : ((LrState.cmdLine, v) :: rest : shellTables.Stack) = stk at h
  cases h with
  | initial => cases hstk
  | push h hnext hv =>
    cases hstk
    obtain rfl := (next_start hnext).2 rfl
    generalize hstk : ((LrState.start, _) :: _ : shellTables.Stack) = stk at h
    cases h with
    | initial => rfl
    | push h hnext hv =>
      cases hstk
      exact absurd rfl (next_start hnext).1

theorem parses (sc : Scanner) (fuel : Nat) :
    Parses Memory.heap rep typed out (shellTables.drive Scanner.yylex fuel shellTables.initial sc)
      1 (shellTables.driveOn (shellActions alloc) Scanner.yylex fuel [(.start, .none)] sc) := by
  have hdrive := (implements alloc).drive Scanner.yylex fuel shellTables.initial
    [(LrState.start, SemPtr.none)] sc .initial
  have hstack : stackAt rep shellTables.initial [(LrState.start, SemPtr.none)] = 1 := by
    simp [stackAt, Tables.initial, shellTables, rep]
  rwa [hstack] at hdrive

/-- An accepting parse leaves the memory of its command line. -/
theorem accepted_le {cl : AstCommandLine} {ptr : SemPtr} {stk : List (LrState × SemPtr)} :
    rep (.cmdline cl) ptr * stackAt rep [(LrState.start, SemValue.none)] stk ≤
      ⨆ a : Address, fact (ptr = .cmdline a) * commandLineAt a cl := by
  have hstack : stackAt rep [(LrState.start, SemValue.none)] stk ≤ 1 := by
    cases stk with
    | nil => exact bot_le
    | cons y stk =>
      obtain ⟨q, ptr'⟩ := y
      cases stk with
      | nil =>
        rw [stackAt, each_cons, each_nil, mul_one]
        refine fact_mul_le fun _ => ?_
        cases ptr'
        case none => exact le_rfl
        all_goals exact bot_le
      | cons y stk => simp [stackAt]
  refine (mul_le_of_le_one_right' hstack).trans ?_
  cases ptr
  case cmdline a => exact le_iSup_of_le a (le_fact_mul rfl le_rfl)
  all_goals exact bot_le

theorem parseResult_cases (sc : Scanner) (line : List Char) :
    (Cush.astParseCommandLine sc line).1 = .abort .listBack ∨
      (∃ cl, (Cush.astParseCommandLine sc line).1 = .ast cl) ∨
        ∃ msg, (Cush.astParseCommandLine sc line).1 = .null msg := by
  rw [astParseCommandLine_fst]
  rcases parseTokens_outcome (sc.tokens line) with ⟨-, habort⟩ | ⟨-, h⟩
  · exact .inl habort
  · exact .inr h

/-- What a parse does in memory that has the result `r` on text. -/
def ParseSpec (r : ParseResult × Scanner) (d : AstM (ParsePtr × Scanner)) : Prop :=
  match r with
  | (.ast cl, sc') => Spec 1 d fun x => ⨆ a : Address, fact (x = (.ast a, sc')) * commandLineAt a cl
  | (.null msg, sc') => Spec 1 d fun x => fact (x = (.null msg, sc')) * ⊤
  | (.abort _, _) => Triple Memory.heap (· = Fault.assertion) 1 d fun _ => ⊥
  | (.stuck, _) => False

theorem parseSpec_of_parses {res : Result shellTables.Stack SemValue ParseStop} {sc' : Scanner}
    {run : AstM (Tables.StoreResult LrState SemPtr ErrorMessage × Scanner)}
    (hparse : Parses Memory.heap rep typed out (res, sc') 1 run)
    (hcases : ParseResult.ofResult res = .abort .listBack ∨
      (∃ cl, ParseResult.ofResult res = .ast cl) ∨ ∃ msg, ParseResult.ofResult res = .null msg) :
    ParseSpec (.ofResult res, sc') (run >>= fun x => pure (.ofResult x.1, x.2)) := by
  cases res with
  | accept v =>
    cases v
    case cmdline cl =>
      refine Triple.bind hparse fun r => .iSup fun q => .iSup fun ptr => .iSup fun rest =>
        .iSup fun rest' => .fact fun hr => ?_
      obtain rfl := reached_final hr.2.1 hr.2.2
      refine .pure (accepted_le.trans (iSup_mono fun a => fact_mul_le fun hptr => ?_))
      refine le_fact_mul ?_ le_rfl
      rw [hr.1, hptr]
      rfl
    all_goals simp [ParseResult.ofResult] at hcases
  | stop e =>
    cases e with
    | yyabort msg =>
      have hstop : Spec 1 run fun r => fact (r = (.stop msg, sc')) * ⊤ := hparse
      refine Triple.bind hstop fun r => .fact fun hr => ?_
      subst hr
      exact .pure (le_fact_mul rfl le_rfl)
    | abort b =>
      obtain rfl : b = .listBack := by simpa [ParseResult.ofResult] using hcases
      have hfail : Triple Memory.heap (· = Fault.assertion) 1 run fun _ => ⊥ := hparse
      exact Triple.bind hfail fun r => .of_bot le_rfl
  | syntaxError =>
    have hstop : Spec 1 run fun r => fact (r = (.syntaxError, sc')) * ⊤ := hparse
    refine Triple.bind hstop fun r => .fact fun hr => ?_
    subst hr
    exact .pure (le_fact_mul rfl le_rfl)
  | more stk => simp [ParseResult.ofResult] at hcases
  | stuck => simp [ParseResult.ofResult] at hcases

theorem astParseCommandLine_spec (sc : Scanner) (line : List Char) :
    ParseSpec (Cush.astParseCommandLine sc line) (astParseCommandLine alloc sc line) := by
  have hcases := parseResult_cases sc line
  have hparse := parses alloc { sc with inputline := line }
    ((Scanner.unread { sc with inputline := line }).length + 1)
  generalize hres : shellTables.drive Scanner.yylex
    ((Scanner.unread { sc with inputline := line }).length + 1) shellTables.initial
      { sc with inputline := line } = res at hparse
  have hpure : Cush.astParseCommandLine sc line = (.ofResult res.1, res.2) := by
    rw [← hres]
    rfl
  rw [hpure] at hcases ⊢
  exact parseSpec_of_parses hparse hcases

/-- **A parse owns what it returns**: in any memory, and whatever addresses `malloc` returns,
`ast_parse_command_line` faults only where the parse of the line as text fails an assertion. If that
parse makes a command line, it returns one with that content, made of memory of its own, and that is
all that it leaves: `ast_command_line_free` then frees just that. If it fails it returns null. What
was in memory before stays. -/
theorem ast_parse_command_line_memory (sc : Scanner) (line : List Char) (s : Memory) :
    match Cush.astParseCommandLine sc line with
    | (.ast cl, sc') => ∃ a s', ∃ h : Heap Place Cell,
        astParseCommandLine alloc sc line s = .ok ((.ast a, sc'), s') ∧
          h ∈ commandLineAt a cl ∧ h.Apart s.heap ∧ s'.heap = h.join s.heap ∧
            ∃ s'', astCommandLineFree a s' = .ok ((), s'') ∧ s''.heap = s.heap
    | (.null msg, sc') => ∃ s', ∃ h : Heap Place Cell,
        astParseCommandLine alloc sc line s = .ok ((.null msg, sc'), s') ∧
          h.Apart s.heap ∧ s'.heap = h.join s.heap
    | (.abort _, _) => astParseCommandLine alloc sc line s = .error .assertion
    | (.stuck, _) => False := by
  have hspec := astParseCommandLine_spec alloc sc line
  have hempty : s.heap = Heap.empty.join s.heap := by
    rw [Heap.join_comm Heap.apart_empty.symm, Heap.join_empty]
  generalize Cush.astParseCommandLine sc line = r at hspec ⊢
  obtain ⟨r, sc'⟩ := r
  cases r with
  | ast cl =>
    obtain ⟨r, s', h, hr, hQ, ha, hs'⟩ :=
      Triple.run hspec (mem_one.2 rfl) Heap.apart_empty.symm hempty
    obtain ⟨a, hQ⟩ := mem_iSup.1 hQ
    obtain ⟨rfl, hcl⟩ := mem_fact_mul.1 hQ
    obtain ⟨_, s'', _, hfree, rfl, -, hs''⟩ := astCommandLineFree_spec.run hcl ha hs'
    exact ⟨a, s', h, hr, hcl, ha, hs', s'', hfree, hs''.trans hempty.symm⟩
  | null msg =>
    obtain ⟨r, s', h, hr, hQ, ha, hs'⟩ :=
      Triple.run hspec (mem_one.2 rfl) Heap.apart_empty.symm hempty
    obtain rfl := (mem_fact_mul.1 hQ).1
    exact ⟨s', h, hr, ha, hs'⟩
  | abort b =>
    exact Triple.fails hspec ⟨_, _, Heap.apart_empty.symm, hempty, mem_one.2 rfl, mem_top⟩
  | stuck => exact hspec

end Parsing

end Cush.AstMemory
