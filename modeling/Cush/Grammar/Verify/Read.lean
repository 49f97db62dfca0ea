import Cush.Grammar.Verify.Syntax
import Mathlib.Data.List.Induction

/-!
# Reading what is written

The machine of the parser on the tokens of a command, a pipeline and a line: which helper structures
a written command and a written pipeline turn into, what the actions make of them, and that a
well-formed pipeline is read to its end (`read_pipeline`).
-/

namespace Cush

open ShiftReduce

/-! ## The helper of a command -/

namespace CommandSyntax

/-- The helper structure of a command that was read without an error. -/
def helper (c : CommandSyntax) : CmdHelper :=
  { words := c.words
    ioredInput := c.inputFile
    ioredOutput := c.outputFile
    appendToOutput := c.redirectsWith .append
    redirectStderr := c.redirectsWith .withStderr }

theorem tokens_append (c d : CommandSyntax) : (c ++ d).tokens = c.tokens ++ d.tokens := by
  simp [tokens]

theorem words_append (c d : CommandSyntax) : (c ++ d).words = c.words ++ d.words := by
  simp [words]

theorem inputs_append (c d : CommandSyntax) : (c ++ d).inputs = c.inputs ++ d.inputs := by
  simp [inputs]

theorem outputs_append (c d : CommandSyntax) : (c ++ d).outputs = c.outputs ++ d.outputs := by
  simp [outputs]

theorem Unambiguous.left {c d : CommandSyntax} (h : Unambiguous (c ++ d)) : Unambiguous c := by
  have hi := h.inputs
  have ho := h.outputs
  rw [inputs_append, List.length_append] at hi
  rw [outputs_append, List.length_append] at ho
  exact ⟨by omega, by omega⟩

theorem helper_addWord (c : CommandSyntax) (w : Word) :
    helper (c ++ [CommandItem.word w]) = { c.helper with words := c.helper.words ++ [w] } := by
  have hw : words (c ++ [CommandItem.word w]) = c.words ++ [w] := words_append c _
  have hi : inputs (c ++ [CommandItem.word w]) = c.inputs :=
    (inputs_append c _).trans (List.append_nil _)
  have ho : outputs (c ++ [CommandItem.word w]) = c.outputs :=
    (outputs_append c _).trans (List.append_nil _)
  simp only [helper, inputFile, outputFile, redirectsWith, hw, hi, ho]

theorem helper_addInput {c : CommandSyntax} (h : c.inputs = []) (file : Word) :
    helper (c ++ [CommandItem.input file]) = { c.helper with ioredInput := some file } := by
  have hw : words (c ++ [CommandItem.input file]) = c.words :=
    (words_append c _).trans (List.append_nil _)
  have hi : inputs (c ++ [CommandItem.input file]) = [file] := by rw [inputs_append, h]; rfl
  have ho : outputs (c ++ [CommandItem.input file]) = c.outputs :=
    (outputs_append c _).trans (List.append_nil _)
  simp only [helper, inputFile, outputFile, redirectsWith, hw, hi, ho, List.head?_cons]

theorem helper_addOutput {c : CommandSyntax} (h : c.outputs = []) (op : OutputOp) (file : Word) :
    helper (c ++ [CommandItem.output op file]) =
      { c.helper with ioredOutput := some file, appendToOutput := decide (op = .append),
                      redirectStderr := decide (op = .withStderr) } := by
  have hw : words (c ++ [CommandItem.output op file]) = c.words :=
    (words_append c _).trans (List.append_nil _)
  have hi : inputs (c ++ [CommandItem.output op file]) = c.inputs :=
    (inputs_append c _).trans (List.append_nil _)
  have ho : outputs (c ++ [CommandItem.output op file]) = [(op, file)] := by
    rw [outputs_append, h]; rfl
  simp only [helper, inputFile, outputFile, redirectsWith, hw, hi, ho, List.head?_cons,
    Option.map_some, Option.any_some]

theorem inputFile_isSome {c : CommandSyntax} : c.inputFile.isSome = true ↔ c.inputs ≠ [] := by
  unfold inputFile
  cases c.inputs <;> simp

theorem outputFile_isSome {c : CommandSyntax} : c.outputFile.isSome = true ↔ c.outputs ≠ [] := by
  unfold outputFile
  cases c.outputs <;> simp

end CommandSyntax

open CommandSyntax in
/-- One more word or redirection of a command. -/
theorem read_item (b : ListConf) (f : PipeFront) {c : CommandSyntax} {i : CommandItem}
    (h : Unambiguous (c ++ [i])) :
    feedAll Conf.next (b, .command f c.helper) i.tokens =
      .more (b, .command f (helper (c ++ [i]))) := by
  cases i with
  | word w => rw [helper_addWord]; rfl
  | input file =>
    have hn : c.inputs = [] := by
      have hi := h.inputs
      rw [inputs_append, List.length_append] at hi
      exact List.length_eq_zero_iff.1 (by simp [inputs] at hi ⊢; omega)
    have hf : c.helper.ioredInput = none := by simp [helper, inputFile, hn]
    rw [helper_addInput hn]
    simp only [CommandItem.tokens, feedAll, Conf.next, Option.bind_some, Token.redirectOp,
      RedirectOp.apply, hf]
    rfl
  | output op file =>
    have hn : c.outputs = [] := by
      have ho := h.outputs
      rw [outputs_append, List.length_append] at ho
      exact List.length_eq_zero_iff.1 (by simp [outputs] at ho ⊢; omega)
    have hf : c.helper.ioredOutput = none := by simp [helper, outputFile, hn]
    rw [helper_addOutput hn]
    cases op <;>
      simp only [CommandItem.tokens, OutputOp.token, feedAll, Conf.next, Option.bind_some,
        Token.redirectOp, RedirectOp.apply, hf] <;> rfl

/-- The first word or redirection of a command. -/
theorem read_first_item (b : ListConf) (f : PipeFront) (i : CommandItem) :
    feedAll Conf.next (b, .front f) i.tokens =
      .more (b, .command f (CommandSyntax.helper [i])) := by
  cases i with
  | word w => rfl
  | input file => rfl
  | output op file => cases op <;> rfl

theorem read_items (b : ListConf) (f : PipeFront) (d : CommandSyntax) :
    ∀ c : CommandSyntax, CommandSyntax.Unambiguous (c ++ d) →
      feedAll Conf.next (b, .command f c.helper) d.tokens =
        .more (b, .command f (CommandSyntax.helper (c ++ d))) := by
  induction d with
  | nil => intro c _; simp [CommandSyntax.tokens, feedAll]
  | cons i d ih =>
    intro c h
    have hc : CommandSyntax.Unambiguous ((c ++ [i]) ++ d) := by simpa using h
    have hi := read_item b f hc.left
    rw [show CommandSyntax.tokens (i :: d) = i.tokens ++ CommandSyntax.tokens d from rfl,
      feedAll_append hi, ih _ hc]
    simp

theorem read_command (b : ListConf) (f : PipeFront) {c : CommandSyntax} (hne : c ≠ [])
    (h : c.Unambiguous) :
    feedAll Conf.next (b, .front f) c.tokens = .more (b, .command f c.helper) := by
  cases c with
  | nil => exact absurd rfl hne
  | cons i d =>
    rw [show CommandSyntax.tokens (i :: d) = i.tokens ++ CommandSyntax.tokens d from rfl,
      feedAll_append (read_first_item b f i)]
    exact read_items b f d [i] h

/-! ## The helpers of a pipeline -/

theorem addToPipeline_nil (c : CmdHelper) (amp : Bool) :
    addToPipeline initPipe c amp =
      if c.words = [] then .error (.yyabort .invnul) else .ok ⟨[c]⟩ := by
  unfold addToPipeline initPipe
  by_cases h : c.words = [] <;> simp [h, bind, Except.bind, pure, Except.pure, throw, throwThe,
    MonadExceptOf.throw]

theorem addToPipeline_concat (hs : List CmdHelper) (last c : CmdHelper) (amp : Bool) :
    addToPipeline ⟨hs ++ [last]⟩ c amp =
      if last.ioredOutput.isSome then .error (.yyabort .ambout)
      else if c.ioredInput.isSome then .error (.yyabort .ambinp)
      else if c.words = [] then .error (.yyabort .invnul)
      else .ok ⟨hs ++ [{ last with redirectStderr := amp }] ++ [c]⟩ := by
  unfold addToPipeline
  have hb : listBack (hs ++ [last]) = .ok last := by simp [listBack]
  by_cases h1 : last.ioredOutput.isSome = true <;> by_cases h2 : c.ioredInput.isSome = true <;>
    by_cases h3 : c.words = [] <;>
    simp [hb, h1, h2, h3, bind, Except.bind, pure, Except.pure, throw, throwThe,
      MonadExceptOf.throw]

namespace PipelineSyntax

/-- The helpers of all commands but the last one, whose stderr flag the bar after it has set. -/
def initHelpers : CommandSyntax → List (Bool × CommandSyntax) → List CmdHelper
  | _, [] => []
  | c, (amp, d) :: rest => { c.helper with redirectStderr := amp } :: initHelpers d rest

def helpers (p : PipelineSyntax) : List CmdHelper :=
  initHelpers p.first p.rest ++ [p.last.helper]

/-- The pipeline with one more command. -/
def add (p : PipelineSyntax) (x : Bool × CommandSyntax) : PipelineSyntax :=
  { p with rest := p.rest ++ [x] }

theorem last_add (p : PipelineSyntax) (x : Bool × CommandSyntax) : (p.add x).last = x.2 := by
  simp [last, add]

theorem tokens_add (p : PipelineSyntax) (x : Bool × CommandSyntax) :
    (p.add x).tokens = p.tokens ++ barToken x.1 :: x.2.tokens := by
  simp [tokens, add]

theorem commands_add (p : PipelineSyntax) (x : Bool × CommandSyntax) :
    (p.add x).commands = p.commands ++ [x.2] := by
  simp [commands, add]

theorem commands_eq (p : PipelineSyntax) : p.commands = p.commands.dropLast ++ [p.last] := by
  have key : ∀ (l : List CommandSyntax) (c : CommandSyntax),
      c :: l = (c :: l).dropLast ++ [l.getLastD c] := by
    intro l
    induction l with
    | nil => intro c; rfl
    | cons d l ih =>
      intro c
      have h := ih d
      rw [List.dropLast_cons_cons, List.cons_append, List.getLastD_cons, ← h]
  exact key _ _

theorem initHelpers_concat (rest : List (Bool × CommandSyntax)) (x : Bool × CommandSyntax) :
    ∀ c, initHelpers c (rest ++ [x]) = initHelpers c rest ++
      [{ ((rest.map Prod.snd).getLastD c).helper with redirectStderr := x.1 }] := by
  induction rest with
  | nil => intro c; rfl
  | cons y rest ih =>
    intro c
    obtain ⟨amp, d⟩ := y
    simp only [List.cons_append, initHelpers, ih d, List.map_cons, List.getLastD_cons]

theorem helpers_add (p : PipelineSyntax) (x : Bool × CommandSyntax) :
    (p.add x).helpers = initHelpers p.first p.rest ++
      [{ p.last.helper with redirectStderr := x.1 }] ++ [x.2.helper] := by
  unfold helpers
  rw [last_add]
  show initHelpers p.first (p.rest ++ [x]) ++ _ = _
  rw [initHelpers_concat]
  rfl

theorem wellFormed_first {c : CommandSyntax} :
    WellFormed ⟨c, []⟩ ↔ c.words ≠ [] ∧ c.Unambiguous := by
  constructor
  · intro h
    exact ⟨h.words c List.mem_cons_self, h.unambiguous c List.mem_cons_self⟩
  · rintro ⟨hw, hu⟩
    exact ⟨by simpa [commands] using hw, by simpa [commands] using hu, by simp, by simp [commands]⟩

/-- What one more command needs. -/
theorem wellFormed_add {p : PipelineSyntax} {x : Bool × CommandSyntax} :
    (p.add x).WellFormed ↔ p.WellFormed ∧ p.last.outputs = [] ∧ x.2.inputs = [] ∧ x.2.words ≠ [] ∧
      x.2.Unambiguous := by
  have hdrop : (p.add x).commands.dropLast = p.commands := by
    rw [commands_add, List.dropLast_concat]
  constructor
  · intro h
    have hmem : ∀ c ∈ p.commands, c ∈ (p.add x).commands := fun c hc => by
      rw [commands_add]; exact List.mem_append_left _ hc
    have hx : x.2 ∈ (p.add x).commands := by rw [commands_add]; simp
    have hout : ∀ c ∈ p.commands, c.outputs = [] := fun c hc => h.output_last c (by rwa [hdrop])
    refine ⟨⟨fun c hc => h.words c (hmem c hc), fun c hc => h.unambiguous c (hmem c hc),
      fun c hc => h.input_first c ?_, fun c hc => hout c (List.dropLast_subset _ hc)⟩,
      ?_, ?_, ?_, ?_⟩
    · simp only [add, List.map_append, List.mem_append]; exact Or.inl hc
    · exact hout _ (by rw [commands_eq]; simp)
    · exact h.input_first _ (by simp [add])
    · exact h.words _ hx
    · exact h.unambiguous _ hx
  · rintro ⟨h, hout, hin, hw, hu⟩
    refine ⟨?_, ?_, ?_, ?_⟩
    · rw [commands_add]
      intro c hc
      rcases List.mem_append.1 hc with hc | hc
      · exact h.words c hc
      · rw [List.mem_singleton.1 hc]; exact hw
    · rw [commands_add]
      intro c hc
      rcases List.mem_append.1 hc with hc | hc
      · exact h.unambiguous c hc
      · rw [List.mem_singleton.1 hc]; exact hu
    · intro c hc
      simp only [add, List.map_append, List.mem_append, List.map_cons, List.map_nil,
        List.mem_singleton] at hc
      rcases hc with hc | rfl
      · exact h.input_first c hc
      · exact hin
    · rw [hdrop, commands_eq]
      intro c hc
      rcases List.mem_append.1 hc with hc | hc
      · exact h.output_last c hc
      · rw [List.mem_singleton.1 hc]; exact hout

/-- What `add_to_pipeline` makes of one more command. -/
theorem addToPipeline_helpers (p : PipelineSyntax) (x : Bool × CommandSyntax) :
    addToPipeline ⟨p.helpers⟩ x.2.helper x.1 =
      if p.last.outputs ≠ [] then .error (.yyabort .ambout)
      else if x.2.inputs ≠ [] then .error (.yyabort .ambinp)
      else if x.2.words = [] then .error (.yyabort .invnul)
      else .ok ⟨(p.add x).helpers⟩ := by
  rw [helpers, addToPipeline_concat, helpers_add]
  have hout : p.last.helper.ioredOutput.isSome = true ↔ p.last.outputs ≠ [] :=
    CommandSyntax.outputFile_isSome
  have hin : x.2.helper.ioredInput.isSome = true ↔ x.2.inputs ≠ [] :=
    CommandSyntax.inputFile_isSome
  have hw : x.2.helper.words = x.2.words := rfl
  by_cases h1 : p.last.outputs = [] <;> by_cases h2 : x.2.inputs = [] <;>
    by_cases h3 : x.2.words = [] <;> simp [hout, hin, hw, h1, h2, h3]

end PipelineSyntax

/-! ## The tree of a pipeline -/

theorem addCommands_eq (hs : List CmdHelper) (hw : ∀ h ∈ hs, h.words ≠ []) :
    ∀ pipe : AstPipeline, addCommands pipe hs =
      .ok { pipe with
        commands := pipe.commands ++ hs.map fun h => ⟨h.words, h.redirectStderr⟩ } := by
  induction hs with
  | nil => intro pipe; simp [addCommands]
  | cons h hs ih =>
    intro pipe
    have hne := hw h List.mem_cons_self
    have hmk : makeAstCommand h = some ⟨h.words, h.redirectStderr⟩ := by
      simp [makeAstCommand, hne, astCommandCreate]
    simp only [addCommands, hmk, ih (fun x hx => hw x (List.mem_cons_of_mem _ hx)),
      astPipelineAddCommand, List.map_cons, List.append_assoc, List.cons_append, List.nil_append]

namespace PipelineSyntax

theorem helpers_cons (c d : CommandSyntax) (amp : Bool) (rest : List (Bool × CommandSyntax)) :
    helpers ⟨c, (amp, d) :: rest⟩ =
      { c.helper with redirectStderr := amp } :: helpers ⟨d, rest⟩ := by
  simp only [helpers, initHelpers, last, List.map_cons, List.getLastD_cons, List.cons_append]

theorem helpers_map (p : PipelineSyntax) :
    p.helpers.map (fun h => (⟨h.words, h.redirectStderr⟩ : AstCommand)) =
      astCommands p.first p.rest := by
  obtain ⟨c, rest⟩ := p
  induction rest generalizing c with
  | nil => rfl
  | cons x rest ih =>
    obtain ⟨amp, d⟩ := x
    rw [helpers_cons, List.map_cons, ih d]
    rfl

theorem helpers_head (p : PipelineSyntax) :
    ∃ h, p.helpers.head? = some h ∧ h.ioredInput = p.first.inputFile := by
  obtain ⟨c, rest⟩ := p
  cases rest with
  | nil => exact ⟨c.helper, rfl, rfl⟩
  | cons x rest => exact ⟨_, rfl, rfl⟩

theorem helpers_words {p : PipelineSyntax} (hw : ∀ c ∈ p.commands, c.words ≠ []) :
    ∀ h ∈ p.helpers, h.words ≠ [] := by
  obtain ⟨c, rest⟩ := p
  induction rest generalizing c with
  | nil =>
    intro h hh
    rw [List.mem_singleton.1 (show h ∈ [c.helper] from hh)]
    exact hw c List.mem_cons_self
  | cons x rest ih =>
    obtain ⟨amp, d⟩ := x
    intro h hh
    rw [helpers_cons] at hh
    rcases List.mem_cons.1 hh with rfl | hh'
    · exact hw c List.mem_cons_self
    · exact ih d (fun e he => hw e (List.mem_cons_of_mem _ he)) h hh'

/-- The action of `ast_pipeline` on a well-formed pipeline. -/
theorem makeAstPipeline_helpers {p : PipelineSyntax} (hp : p.WellFormed) :
    makeAstPipeline ⟨p.helpers⟩ = .ok p.ast := by
  obtain ⟨h, hhead, hin⟩ := p.helpers_head
  have hne : p.helpers ≠ [] := by simp [helpers]
  have hf : listFront p.helpers = .ok h := by simp [listFront, hhead]
  have hb : listBack p.helpers = .ok p.last.helper := by simp [listBack, helpers]
  unfold makeAstPipeline
  simp only [hne, if_false, hf, hb, bind, Except.bind]
  rw [addCommands_eq _ (helpers_words hp.words), helpers_map]
  simp [astPipelineCreate, ast, hin, CommandSyntax.helper]

end PipelineSyntax

/-! ## Reading a pipeline -/

theorem barToken_next (b : ListConf) {f : PipeFront} {c : CmdHelper} {p : PipeHelper}
    (h : f.close c = .ok p) (amp : Bool) :
    Conf.next (b, .command f c) (some (PipelineSyntax.barToken amp)) =
      .more (b, .front (if amp then .barAmp p else .bar p)) := by
  cases amp <;>
    simp [PipelineSyntax.barToken, Conf.next, Token.redirectOp, commandNext, h, pipelineNext]

theorem close_bar (p : PipeHelper) (c : CmdHelper) (amp : Bool) :
    (if amp then PipeFront.barAmp p else PipeFront.bar p).close c = addToPipeline p c amp := by
  cases amp <;> rfl

/-- **A well-formed pipeline is read**: at its end the parser holds the last command, and adding it
completes the helpers of the pipeline. -/
theorem read_pipeline (b : ListConf) {p : PipelineSyntax} (hp : p.WellFormed) :
    ∃ f, feedAll Conf.next (b, .front .first) p.tokens = .more (b, .command f p.last.helper) ∧
      f.close p.last.helper = .ok ⟨p.helpers⟩ := by
  have words_ne : ∀ {c : CommandSyntax}, c.words ≠ [] → c ≠ [] := by
    rintro c h rfl; exact h rfl
  obtain ⟨c, rest⟩ := p
  induction rest using List.reverseRecOn with
  | nil =>
    obtain ⟨hw, hu⟩ := PipelineSyntax.wellFormed_first.1 hp
    refine ⟨.first, ?_, ?_⟩
    · simpa [PipelineSyntax.tokens, PipelineSyntax.last] using
        read_command b .first (words_ne hw) hu
    · rw [PipeFront.close, addToPipeline_nil]
      exact if_neg hw
  | append_singleton rest x ih =>
    have hadd : (⟨c, rest ++ [x]⟩ : PipelineSyntax) = PipelineSyntax.add ⟨c, rest⟩ x := rfl
    rw [hadd] at hp ⊢
    obtain ⟨hp0, hout, hin, hw, hu⟩ := PipelineSyntax.wellFormed_add.1 hp
    obtain ⟨f, hread, hclose⟩ := ih hp0
    refine ⟨if x.1 then .barAmp ⟨PipelineSyntax.helpers ⟨c, rest⟩⟩
      else .bar ⟨PipelineSyntax.helpers ⟨c, rest⟩⟩, ?_, ?_⟩
    · rw [PipelineSyntax.tokens_add, feedAll_append hread, PipelineSyntax.last_add]
      simp only [feedAll, barToken_next b hclose]
      exact read_command b _ (words_ne hw) hu
    · rw [PipelineSyntax.last_add, close_bar, PipelineSyntax.addToPipeline_helpers]
      simp [hout, hin, hw]

end Cush
