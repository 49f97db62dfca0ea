import Cush.Grammar.Parse

/-!
# The parser between two tokens

When the parser asks for a token its stack has one of a few shapes: a list of pipelines read so far
and the separator after it, and inside the pipeline being read a bar, a command and a redirection
operator, each of them optional. `Conf` names these shapes, `Conf.next` reads one token on them, and
`simulates` shows that this is what the parser tables do.
-/

namespace Cush

open ShiftReduce

/-- The redirection operators. -/
inductive RedirectOp where
  | less
  | greater
  | greaterGreater
  | greaterAmp
  deriving Repr, DecidableEq

/-- The part of the stack below the pipeline being read. -/
inductive ListConf where
  | start
  | sep (cl : AstCommandLine) (amp : Bool)

/-- The part of a pipeline before the command being read. -/
inductive PipeFront where
  | first
  | bar (p : PipeHelper)
  | barAmp (p : PipeHelper)

/-- The pipeline being read. -/
inductive PipeConf where
  | front (f : PipeFront)
  | leadingBar
  | command (f : PipeFront) (c : CmdHelper)
  | redirect (f : PipeFront) (c : Option CmdHelper) (op : RedirectOp)

abbrev Conf := ListConf × PipeConf

/-! ## Stacks -/

abbrev LrStack := List (LrState × SemValue)

def RedirectOp.state : RedirectOp → LrState
  | .less => .less
  | .greater => .greater
  | .greaterGreater => .greaterGreater
  | .greaterAmp => .greaterAmp

def ListConf.stack : ListConf → LrStack
  | .start => [(.start, .none)]
  | .sep cl amp =>
    [(if amp then .listAmp else .listSemi, .none), (.cmdList, .cmdline cl), (.start, .none)]

def PipeFront.stack (b : ListConf) : PipeFront → LrStack
  | .first => b.stack
  | .bar p => (.bar, .none) :: (.pipeline, .pipe p) :: b.stack
  | .barAmp p => (.barAmp, .none) :: (.pipeline, .pipe p) :: b.stack

def PipeFront.commandState : PipeFront → LrState
  | .first => .command
  | .bar _ => .commandBar
  | .barAmp _ => .commandBarAmp

def Conf.stack : Conf → LrStack
  | (b, .front f) => f.stack b
  | (b, .leadingBar) => (.leadingBar, .none) :: b.stack
  | (b, .command f c) => (f.commandState, .command c) :: f.stack b
  | (b, .redirect f none op) => (op.state, .none) :: f.stack b
  | (b, .redirect f (some c) op) => (op.state, .none) :: (f.commandState, .command c) :: f.stack b

/-! ## One token -/

/-- The redirection operator a token is. -/
def Token.redirectOp : Token → Option RedirectOp
  | .less => some .less
  | .greater => some .greater
  | .greaterGreater => some .greaterGreater
  | .greaterAmpersand => some .greaterAmp
  | _ => none

/-- The value of `input` or `output` for an operator and its file name. -/
def RedirectOp.helper (op : RedirectOp) (w : Word) : CmdHelper :=
  match op with
  | .less => initCmd none (some w) none false false
  | .greater => initCmd none none (some w) false false
  | .greaterGreater => initCmd none none (some w) true false
  | .greaterAmp => initCmd none none (some w) false true

/-- Add a redirection to the command read so far, if there is one. -/
def RedirectOp.apply (op : RedirectOp) (c : Option CmdHelper) (w : Word) :
    Except ParseStop CmdHelper :=
  match c with
  | none => .ok (op.helper w)
  | some c =>
    if op = .less then
      if c.ioredInput.isSome then .error (.yyabort .ambinp)
      else .ok { c with ioredInput := (op.helper w).ioredInput }
    else
      if c.ioredOutput.isSome then .error (.yyabort .ambout)
      else .ok { c with ioredOutput := (op.helper w).ioredOutput,
                        appendToOutput := (op.helper w).appendToOutput,
                        redirectStderr := (op.helper w).redirectStderr }

/-- Add the finished command to its pipeline. -/
def PipeFront.close (f : PipeFront) (c : CmdHelper) : Except ParseStop PipeHelper :=
  match f with
  | .first => addToPipeline initPipe c false
  | .bar p => addToPipeline p c false
  | .barAmp p => addToPipeline p c true

/-- A syntax error inside a command finds an error production only after a plain bar. -/
def PipeFront.recover (f : PipeFront) : Result Conf SemValue ParseStop :=
  match f with
  | .bar _ => .stop (.yyabort .invnul)
  | _ => .syntaxError

/-- The list once the pipeline after the separator is complete. -/
def ListConf.close (b : ListConf) (p : AstPipeline) : Except ParseStop AstCommandLine :=
  match b with
  | .start => .ok (astCommandLineCreate p)
  | .sep cl false => .ok (pushPipeline cl p)
  | .sep cl true => (markBackground cl).map (pushPipeline · p)

/-- The list where no pipeline follows the separator. -/
def ListConf.closeEmpty (b : ListConf) : Except ParseStop AstCommandLine :=
  match b with
  | .start => .ok astCommandLineCreateEmpty
  | .sep cl false => .ok cl
  | .sep cl true => markBackground cl

/-- The token after a list of pipelines. -/
def listNext (r : Except ParseStop AstCommandLine) (tok : Option Token) :
    Result Conf SemValue ParseStop :=
  match r with
  | .error e => .stop e
  | .ok cl =>
    match tok with
    | none => .accept (.cmdline cl)
    | some .semicolon => .more (.sep cl false, .front .first)
    | some .ampersand => .more (.sep cl true, .front .first)
    | some _ => .syntaxError

/-- The token after a pipeline. -/
def pipelineNext (b : ListConf) (p : PipeHelper) (tok : Option Token) :
    Result Conf SemValue ParseStop :=
  match tok with
  | some .pipe => .more (b, .front (.bar p))
  | some .pipeAmpersand => .more (b, .front (.barAmp p))
  | tok =>
    match makeAstPipeline p with
    | .error e => .stop e
    | .ok ap => listNext (b.close ap) tok

/-- The token after a command, where it neither extends the command nor redirects it. -/
def commandNext (b : ListConf) (f : PipeFront) (c : CmdHelper) (tok : Option Token) :
    Result Conf SemValue ParseStop :=
  match f.close c with
  | .error e => .stop e
  | .ok p => pipelineNext b p tok

/-- The token where a command is expected, where it does not start one. -/
def frontNext (b : ListConf) (f : PipeFront) (tok : Option Token) :
    Result Conf SemValue ParseStop :=
  match f, tok with
  | .first, some .pipe => .more (b, .leadingBar)
  | .first, tok => listNext b.closeEmpty tok
  | f, _ => f.recover

def Conf.next : Conf → Option Token → Result Conf SemValue ParseStop
  | (b, .front f), tok =>
    match tok, tok.bind Token.redirectOp with
    | some (.word w), _ => .more (b, .command f (initCmd (some w) none none false false))
    | _, some op => .more (b, .redirect f none op)
    | tok, none => frontNext b f tok
  | (_, .leadingBar), _ => .stop (.yyabort .invnul)
  | (b, .command f c), tok =>
    match tok, tok.bind Token.redirectOp with
    | some (.word w), _ => .more (b, .command f { c with words := c.words ++ [w] })
    | _, some op => .more (b, .redirect f (some c) op)
    | tok, none => commandNext b f c tok
  | (b, .redirect f c op), tok =>
    match tok with
    | some (.word w) =>
      match op.apply c w with
      | .error e => .stop e
      | .ok c' => .more (b, .command f c')
    | _ => if op = .greaterAmp then f.recover else .stop (.yyabort .misred)

/-! ## The tables follow the machine -/

/-- The state a completed pipeline leads to. -/
def ListConf.pipelineState : ListConf → LrState
  | .start => .astPipeline
  | .sep _ false => .listSemiPipeline
  | .sep _ true => .listAmpPipeline

theorem feed_cmdList (n : Nat) (cl : AstCommandLine) (tok : Option Token) :
    shellTables.feedFuel (n + 2) [(.cmdList, .cmdline cl), (.start, .none)] tok =
      (listNext (.ok cl) tok).map Conf.stack := by
  rcases tok with _ | t
  · rfl
  · cases t <;> rfl

/-- The reductions from a completed pipeline to the list of pipelines. -/
theorem feed_listPipeline (n : Nat) (b : ListConf) (ap : AstPipeline) (tok : Option Token) :
    shellTables.feedFuel (n + 3) ((b.pipelineState, .astPipe ap) :: b.stack) tok =
      (listNext (b.close ap) tok).map Conf.stack := by
  have hs : tok.bind (shellTables.shift b.pipelineState) = none := by
    rcases tok with _ | t
    · rfl
    · rcases b with _ | ⟨cl, _ | _⟩ <;> cases t <;> rfl
  have hf : (tok.isNone && shellTables.final b.pipelineState) = false := by
    rcases b with _ | ⟨cl, _ | _⟩ <;> simp [shellTables, ListConf.pipelineState]
  rcases b with _ | ⟨cl, _ | _⟩
  · rw [Tables.feedFuel_reduce (r := .cmdListPipeline) hs hf rfl]
    exact feed_cmdList n _ tok
  · rw [Tables.feedFuel_reduce (r := .cmdListSemiPipeline) hs hf rfl]
    exact feed_cmdList n _ tok
  · rw [Tables.feedFuel_reduce (r := .cmdListAmpPipeline) hs hf rfl]
    simp only [Tables.reduceBy, shellTables, ListConf.close, ListConf.stack, Production.arity,
      List.take, List.reverse_cons, List.map, semanticAction, List.reverse_nil, List.nil_append,
      List.cons_append]
    cases markBackground cl with
    | error e => rfl
    | ok cl' => exact feed_cmdList n _ tok

/-- The reductions from a completed command to its pipeline, and on where the pipeline ends. -/
theorem feed_pipeline (n : Nat) (b : ListConf) (p : PipeHelper) (tok : Option Token) :
    shellTables.feedFuel (n + 4) ((.pipeline, .pipe p) :: b.stack) tok =
      (pipelineNext b p tok).map Conf.stack := by
  have last : ∀ tok : Option Token, tok.bind (shellTables.shift .pipeline) = none →
      shellTables.feedFuel (n + 4) ((.pipeline, .pipe p) :: b.stack) tok =
        (match makeAstPipeline p with
          | .error e => .stop e
          | .ok ap => listNext (b.close ap) tok : Result Conf SemValue ParseStop).map
            Conf.stack := by
    intro tok hs
    rw [Tables.feedFuel_reduce (r := .astPipeline) hs (by simp [shellTables]) rfl]
    have hred : shellTables.reduceBy .astPipeline ((.pipeline, .pipe p) :: b.stack) =
        match makeAstPipeline p with
        | .error e => .stop e
        | .ok ap => .more ((b.pipelineState, .astPipe ap) :: b.stack) := by
      simp only [Tables.reduceBy, shellTables, Production.arity, List.take, List.reverse_cons,
        List.map, semanticAction, List.reverse_nil, List.nil_append, List.drop]
      cases makeAstPipeline p with
      | error e => rfl
      | ok ap => rcases b with _ | ⟨cl, _ | _⟩ <;> rfl
    rw [hred]
    cases makeAstPipeline p with
    | error e => rfl
    | ok ap => exact feed_listPipeline n b ap tok
  rcases tok with _ | t
  · exact last none rfl
  · cases t
    case pipe => rcases b with _ | ⟨cl, _ | _⟩ <;> rfl
    case pipeAmpersand => rcases b with _ | ⟨cl, _ | _⟩ <;> rfl
    all_goals exact last _ rfl

/-- A command ends at every token that does not extend it. -/
theorem feed_command (n : Nat) (b : ListConf) (f : PipeFront) (c : CmdHelper) (tok : Option Token)
    (hs : tok.bind LrState.shiftIntoCommand = none) :
    shellTables.feedFuel (n + 5) ((f.commandState, .command c) :: f.stack b) tok =
      (commandNext b f c tok).map Conf.stack := by
  have hs' : tok.bind (shellTables.shift f.commandState) = none := by
    cases f <;> exact hs
  have hf : (tok.isNone && shellTables.final f.commandState) = false := by
    cases f <;> simp [shellTables, PipeFront.commandState]
  have hred : ∃ r, shellTables.reduce f.commandState = some r ∧
      shellTables.reduceBy r ((f.commandState, .command c) :: f.stack b) =
        match f.close c with
        | .error e => .stop e
        | .ok p => .more ((.pipeline, .pipe p) :: b.stack) := by
    cases f with
    | first =>
      refine ⟨.pipelineCommand, rfl, ?_⟩
      simp only [Tables.reduceBy, shellTables, Production.arity, List.take, List.reverse_cons,
        List.map, semanticAction, List.reverse_nil, List.nil_append, List.drop, PipeFront.close,
        PipeFront.stack]
      cases addToPipeline initPipe c false with
      | error e => rfl
      | ok p => rcases b with _ | ⟨cl, _ | _⟩ <;> rfl
    | bar p =>
      refine ⟨.pipelineBar, rfl, ?_⟩
      simp only [Tables.reduceBy, shellTables, Production.arity, List.take, List.reverse_cons,
        List.map, semanticAction, List.reverse_nil, List.nil_append, List.drop, PipeFront.close,
        PipeFront.stack, List.cons_append]
      cases addToPipeline p c false with
      | error e => rfl
      | ok p => rcases b with _ | ⟨cl, _ | _⟩ <;> rfl
    | barAmp p =>
      refine ⟨.pipelineBarAmp, rfl, ?_⟩
      simp only [Tables.reduceBy, shellTables, Production.arity, List.take, List.reverse_cons,
        List.map, semanticAction, List.reverse_nil, List.nil_append, List.drop, PipeFront.close,
        PipeFront.stack, List.cons_append]
      cases addToPipeline p c true with
      | error e => rfl
      | ok p => rcases b with _ | ⟨cl, _ | _⟩ <;> rfl
  obtain ⟨r, hr, hred⟩ := hred
  rw [Tables.feedFuel_reduce hs' hf hr, hred]
  unfold commandNext
  cases f.close c with
  | error e => rfl
  | ok p => exact feed_pipeline n b p tok

/-- Where no pipeline starts, the list read so far is complete. -/
theorem feed_empty (n : Nat) (b : ListConf) (tok : Option Token)
    (hs : tok.bind LrState.shiftPipeline = none) :
    shellTables.feedFuel (n + 3) b.stack tok = (listNext b.closeEmpty tok).map Conf.stack := by
  rcases b with _ | ⟨cl, _ | _⟩
  · rw [ListConf.stack, Tables.feedFuel_reduce (r := .cmdListEmpty) hs (by simp [shellTables]) rfl]
    exact feed_cmdList n _ tok
  · rw [ListConf.stack, if_neg Bool.false_ne_true,
      Tables.feedFuel_reduce (r := .cmdListSemi) hs (by simp [shellTables]) rfl]
    exact feed_cmdList n _ tok
  · rw [ListConf.stack, if_pos rfl,
      Tables.feedFuel_reduce (r := .cmdListAmp) hs (by simp [shellTables]) rfl]
    simp only [Tables.reduceBy, shellTables, ListConf.closeEmpty, Production.arity,
      List.take, List.reverse_cons, List.map, semanticAction, List.reverse_nil, List.nil_append,
      List.cons_append]
    cases markBackground cl with
    | error e => rfl
    | ok cl' => exact feed_cmdList n _ tok

/-- **The tables follow the machine**: on the stack of a configuration, a token has the effect of
`Conf.next`. -/
theorem simulates : Simulates shellTables Conf.stack Conf.next := by
  rintro ⟨b, k⟩ tok
  cases k with
  | front f =>
    rcases tok with _ | t
    · cases f with
      | first => exact feed_empty 5 b none rfl
      | bar p => rcases b with _ | ⟨cl, _ | _⟩ <;> rfl
      | barAmp p => rcases b with _ | ⟨cl, _ | _⟩ <;> rfl
    · cases f with
      | first =>
        cases t
        case semicolon | ampersand | newline | pipeAmpersand => exact feed_empty 5 b _ rfl
        all_goals rcases b with _ | ⟨cl, _ | _⟩ <;> rfl
      | bar p => cases t <;> rcases b with _ | ⟨cl, _ | _⟩ <;> rfl
      | barAmp p => cases t <;> rcases b with _ | ⟨cl, _ | _⟩ <;> rfl
  | leadingBar =>
    rcases tok with _ | t
    · rcases b with _ | ⟨cl, _ | _⟩ <;> rfl
    · cases t <;> rcases b with _ | ⟨cl, _ | _⟩ <;> rfl
  | command f c =>
    rcases tok with _ | t
    · exact feed_command 3 b f c none rfl
    · cases t
      case word | less | greater | greaterGreater | greaterAmpersand =>
        cases f <;> rcases b with _ | ⟨cl, _ | _⟩ <;> rfl
      all_goals exact feed_command 3 b f c _ rfl
  | redirect f c op =>
    rcases tok with _ | t
    · cases c <;> cases op <;> cases f <;> rcases b with _ | ⟨cl, _ | _⟩ <;> rfl
    · cases t
      case word w =>
        rcases c with _ | ⟨ws, i, o, a, r⟩
        · cases op <;> cases f <;> rcases b with _ | ⟨cl, _ | _⟩ <;> rfl
        · cases op <;> cases i <;> cases o <;> cases f <;> rcases b with _ | ⟨cl, _ | _⟩ <;> rfl
      all_goals cases c <;> cases op <;> cases f <;> rcases b with _ | ⟨cl, _ | _⟩ <;> rfl

theorem ParseResult.ofResult_map {κ κ' : Type} (g : κ → κ') (r : Result κ SemValue ParseStop) :
    ParseResult.ofResult (r.map g) = ParseResult.ofResult r := by
  cases r with
  | accept v => cases v <;> rfl
  | stop e => cases e <;> rfl
  | _ => rfl

/-- `yyparse` on a token sequence, on configurations. -/
theorem parseTokens_eq (ts : List Token) :
    parseTokens ts = .ofResult (runMachine Conf.next (.start, .front .first) ts) := by
  have h : shellTables.run shellTables.initial ts = _ := simulates.run ts (.start, .front .first)
  unfold parseTokens
  rw [h, ParseResult.ofResult_map]

end Cush
