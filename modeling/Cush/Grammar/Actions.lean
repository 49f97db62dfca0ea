import Cush.Grammar.Scanner

/-!
# The grammar and its semantic actions (`shell-grammar.y`)

The helper structures of the grammar's prologue and the action of each production. An action that
prints an error and takes `YYABORT` stops the parse with that error; one that calls `list_front` or
`list_back` on an empty list fails the assertion there, and `ast_pipeline_add_command` may be handed
the null pointer `make_ast_command` returns for an empty argument vector. Both end the shell.
-/

namespace Cush

/-- The error messages, csh-style. -/
inductive ErrorMessage where
  | misred
  | invnul
  | ambinp
  | ambout
  deriving Repr, DecidableEq

def ErrorMessage.text : ErrorMessage → String
  | .misred => "Missing name for redirect."
  | .invnul => "Invalid null command."
  | .ambinp => "Ambiguous input redirect."
  | .ambout => "Ambiguous output redirect."

/-- What ends the shell inside an action. -/
inductive Abort where
  | listFront
  | listBack
  | emptyPipeline
  | nullCommand
  deriving Repr, DecidableEq

/-- The ways an action leaves `yyparse`: `p_error(msg); YYABORT`, or the end of the process. -/
inductive ParseStop where
  | yyabort (msg : ErrorMessage)
  | abort (a : Abort)
  deriving Repr, DecidableEq

def listFront {α : Type} (l : List α) : Except ParseStop α :=
  match l.head? with
  | some a => .ok a
  | none => .error (.abort .listFront)

def listBack {α : Type} (l : List α) : Except ParseStop α :=
  match l.getLast? with
  | some a => .ok a
  | none => .error (.abort .listBack)

/-- `struct cmd_helper` -/
structure CmdHelper where
  words : List Word
  ioredInput : Option Word
  ioredOutput : Option Word
  appendToOutput : Bool
  redirectStderr : Bool
  deriving Repr, DecidableEq

/-- `struct pipe_helper` -/
structure PipeHelper where
  commands : List CmdHelper
  deriving Repr, DecidableEq

def initPipe : PipeHelper :=
  ⟨[]⟩

/-- `init_cmd`: the first word, if there is one, starts the argument vector. -/
def initCmd (firstcmd ioredInput ioredOutput : Option Word) (appendToOutput includeStderr : Bool) :
    CmdHelper :=
  { words := firstcmd.toList, ioredInput, ioredOutput, appendToOutput,
    redirectStderr := includeStderr }

/-- `make_ast_command`, null for an empty argument vector. -/
def makeAstCommand (cmd : CmdHelper) : Option AstCommand :=
  if cmd.words = [] then none else some (astCommandCreate cmd.words cmd.redirectStderr)

/-- `add_to_pipeline`; where it returns false, the caller takes `YYABORT`. -/
def addToPipeline (pipe : PipeHelper) (cmd : CmdHelper) (redirectStderr : Bool) :
    Except ParseStop PipeHelper := do
  let commands ←
    if pipe.commands = [] then pure pipe.commands
    else do
      let last ← listBack pipe.commands
      if last.ioredOutput.isSome then throw (.yyabort .ambout)
      if cmd.ioredInput.isSome then throw (.yyabort .ambinp)
      pure (pipe.commands.dropLast ++ [{ last with redirectStderr := redirectStderr }])
  if cmd.words = [] then throw (.yyabort .invnul)
  pure ⟨commands ++ [cmd]⟩

/-- The loop of the `ast_pipeline` action. -/
def addCommands (pipe : AstPipeline) : List CmdHelper → Except ParseStop AstPipeline
  | [] => .ok pipe
  | cmd :: rest =>
    match makeAstCommand cmd with
    | none => .error (.abort .nullCommand)
    | some c => addCommands (astPipelineAddCommand pipe c) rest

/-- The action of `ast_pipeline: pipeline`. -/
def makeAstPipeline (pipe : PipeHelper) : Except ParseStop AstPipeline := do
  if pipe.commands = [] then throw (.abort .emptyPipeline)
  let first ← listFront pipe.commands
  let last ← listBack pipe.commands
  addCommands (astPipelineCreate first.ioredInput last.ioredOutput last.appendToOutput)
    pipe.commands

/-- `last->bg_job = true` for the last pipeline of the list. -/
def markBackground (cl : AstCommandLine) : Except ParseStop AstCommandLine := do
  let last ← listBack cl.pipes
  pure ⟨cl.pipes.dropLast ++ [{ last with bgJob := true }]⟩

def pushPipeline (cl : AstCommandLine) (p : AstPipeline) : AstCommandLine :=
  ⟨cl.pipes ++ [p]⟩

/-- The nonterminals. -/
inductive Nonterminal where
  | cmdLine
  | cmdList
  | astPipeline
  | pipeline
  | command
  | input
  | output
  deriving Repr, DecidableEq

/-- The productions, in the order of the source. -/
inductive Production where
  | cmdLine
  | cmdListEmpty
  | cmdListPipeline
  | cmdListSemi
  | cmdListAmp
  | cmdListSemiPipeline
  | cmdListAmpPipeline
  | astPipeline
  | pipelineCommand
  | pipelineBar
  | pipelineBarAmp
  | leadingBarError
  | pipelineBarError
  | commandWord
  | commandInput
  | commandOutput
  | commandAddWord
  | commandAddInput
  | commandAddOutput
  | inputWord
  | inputError
  | outputGreater
  | outputGreaterAmp
  | outputGreaterGreater
  | outputGreaterError
  | outputGreaterGreaterError
  deriving Repr, DecidableEq

/-- The semantic values (`%union`); `none` stands where a symbol has no value. -/
inductive SemValue where
  | none
  | word (w : Word)
  | command (c : CmdHelper)
  | pipe (p : PipeHelper)
  | astPipe (p : AstPipeline)
  | cmdline (l : AstCommandLine)
  deriving Repr, DecidableEq

/-- The action of a production on the values of its right-hand side. -/
def semanticAction : Production → List SemValue → Option (Except ParseStop SemValue)
  | .cmdLine, [.cmdline cl] => some (.ok (.cmdline cl))
  | .cmdListEmpty, [] => some (.ok (.cmdline astCommandLineCreateEmpty))
  | .cmdListPipeline, [.astPipe p] => some (.ok (.cmdline (astCommandLineCreate p)))
  | .cmdListSemi, [.cmdline cl, .none] => some (.ok (.cmdline cl))
  | .cmdListAmp, [.cmdline cl, .none] => some ((markBackground cl).map .cmdline)
  | .cmdListSemiPipeline, [.cmdline cl, .none, .astPipe p] =>
    some (.ok (.cmdline (pushPipeline cl p)))
  | .cmdListAmpPipeline, [.cmdline cl, .none, .astPipe p] =>
    some ((markBackground cl).map fun cl => .cmdline (pushPipeline cl p))
  | .astPipeline, [.pipe p] => some ((makeAstPipeline p).map .astPipe)
  | .pipelineCommand, [.command c] => some ((addToPipeline initPipe c false).map .pipe)
  | .pipelineBar, [.pipe p, .none, .command c] => some ((addToPipeline p c false).map .pipe)
  | .pipelineBarAmp, [.pipe p, .none, .command c] => some ((addToPipeline p c true).map .pipe)
  | .leadingBarError, [.none, .none] => some (.error (.yyabort .invnul))
  | .pipelineBarError, [.pipe _, .none, .none] => some (.error (.yyabort .invnul))
  | .commandWord, [.word w] => some (.ok (.command (initCmd (some w) none none false false)))
  | .commandInput, [.command c] => some (.ok (.command c))
  | .commandOutput, [.command c] => some (.ok (.command c))
  | .commandAddWord, [.command c, .word w] =>
    some (.ok (.command { c with words := c.words ++ [w] }))
  | .commandAddInput, [.command c, .command i] =>
    some (if c.ioredInput.isSome then .error (.yyabort .ambinp)
      else .ok (.command { c with ioredInput := i.ioredInput }))
  | .commandAddOutput, [.command c, .command o] =>
    some (if c.ioredOutput.isSome then .error (.yyabort .ambout)
      else .ok (.command { c with ioredOutput := o.ioredOutput, appendToOutput := o.appendToOutput,
                                  redirectStderr := o.redirectStderr }))
  | .inputWord, [.none, .word w] => some (.ok (.command (initCmd none (some w) none false false)))
  | .inputError, [.none, .none] => some (.error (.yyabort .misred))
  | .outputGreater, [.none, .word w] =>
    some (.ok (.command (initCmd none none (some w) false false)))
  | .outputGreaterAmp, [.none, .word w] =>
    some (.ok (.command (initCmd none none (some w) false true)))
  | .outputGreaterGreater, [.none, .word w] =>
    some (.ok (.command (initCmd none none (some w) true false)))
  | .outputGreaterError, [.none, .none] => some (.error (.yyabort .misred))
  | .outputGreaterGreaterError, [.none, .none] => some (.error (.yyabort .misred))
  | _, _ => none

end Cush
