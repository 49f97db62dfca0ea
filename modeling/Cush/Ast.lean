/-!
# The abstract syntax of command lines

The data structures of `shell-ast.h`. A word is the list of its characters; intrusive lists are
lists. The `pid` of a command is not kept here: it is written by `handle_job` only, and belongs to
the job (`Job.pids`).
-/

namespace Cush

/-- A C string: a word, a file name, an input line. -/
abbrev Word := List Char

/-- `struct ast_command` -/
structure AstCommand where
  argv : List Word
  dupStderrToStdout : Bool
  deriving Repr, DecidableEq

/-- `struct ast_pipeline` -/
structure AstPipeline where
  commands : List AstCommand
  ioredInput : Option Word
  ioredOutput : Option Word
  appendToOutput : Bool
  bgJob : Bool
  deriving Repr, DecidableEq

/-- `struct ast_command_line` -/
structure AstCommandLine where
  pipes : List AstPipeline
  deriving Repr, DecidableEq

def astCommandCreate (argv : List Word) (dupStderrToStdout : Bool) : AstCommand :=
  ⟨argv, dupStderrToStdout⟩

def astPipelineCreate (ioredInput ioredOutput : Option Word) (appendToOutput : Bool) :
    AstPipeline :=
  { commands := [], ioredInput, ioredOutput, appendToOutput, bgJob := false }

def astPipelineAddCommand (pipe : AstPipeline) (cmd : AstCommand) : AstPipeline :=
  { pipe with commands := pipe.commands ++ [cmd] }

def astCommandLineCreateEmpty : AstCommandLine :=
  ⟨[]⟩

def astCommandLineCreate (pipe : AstPipeline) : AstCommandLine :=
  ⟨[pipe]⟩

/-- A pipeline as `handle_builtin` and `handle_job` expect it: they read the first command of a
pipeline and the first word of a command without looking whether there is one. -/
def AstPipeline.WellFormed (p : AstPipeline) : Prop :=
  p.commands ≠ [] ∧ ∀ c ∈ p.commands, c.argv ≠ []

def AstCommandLine.WellFormed (l : AstCommandLine) : Prop :=
  ∀ p ∈ l.pipes, p.WellFormed

end Cush
