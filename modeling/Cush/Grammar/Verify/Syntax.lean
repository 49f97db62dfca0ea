import Cush.Grammar.Verify.Machine
import Mathlib.Data.List.Basic

/-!
# Command lines as they are written

What the grammar is about, without the parser: a command is a sequence of words and redirections, a
pipeline is a sequence of commands joined by `|` or `|&`, a line is a sequence of pipelines with
separators after them. Each of these has its tokens, the conditions under which it is accepted, and
the syntax tree it stands for.
-/

namespace Cush

/-- The output redirections `>`, `>>` and `>&`. -/
inductive OutputOp where
  | truncate
  | append
  | withStderr
  deriving Repr, DecidableEq

def OutputOp.token : OutputOp → Token
  | .truncate => .greater
  | .append => .greaterGreater
  | .withStderr => .greaterAmpersand

inductive CommandItem where
  | word (w : Word)
  | input (file : Word)
  | output (op : OutputOp) (file : Word)
  deriving Repr, DecidableEq

def CommandItem.tokens : CommandItem → List Token
  | .word w => [.word w]
  | .input file => [.less, .word file]
  | .output op file => [op.token, .word file]

/-! ## Commands -/

abbrev CommandSyntax := List CommandItem

namespace CommandSyntax

def tokens (c : CommandSyntax) : List Token :=
  c.flatMap CommandItem.tokens

def words (c : CommandSyntax) : List Word :=
  c.filterMap fun
    | .word w => some w
    | _ => none

def inputs (c : CommandSyntax) : List Word :=
  c.filterMap fun
    | .input file => some file
    | _ => none

def outputs (c : CommandSyntax) : List (OutputOp × Word) :=
  c.filterMap fun
    | .output op file => some (op, file)
    | _ => none

def inputFile (c : CommandSyntax) : Option Word :=
  c.inputs.head?

def outputFile (c : CommandSyntax) : Option Word :=
  c.outputs.head?.map Prod.snd

/-- Whether the output redirection, if there is one, is `op`. -/
def redirectsWith (c : CommandSyntax) (op : OutputOp) : Bool :=
  c.outputs.head?.any fun o => o.1 = op

/-- At most one redirection each way. -/
structure Unambiguous (c : CommandSyntax) : Prop where
  inputs : c.inputs.length ≤ 1
  outputs : c.outputs.length ≤ 1

end CommandSyntax

/-! ## Pipelines -/

/-- A first command, and the others with the bar before them: true for `|&`. -/
structure PipelineSyntax where
  first : CommandSyntax
  rest : List (Bool × CommandSyntax)

namespace PipelineSyntax

def barToken (amp : Bool) : Token :=
  if amp then .pipeAmpersand else .pipe

def tokens (p : PipelineSyntax) : List Token :=
  p.first.tokens ++ p.rest.flatMap fun x => barToken x.1 :: CommandSyntax.tokens x.2

def commands (p : PipelineSyntax) : List CommandSyntax :=
  p.first :: p.rest.map Prod.snd

def last (p : PipelineSyntax) : CommandSyntax :=
  (p.rest.map Prod.snd).getLastD p.first

/-- Each command has a word and at most one redirection each way; an input redirection occurs in
the first command only, an output redirection in the last one only. -/
structure WellFormed (p : PipelineSyntax) : Prop where
  words : ∀ c ∈ p.commands, c.words ≠ []
  unambiguous : ∀ c ∈ p.commands, c.Unambiguous
  input_first : ∀ c ∈ p.rest.map Prod.snd, c.inputs = []
  output_last : ∀ c ∈ p.commands.dropLast, c.outputs = []

/-- The commands of the tree: a command's stderr goes with its output if `|&` follows it, or if it
is the last one and redirects with `>&`. -/
def astCommands : CommandSyntax → List (Bool × CommandSyntax) → List AstCommand
  | c, [] => [⟨c.words, c.redirectsWith .withStderr⟩]
  | c, (amp, d) :: rest => ⟨c.words, amp⟩ :: astCommands d rest

def ast (p : PipelineSyntax) : AstPipeline :=
  { commands := astCommands p.first p.rest
    ioredInput := p.first.inputFile
    ioredOutput := p.last.outputFile
    appendToOutput := p.last.redirectsWith .append
    bgJob := false }

end PipelineSyntax

/-! ## Lines -/

inductive Separator where
  | semi
  | amp
  deriving Repr, DecidableEq

def Separator.token : Separator → Token
  | .semi => .semicolon
  | .amp => .ampersand

/-- Leading semicolons, and the pipelines with the separators after them. -/
structure LineSyntax where
  lead : Nat
  items : List (PipelineSyntax × List Separator)

namespace LineSyntax

def itemTokens (x : PipelineSyntax × List Separator) : List Token :=
  x.1.tokens ++ x.2.map Separator.token

def tokens (l : LineSyntax) : List Token :=
  List.replicate l.lead .semicolon ++ l.items.flatMap itemTokens

/-- The pipelines are well formed and separated from each other. -/
structure WellFormed (l : LineSyntax) : Prop where
  pipelines : ∀ x ∈ l.items, x.1.WellFormed
  separated : ∀ x ∈ l.items.dropLast, x.2 ≠ []

/-- A pipeline runs in the background as soon as one separator after it is `&`. -/
def itemAst (x : PipelineSyntax × List Separator) : AstPipeline :=
  { x.1.ast with bgJob := x.2.any (· = .amp) }

def ast (l : LineSyntax) : AstCommandLine :=
  ⟨l.items.map itemAst⟩

end LineSyntax

end Cush
