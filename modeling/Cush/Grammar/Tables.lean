import Cush.Grammar.Actions
import Cush.Lib.ShiftReduce

/-!
# The parser tables of the grammar

The LALR(1) automaton of the grammar, as bison builds it. A state is named after the viable prefix
that leads to it: `bar` is the state after `pipeline '|'`, `commandBar` the one after
`pipeline '|' command`. The grammar has no conflicts, and in every state at most one production can
be reduced, which bison makes the default reduction.
-/

namespace Cush

inductive LrState where
  | start
  | word | less | greater | greaterGreater | greaterAmp
  | lessWord | lessError
  | greaterWord | greaterError
  | greaterGreaterWord | greaterGreaterError
  | greaterAmpWord
  | leadingBar | leadingBarError
  | cmdLine | cmdList | astPipeline | pipeline | command | input | output
  | listSemi | listAmp | listSemiPipeline | listAmpPipeline
  | bar | barError | commandBar
  | barAmp | commandBarAmp
  | commandAddWord | commandAddInput | commandAddOutput
  deriving Repr, DecidableEq

namespace LrState

/-- Shifts that start a redirection. -/
def shiftRedirect : Token → Option LrState
  | .less => some .less
  | .greater => some .greater
  | .greaterGreater => some .greaterGreater
  | .greaterAmpersand => some .greaterAmp
  | _ => none

/-- Shifts where a command may start. -/
def shiftCommand : Token → Option LrState
  | .word _ => some .word
  | t => shiftRedirect t

/-- Shifts where a pipeline may start. -/
def shiftPipeline : Token → Option LrState
  | .pipe => some .leadingBar
  | t => shiftCommand t

/-- Shifts that extend a command. -/
def shiftIntoCommand : Token → Option LrState
  | .word _ => some .commandAddWord
  | t => shiftRedirect t

/-- The shift of a word after a redirection operator. -/
def shiftName (q : LrState) : Token → Option LrState
  | .word _ => some q
  | _ => none

def shift : LrState → Token → Option LrState
  | .start, t | .listSemi, t | .listAmp, t => shiftPipeline t
  | .bar, t | .barAmp, t => shiftCommand t
  | .command, t | .commandBar, t | .commandBarAmp, t => shiftIntoCommand t
  | .less, t => shiftName .lessWord t
  | .greater, t => shiftName .greaterWord t
  | .greaterGreater, t => shiftName .greaterGreaterWord t
  | .greaterAmp, t => shiftName .greaterAmpWord t
  | .cmdList, .semicolon => some .listSemi
  | .cmdList, .ampersand => some .listAmp
  | .pipeline, .pipe => some .bar
  | .pipeline, .pipeAmpersand => some .barAmp
  | _, _ => none

def shiftError : LrState → Option LrState
  | .leadingBar => some .leadingBarError
  | .bar => some .barError
  | .less => some .lessError
  | .greater => some .greaterError
  | .greaterGreater => some .greaterGreaterError
  | _ => none

def reduce : LrState → Option Production
  | .start => some .cmdListEmpty
  | .word => some .commandWord
  | .lessWord => some .inputWord
  | .lessError => some .inputError
  | .greaterWord => some .outputGreater
  | .greaterError => some .outputGreaterError
  | .greaterGreaterWord => some .outputGreaterGreater
  | .greaterGreaterError => some .outputGreaterGreaterError
  | .greaterAmpWord => some .outputGreaterAmp
  | .leadingBarError => some .leadingBarError
  | .cmdList => some .cmdLine
  | .astPipeline => some .cmdListPipeline
  | .pipeline => some .astPipeline
  | .command => some .pipelineCommand
  | .input => some .commandInput
  | .output => some .commandOutput
  | .listSemi => some .cmdListSemi
  | .listAmp => some .cmdListAmp
  | .listSemiPipeline => some .cmdListSemiPipeline
  | .listAmpPipeline => some .cmdListAmpPipeline
  | .barError => some .pipelineBarError
  | .commandBar => some .pipelineBar
  | .commandBarAmp => some .pipelineBarAmp
  | .commandAddWord => some .commandAddWord
  | .commandAddInput => some .commandAddInput
  | .commandAddOutput => some .commandAddOutput
  | .less | .greater | .greaterGreater | .greaterAmp | .leadingBar | .cmdLine | .bar | .barAmp =>
    none

/-- The states whose only entry is their default reduction. -/
def consistent : LrState → Bool
  | .word | .lessWord | .lessError | .greaterWord | .greaterError | .greaterGreaterWord
  | .greaterGreaterError | .greaterAmpWord | .leadingBarError | .astPipeline | .input | .output
  | .listSemiPipeline | .listAmpPipeline | .barError
  | .commandAddWord | .commandAddInput | .commandAddOutput => true
  | _ => false

def goto : LrState → Nonterminal → Option LrState
  | .start, .cmdLine => some .cmdLine
  | .start, .cmdList => some .cmdList
  | .start, .astPipeline => some .astPipeline
  | .listSemi, .astPipeline => some .listSemiPipeline
  | .listAmp, .astPipeline => some .listAmpPipeline
  | .start, .pipeline | .listSemi, .pipeline | .listAmp, .pipeline => some .pipeline
  | .start, .command | .listSemi, .command | .listAmp, .command => some .command
  | .bar, .command => some .commandBar
  | .barAmp, .command => some .commandBarAmp
  | .start, .input | .listSemi, .input | .listAmp, .input | .bar, .input | .barAmp, .input =>
    some .input
  | .start, .output | .listSemi, .output | .listAmp, .output | .bar, .output | .barAmp, .output =>
    some .output
  | .command, .input | .commandBar, .input | .commandBarAmp, .input => some .commandAddInput
  | .command, .output | .commandBar, .output | .commandBarAmp, .output => some .commandAddOutput
  | _, _ => none

end LrState

/-- The left-hand side of a production. -/
def Production.lhs : Production → Nonterminal
  | .cmdLine => .cmdLine
  | .cmdListEmpty | .cmdListPipeline | .cmdListSemi | .cmdListAmp | .cmdListSemiPipeline
  | .cmdListAmpPipeline => .cmdList
  | .astPipeline => .astPipeline
  | .pipelineCommand | .pipelineBar | .pipelineBarAmp | .leadingBarError | .pipelineBarError =>
    .pipeline
  | .commandWord | .commandInput | .commandOutput | .commandAddWord | .commandAddInput
  | .commandAddOutput => .command
  | .inputWord | .inputError => .input
  | .outputGreater | .outputGreaterAmp | .outputGreaterGreater | .outputGreaterError
  | .outputGreaterGreaterError => .output

/-- The length of the right-hand side of a production. -/
def Production.arity : Production → Nat
  | .cmdListEmpty => 0
  | .cmdLine | .cmdListPipeline | .astPipeline | .pipelineCommand | .commandWord | .commandInput
  | .commandOutput => 1
  | .cmdListSemiPipeline | .cmdListAmpPipeline | .pipelineBar | .pipelineBarAmp
  | .pipelineBarError => 3
  | _ => 2

/-- The semantic value `yylex` leaves in `yylval`. -/
def Token.value : Token → SemValue
  | .word w => .word w
  | _ => .none

def shellTables :
    ShiftReduce.Tables LrState Nonterminal Token Production SemValue ParseStop :=
  { start := .start
    bottom := .none
    shift := LrState.shift
    value := Token.value
    shiftError := LrState.shiftError
    final := fun q => q = .cmdLine
    reduce := LrState.reduce
    consistent := LrState.consistent
    arity := Production.arity
    lhs := Production.lhs
    action := semanticAction
    goto := LrState.goto
    depth := 8 }

end Cush
