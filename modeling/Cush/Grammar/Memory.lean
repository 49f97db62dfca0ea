import Cush.Ast.Memory
import Cush.Grammar.Parse
import Cush.Lib.StoreParser

/-!
# Parsing in memory (`shell-grammar.y`)

The helper functions of the grammar's prologue and its actions, as programs on the memory of the
parser: the values on the parser stack are pointers, the words of a command grow in an obstack, and
helpers are freed when their contents have moved on. A parse that stops leaves what it has on its
stack.
-/

namespace Cush.AstMemory

open LinkedList ShiftReduce

/-- The semantic values (`%union`). -/
inductive SemPtr where
  | none
  | word (a : Address)
  | command (a : Address)
  | pipe (a : Address)
  | astPipe (a : Address)
  | cmdline (a : Address)
  deriving Repr, DecidableEq

/-! ## Obstacks -/

section Helpers

variable (alloc : Allocator)

/-- `obstack_init`, which allocates a chunk. -/
def obstackInit : AstM Address :=
  malloc alloc (.array [])

def obstackPtrGrow (words p : Ptr Address) : AstM Unit := do
  let ptrs ← getBlock Block.array? words
  setBlock words (.array (ptrs ++ [p]))

/-- `obstack_free(words, NULL)` -/
def obstackFree (words : Ptr Address) : AstM Unit :=
  free words

/-! ## Helper structures -/

def initPipe : AstM Address := do
  let pipe ← malloc alloc .pipeHelper
  onLists (listInit (listOf pipe))
  return pipe

def initCmd (firstcmd ioredInput ioredOutput : Ptr Address) (appendToOutput includeStderr : Bool) :
    AstM Address := do
  let cmd ← malloc alloc
    (.cmdHelper ⟨none, ioredInput, ioredOutput, appendToOutput, includeStderr⟩)
  let words ← obstackInit alloc
  setBlock cmd (.cmdHelper ⟨words, ioredInput, ioredOutput, appendToOutput, includeStderr⟩)
  if firstcmd.isSome then obstackPtrGrow words firstcmd
  return cmd

def makeAstCommand (cmd : Address) : AstM (Ptr Address) := do
  let c ← getBlock Block.cmdHelper? cmd
  obstackPtrGrow c.words none
  let ptrs ← getBlock Block.array? c.words
  let argv ← malloc alloc (.array ptrs)
  obstackFree c.words
  if (← getBlock Block.array? argv).head? = some none then
    free (some argv)
    return none
  else
    let c ← getBlock Block.cmdHelper? cmd
    return some (← astCommandCreate alloc (some argv) c.redirectStderr)

/-- The end of `add_to_pipeline`. -/
def pushHelper (pipe cmd : Address) : AstM (Except ErrorMessage Unit) := do
  let c ← getBlock Block.cmdHelper? cmd
  if (← getBlock Block.array? c.words) = [] then return .error .invnul
  else
    onLists (listPushBack (listOf pipe) (some (.elem cmd)))
    return .ok ()

def addToPipeline (pipe cmd : Address) (redirectStderr : Bool) :
    AstM (Except ErrorMessage Unit) := do
  if ← onLists (listEmpty (listOf pipe)) then pushHelper pipe cmd
  else
    let e ← onLists (LinkedList.listBack (listOf pipe))
    let last ← listEntry e
    let l ← getBlock Block.cmdHelper? last
    if l.ioredOutput.isSome then return .error .ambout
    else
      setBlock last (.cmdHelper { l with redirectStderr })
      let c ← getBlock Block.cmdHelper? cmd
      if c.ioredInput.isSome then return .error .ambinp
      else pushHelper pipe cmd

/-- The loop of the `ast_pipeline` action. -/
def addCommands (ast pipe : Address) : Nat → Ptr Place → AstM Unit
  | 0, _ => throw .fuel
  | fuel + 1, e => do
    if e = listEnd (listOf pipe) then return ()
    let cmd ← listEntry e
    match ← makeAstCommand alloc cmd with
    | none => throw .null
    | some c =>
      astPipelineAddCommand ast c
      let e ← onLists (listRemove e)
      free (some cmd)
      addCommands ast pipe fuel e

/-- The action of `ast_pipeline: pipeline`. -/
def makeAstPipeline (pipe : Address) : AstM Address := do
  if ← onLists (listEmpty (listOf pipe)) then throw .assertion
  else
    let e ← onLists (LinkedList.listFront (listOf pipe))
    let first ← listEntry e
    let e ← onLists (LinkedList.listBack (listOf pipe))
    let last ← listEntry e
    let f ← getBlock Block.cmdHelper? first
    let l ← getBlock Block.cmdHelper? last
    let ast ← astPipelineCreate alloc f.ioredInput l.ioredOutput l.appendToOutput
    let e ← onLists (listBegin (listOf pipe))
    addCommands alloc ast pipe (← rounds) e
    free (some pipe)
    return ast

/-- `last->bg_job = true` for the last pipeline of the list. -/
def markBackground (cmdline : Address) : AstM Unit := do
  let e ← onLists (LinkedList.listBack (listOf cmdline))
  let last ← listEntry e
  let p ← getBlock Block.pipeline? last
  setBlock last (.pipeline { p with bgJob := true })

def pushPipeline (cmdline pipe : Address) : AstM Unit :=
  onLists (listPushBack (listOf cmdline) (some (.elem pipe)))

/-- `command input` -/
def addInput (c i : Address) : AstM (Except ErrorMessage Unit) := do
  let ib ← getBlock Block.cmdHelper? i
  obstackFree ib.words
  let cb ← getBlock Block.cmdHelper? c
  if cb.ioredInput.isSome then return .error .ambinp
  else
    let ib ← getBlock Block.cmdHelper? i
    setBlock c (.cmdHelper { cb with ioredInput := ib.ioredInput })
    free (some i)
    return .ok ()

/-- `command output` -/
def addOutput (c o : Address) : AstM (Except ErrorMessage Unit) := do
  let ob ← getBlock Block.cmdHelper? o
  obstackFree ob.words
  let cb ← getBlock Block.cmdHelper? c
  if cb.ioredOutput.isSome then return .error .ambout
  else
    let ob ← getBlock Block.cmdHelper? o
    setBlock c (.cmdHelper
      { cb with
        ioredOutput := ob.ioredOutput
        appendToOutput := ob.appendToOutput
        redirectStderr := ob.redirectStderr })
    free (some o)
    return .ok ()

/-! ## The actions -/

/-- An action that goes on with the value `p`, unless it has taken `YYABORT`. -/
def orAbort (p : SemPtr) (c : AstM (Except ErrorMessage Unit)) :
    AstM (Option (Except ErrorMessage SemPtr)) := do
  return some ((← c).map fun _ => p)

def returns (p : SemPtr) : AstM (Option (Except ErrorMessage SemPtr)) :=
  return some (.ok p)

def aborts (msg : ErrorMessage) : AstM (Option (Except ErrorMessage SemPtr)) :=
  return some (.error msg)

/-- The action of a production. -/
def semanticAction : Production → List SemPtr → AstM (Option (Except ErrorMessage SemPtr))
  | .cmdLine, [.cmdline cl] => returns (.cmdline cl)
  | .cmdListEmpty, [] => do
    returns (.cmdline (← astCommandLineCreateEmpty alloc))
  | .cmdListPipeline, [.astPipe p] => do
    returns (.cmdline (← astCommandLineCreate alloc p))
  | .cmdListSemi, [.cmdline cl, .none] => returns (.cmdline cl)
  | .cmdListAmp, [.cmdline cl, .none] => do
    markBackground cl
    returns (.cmdline cl)
  | .cmdListSemiPipeline, [.cmdline cl, .none, .astPipe p] => do
    pushPipeline cl p
    returns (.cmdline cl)
  | .cmdListAmpPipeline, [.cmdline cl, .none, .astPipe p] => do
    markBackground cl
    pushPipeline cl p
    returns (.cmdline cl)
  | .astPipeline, [.pipe p] => do
    returns (.astPipe (← makeAstPipeline alloc p))
  | .pipelineCommand, [.command c] => do
    let p ← initPipe alloc
    orAbort (.pipe p) (addToPipeline p c false)
  | .pipelineBar, [.pipe p, .none, .command c] => orAbort (.pipe p) (addToPipeline p c false)
  | .pipelineBarAmp, [.pipe p, .none, .command c] => orAbort (.pipe p) (addToPipeline p c true)
  | .leadingBarError, [.none, .none] => aborts .invnul
  | .pipelineBarError, [.pipe _, .none, .none] => aborts .invnul
  | .commandWord, [.word w] => do
    returns (.command (← initCmd alloc w none none false false))
  | .commandInput, [.command c] => returns (.command c)
  | .commandOutput, [.command c] => returns (.command c)
  | .commandAddWord, [.command c, .word w] => do
    let cb ← getBlock Block.cmdHelper? c
    obstackPtrGrow cb.words w
    returns (.command c)
  | .commandAddInput, [.command c, .command i] => orAbort (.command c) (addInput c i)
  | .commandAddOutput, [.command c, .command o] => orAbort (.command c) (addOutput c o)
  | .inputWord, [.none, .word w] => do
    returns (.command (← initCmd alloc none w none false false))
  | .inputError, [.none, .none] => aborts .misred
  | .outputGreater, [.none, .word w] => do
    returns (.command (← initCmd alloc none none w false false))
  | .outputGreaterAmp, [.none, .word w] => do
    returns (.command (← initCmd alloc none none w false true))
  | .outputGreaterGreater, [.none, .word w] => do
    returns (.command (← initCmd alloc none none w true false))
  | .outputGreaterError, [.none, .none] => aborts .misred
  | .outputGreaterGreaterError, [.none, .none] => aborts .misred
  | _, _ => return none

/-- The value of a token: `yylex` leaves a copy of a word in `yylval`. -/
def tokenValue : Token → AstM SemPtr
  | .word w => do
    return .word (← strdup alloc w)
  | _ => return .none

def shellActions : StoreActions Token Production SemPtr ErrorMessage Memory Fault :=
  { bottom := .none
    value := tokenValue alloc
    action := semanticAction alloc }

/-! ## Parsing -/

/-- What `ast_parse_command_line` returns: a command line, or null, with the error that an action
has printed. -/
inductive ParsePtr where
  | ast (cmdline : Address)
  | null (msg : Option ErrorMessage)
  | stuck
  deriving Repr, DecidableEq

/-- The value of `error ? NULL : commandline` after `yyparse`. -/
def ParsePtr.ofResult {κ : Type} : Result κ SemPtr ErrorMessage → ParsePtr
  | .accept (.cmdline cl) => .ast cl
  | .stop msg => .null (some msg)
  | .syntaxError => .null none
  | _ => .stuck

def astParseCommandLine (sc : Scanner) (line : List Char) : AstM (ParsePtr × Scanner) := do
  let sc := { sc with inputline := line }
  let (r, sc') ← shellTables.driveOn (shellActions alloc) Scanner.yylex (sc.unread.length + 1)
    [(.start, .none)] sc
  return (.ofResult r, sc')

end Helpers

end Cush.AstMemory
