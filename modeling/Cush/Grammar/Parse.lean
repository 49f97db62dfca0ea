import Cush.Grammar.Tables

/-!
# Parsing a command line (`ast_parse_command_line`)

`yyparse` pulls tokens from the scanner, whose buffer is static: a parse that stops early leaves in
it what it has not read.
-/

namespace Cush

open ShiftReduce

/-- What `ast_parse_command_line` does: return a command line, return null (with the error that was
printed, if an action printed one), or end the shell. `stuck` stands for a lookup outside the parser
tables. -/
inductive ParseResult where
  | ast (cl : AstCommandLine)
  | null (msg : Option ErrorMessage)
  | abort (a : Abort)
  | stuck
  deriving Repr, DecidableEq

/-- The value of `error ? NULL : commandline` after `yyparse`. -/
def ParseResult.ofResult {κ : Type} : Result κ SemValue ParseStop → ParseResult
  | .accept (.cmdline cl) => .ast cl
  | .stop (.yyabort msg) => .null (some msg)
  | .stop (.abort a) => .abort a
  | .syntaxError => .null none
  | _ => .stuck

/-- `yyparse` on a token sequence. -/
def parseTokens (ts : List Token) : ParseResult :=
  .ofResult (shellTables.run shellTables.initial ts)

/-- `ast_parse_command_line`, with the scanner as the previous line left it and as this line leaves
it. -/
def astParseCommandLine (sc : Scanner) (line : List Char) : ParseResult × Scanner :=
  let sc := { sc with inputline := line }
  let (r, sc') := shellTables.drive Scanner.yylex (sc.unread.length + 1) shellTables.initial sc
  (.ofResult r, sc')

end Cush
