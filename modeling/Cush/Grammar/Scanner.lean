import Cush.Ast
import Cush.Lib.LongestMatch

/-!
# The scanner (`shell-grammar.l`)

The rules of the scanner as one automaton, and `yylex` over the static buffer of a flex scanner.
Characters enter the buffer one at a time through `YY_INPUT`, which reads the global `inputline`;
characters read beyond a lexeme stay in the buffer, also across calls of `yyparse`. An end of input
met while a token is being matched is remembered (`YY_BUFFER_EOF_PENDING`): the token is returned,
and the next call that finds the buffer used up reports the end without asking `YY_INPUT` again.
Reporting the end restarts the scanner.
-/

namespace Cush

/-- The tokens of the grammar. -/
inductive Token where
  | word (w : Word)
  | greaterGreater
  | greaterAmpersand
  | pipeAmpersand
  | pipe
  | ampersand
  | semicolon
  | less
  | greater
  | newline
  deriving Repr, DecidableEq

/-- The rules of the scanner, in the order of the source. -/
inductive LexRule where
  | blanks
  | greaterGreater
  | greaterAmpersand
  | pipeAmpersand
  | operator
  | quoted
  | word
  deriving Repr, DecidableEq

/-- `[ \t]` -/
def isBlank (c : Char) : Bool :=
  c == ' ' || c == '\t'

/-- `[|&;<>\n]` -/
def isOperator (c : Char) : Bool :=
  c == '|' || c == '&' || c == ';' || c == '<' || c == '>' || c == '\n'

/-- `[^|&;<>\n\t ]` -/
def isWordChar (c : Char) : Bool :=
  !(isOperator c || isBlank c)

/-- The states of the scanner's automaton. Inside a quoted token the text read may still be a plain
word as well (`plain`), which competes by longest match. -/
inductive LexState where
  | start
  | blanks
  | greater
  | bar
  | matched (r : LexRule)
  | word
  | quoted (plain : Bool)
  | escape (plain : Bool)
  | closed (plain : Bool)
  deriving Repr, DecidableEq

def LexState.next : LexState → Char → Option LexState
  | .start, c =>
    if isBlank c then some .blanks
    else if c = '>' then some .greater
    else if c = '|' then some .bar
    else if isOperator c then some (.matched .operator)
    else if c = '"' then some (.quoted true)
    else some .word
  | .blanks, c => if isBlank c then some .blanks else none
  | .greater, c =>
    if c = '>' then some (.matched .greaterGreater)
    else if c = '&' then some (.matched .greaterAmpersand)
    else none
  | .bar, c => if c = '&' then some (.matched .pipeAmpersand) else none
  | .matched _, _ => none
  | .word, c => if isWordChar c then some .word else none
  | .quoted plain, c =>
    if c = '"' then some (.closed plain)
    else if c = '\\' then some (.escape plain)
    else some (.quoted (plain && isWordChar c))
  | .escape plain, c =>
    -- `\\.`: the dot does not match a newline, and neither does a plain word
    if c = '\n' then none else some (.quoted (plain && isWordChar c))
  | .closed plain, c => if plain && isWordChar c then some .word else none

/-- The rule that accepts in a state; the earlier one where two do. -/
def LexState.accept : LexState → Option LexRule
  | .start => some .blanks
  | .blanks => some .blanks
  | .greater => some .operator
  | .bar => some .operator
  | .matched r => some r
  | .word => some .word
  | .quoted plain => if plain then some .word else none
  | .escape plain => if plain then some .word else none
  | .closed _ => some .quoted

def LexState.live : LexState → Bool
  | .matched _ => false
  | .closed plain => plain
  | _ => true

def lexDfa : Dfa LexState Char LexRule :=
  { start := .start, next := LexState.next, accept := LexState.accept, live := LexState.live }

/-- The token an action returns for its lexeme; the action of the blanks returns none. -/
def LexRule.token : LexRule → List Char → Option Token
  | .blanks, _ => none
  | .greaterGreater, _ => some .greaterGreater
  | .greaterAmpersand, _ => some .greaterAmpersand
  | .pipeAmpersand, _ => some .pipeAmpersand
  | .operator, yytext =>
    match yytext.head? with
    | some '|' => some .pipe
    | some '&' => some .ampersand
    | some ';' => some .semicolon
    | some '<' => some .less
    | some '>' => some .greater
    | _ => some .newline
  -- `strdup(yytext + 1)` without its last character
  | .quoted, yytext => some (.word (yytext.drop 1).dropLast)
  | .word, yytext => some (.word yytext)

/-! ## One call of `yylex` -/

/-- The scanner between two calls, with the global `inputline`. -/
structure Scanner where
  buffer : List Char
  eofPending : Bool
  inputline : List Char
  deriving Repr, DecidableEq

namespace Scanner

/-- A freshly initialised (or restarted) scanner. -/
def fresh : Scanner :=
  ⟨[], false, []⟩

/-- What is left to scan: the buffer, and the input line unless its end has been seen. -/
def unread (s : Scanner) : List Char :=
  s.buffer ++ if s.eofPending then [] else s.inputline

/-- The longest match at the start of a text: its rule and length, and the text looked at. -/
def longest (text : List Char) : Scan LexRule :=
  lexDfa.scan .start text 0 none

/-- The scanner after a match of length `m` for which `n` characters were looked at. -/
def consume (s : Scanner) (m n : Nat) (hitEnd : Bool) : Scanner :=
  let n := max n s.buffer.length
  { buffer := (s.unread.take n).drop m
    eofPending := s.eofPending || hitEnd
    inputline := if s.eofPending then s.inputline else s.inputline.drop (n - s.buffer.length) }

/-- At the end of the text the scanner is restarted; else the longest match is consumed and its
action run, which for blanks goes on scanning. -/
def yylexFuel : Nat → Scanner → Option Token × Scanner
  | 0, s => (none, s)
  | fuel + 1, s =>
    if s.unread = [] then (none, { s with buffer := [], eofPending := false })
    else
      let r := longest s.unread
      match r.best with
      | none => (none, s)
      | some (rule, m) =>
        let s' := s.consume m r.examined r.hitEnd
        match rule.token (s.unread.take m) with
        | none => yylexFuel fuel s'
        | some t => (some t, s')

def yylex (s : Scanner) : Option Token × Scanner :=
  yylexFuel (s.unread.length + 1) s

end Scanner

/-! ## The tokens of a text -/

/-- The tokens of a text, by repeated longest match. -/
def lexFuel : Nat → List Char → List Token
  | 0, _ => []
  | _ + 1, [] => []
  | fuel + 1, c :: text =>
    match (Scanner.longest (c :: text)).best with
    | none => []
    | some (rule, m) =>
      match rule.token ((c :: text).take m) with
      | none => lexFuel fuel ((c :: text).drop m)
      | some t => t :: lexFuel fuel ((c :: text).drop m)

def lex (text : List Char) : List Token :=
  lexFuel text.length text

end Cush
