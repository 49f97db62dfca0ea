import Cush.Grammar.Verify.Words
import Cush.Grammar.Verify.Lines
import Cush.Shell.Job

/-!
# Command lines as they are printed

`print_cmdline` prints the words of a command with a blank before each but the first, and a bar and
a blank between commands. The scanner and the parser make the same commands of it: words are not
joined, since a blank or a bar ends each of them, and a bar is not taken for `|&`, since a blank
follows it.
-/

namespace Cush

open ShiftReduce

/-! ## Printed tokens -/

/-- A word is printed after a blank, a bar directly behind what precedes it. -/
def printToken : Token → List Char
  | .word w => ' ' :: w
  | .pipe => ['|']
  | _ => []

/-- Words and bars. -/
def Printed (ts : List Token) : Prop :=
  ∀ t ∈ ts, (∃ w, t = .word w) ∨ t = .pipe

theorem print_head {ts : List Token} (h : Printed ts) :
    (ts.flatMap printToken).head? = none ∨ (ts.flatMap printToken).head? = some ' ' ∨
      (ts.flatMap printToken).head? = some '|' := by
  rcases ts with _ | ⟨t, ts⟩
  · exact Or.inl rfl
  · rcases h t List.mem_cons_self with ⟨w, rfl⟩ | rfl
    · exact Or.inr (Or.inl rfl)
    · exact Or.inr (Or.inr rfl)

/-- A double quote that is printed is one of a word. -/
theorem quote_of_print {ts : List Token} (h : '"' ∈ ts.flatMap printToken) :
    ∃ w ∈ wordsOf ts, '"' ∈ w := by
  obtain ⟨t, ht, hc⟩ := List.mem_flatMap.1 h
  cases t with
  | word w =>
    refine ⟨w, List.mem_filterMap.2 ⟨_, ht, rfl⟩, ?_⟩
    exact (List.mem_cons.1 hc).resolve_left (by decide)
  | pipe => exact absurd (List.mem_singleton.1 hc) (by decide)
  | _ => cases hc

/-- Printed tokens are scanned as they were. -/
theorem lex_print {ts : List Token} (h : Printed ts) (hw : PlainWords (wordsOf ts)) :
    lex (ts.flatMap printToken) = ts := by
  induction ts with
  | nil => rfl
  | cons t ts ih =>
    have hts : Printed ts := fun t ht => h t (List.mem_cons_of_mem _ ht)
    have hhead := print_head hts
    rw [List.flatMap_cons]
    rcases h t List.mem_cons_self with ⟨w, rfl⟩ | rfl
    · rw [wordsOf_cons_word] at hw
      have hrest : (ts.flatMap printToken).head?.any isWordChar = false := by
        rcases hhead with he | he | he <;> rw [he] <;> rfl
      have hquote : w.head? = some '"' → '"' ∉ ts.flatMap printToken := by
        intro hq hmem
        obtain ⟨w', hw', hc⟩ := quote_of_print hmem
        exact (List.pairwise_cons.1 hw.unclosed).1 w' hw' hq hc
      rw [printToken, List.cons_append, lex_blank rfl,
        lex_word (hw.plain w List.mem_cons_self) hrest hquote,
        ih hts (hw.sublist (List.sublist_cons_self _ _))]
    · have hamp : (ts.flatMap printToken).head? ≠ some '&' := by
        rcases hhead with he | he | he <;> rw [he] <;> decide
      rw [printToken, List.singleton_append, lex_pipe hamp, ih hts hw]

/-! ## A pipeline without redirections -/

/-- The pipeline of some argument vectors. -/
def plainSyntax (argv : List Word) (rest : List (List Word)) : PipelineSyntax :=
  ⟨argv.map .word, rest.map fun argv => (false, argv.map .word)⟩

theorem words_plain (argv : List Word) : CommandSyntax.words (argv.map .word) = argv := by
  induction argv with
  | nil => rfl
  | cons w argv ih => exact congrArg (w :: ·) ih

theorem inputs_plain (argv : List Word) : CommandSyntax.inputs (argv.map .word) = [] := by
  induction argv with
  | nil => rfl
  | cons w argv ih => exact ih

theorem outputs_plain (argv : List Word) : CommandSyntax.outputs (argv.map .word) = [] := by
  induction argv with
  | nil => rfl
  | cons w argv ih => exact ih

theorem tokens_plain (argv : List Word) :
    CommandSyntax.tokens (argv.map .word) = argv.map Token.word := by
  induction argv with
  | nil => rfl
  | cons w argv ih => exact congrArg (Token.word w :: ·) ih

theorem commands_plainSyntax (argv : List Word) (rest : List (List Word)) :
    (plainSyntax argv rest).commands = (argv :: rest).map fun argv => argv.map .word := by
  simp [PipelineSyntax.commands, plainSyntax, Function.comp_def]

theorem plainSyntax_wellFormed {argv : List Word} {rest : List (List Word)}
    (h : ∀ ws ∈ argv :: rest, ws ≠ []) : (plainSyntax argv rest).WellFormed := by
  have plain : ∀ c ∈ (plainSyntax argv rest).commands, ∃ ws ∈ argv :: rest, ws.map .word = c := by
    intro c hc
    rw [commands_plainSyntax] at hc
    exact List.mem_map.1 hc
  refine ⟨fun c hc => ?_, fun c hc => ?_, fun c hc => ?_, fun c hc => ?_⟩
  · obtain ⟨ws, hws, rfl⟩ := plain c hc
    rw [words_plain]
    exact h ws hws
  · obtain ⟨ws, -, rfl⟩ := plain c hc
    exact ⟨by simp [inputs_plain], by simp [outputs_plain]⟩
  · obtain ⟨ws, -, rfl⟩ := plain c (List.mem_cons_of_mem _ hc)
    exact inputs_plain ws
  · obtain ⟨ws, -, rfl⟩ := plain c (List.dropLast_subset _ hc)
    exact outputs_plain ws

theorem argv_plainSyntax (argv : List Word) (rest : List (List Word)) :
    (plainSyntax argv rest).ast.commands.map AstCommand.argv = argv :: rest := by
  have h := astCommands_argv (plainSyntax argv rest).first (plainSyntax argv rest).rest
  refine h.trans ?_
  change (plainSyntax argv rest).commands.map CommandSyntax.words = _
  rw [commands_plainSyntax, List.map_map]
  exact (List.map_congr_left fun ws _ => words_plain ws).trans (List.map_id _)

theorem tokens_plainSyntax (argv : List Word) (rest : List (List Word)) :
    (plainSyntax argv rest).tokens =
      argv.map Token.word ++ rest.flatMap fun argv => .pipe :: argv.map Token.word := by
  simp only [PipelineSyntax.tokens, plainSyntax, tokens_plain, List.flatMap_map]
  rfl

/-! ## The printed text of a pipeline -/

theorem intercalate_cons (sep text : List Char) (texts : List (List Char)) :
    List.intercalate sep (text :: texts) = text ++ texts.flatMap (sep ++ ·) := by
  induction texts generalizing text with
  | nil => simp [List.intercalate]
  | cons t texts ih =>
    have hstep : List.intercalate sep (text :: t :: texts) =
        text ++ (sep ++ List.intercalate sep (t :: texts)) := by
      simp [List.intercalate, List.intersperse]
    rw [hstep, ih, List.flatMap_cons, List.append_assoc]

theorem print_argv {argv : List Word} (h : argv ≠ []) :
    ' ' :: List.intercalate [' '] argv = (argv.map Token.word).flatMap printToken := by
  obtain ⟨w, argv, rfl⟩ := List.exists_cons_of_ne_nil h
  rw [intercalate_cons, List.flatMap_map]
  rfl

/-- What `print_cmdline` prints, after a blank. -/
theorem printCmdline_eq {p : AstPipeline} {argv : List Word} {rest : List (List Word)}
    (hp : p.commands.map AstCommand.argv = argv :: rest) (h : ∀ ws ∈ argv :: rest, ws ≠ []) :
    ' ' :: printCmdline p = (plainSyntax argv rest).tokens.flatMap printToken := by
  have htexts : p.commands.map (fun cmd => List.intercalate [' '] cmd.argv) =
      List.intercalate [' '] argv :: rest.map (List.intercalate [' ']) := by
    rw [← List.map_cons (f := List.intercalate [' ']), ← hp, List.map_map]
    rfl
  have hrest : ∀ ws ∈ rest, ['|', ' '] ++ List.intercalate [' '] ws =
      (.pipe :: ws.map Token.word).flatMap printToken := by
    intro ws hws
    rw [List.flatMap_cons, ← print_argv (h ws (List.mem_cons_of_mem _ hws))]
    rfl
  rw [printCmdline, htexts, intercalate_cons, tokens_plainSyntax, List.flatMap_append,
    ← print_argv (h argv List.mem_cons_self), List.flatMap_map, List.flatMap_assoc,
    List.flatMap_congr hrest]
  rfl

theorem wordsOf_map_word (ws : List Word) : wordsOf (ws.map Token.word) = ws := by
  induction ws with
  | nil => rfl
  | cons w ws ih => exact congrArg (w :: ·) ih

theorem wordsOf_plainSyntax (argv : List Word) (rest : List (List Word)) :
    wordsOf (plainSyntax argv rest).tokens = (argv :: rest).flatten := by
  rw [tokens_plainSyntax, wordsOf_append, wordsOf_map_word, List.flatten_cons]
  congr 1
  induction rest with
  | nil => rfl
  | cons ws rest ih =>
    have hbar : wordsOf (.pipe :: ws.map Token.word) = ws := wordsOf_map_word ws
    rw [List.flatMap_cons, wordsOf_append, hbar, ih, List.flatten_cons]

theorem printed_plainSyntax (argv : List Word) (rest : List (List Word)) :
    Printed (plainSyntax argv rest).tokens := by
  have words : ∀ (ws : List Word), ∀ t ∈ ws.map Token.word, (∃ w, t = .word w) ∨ t = .pipe := by
    intro ws t ht
    obtain ⟨w, -, rfl⟩ := List.mem_map.1 ht
    exact Or.inl ⟨w, rfl⟩
  intro t ht
  rw [tokens_plainSyntax] at ht
  rcases List.mem_append.1 ht with ht | ht
  · exact words argv t ht
  · obtain ⟨ws, -, ht⟩ := List.mem_flatMap.1 ht
    rcases List.mem_cons.1 ht with rfl | ht
    · exact Or.inr rfl
    · exact words ws t ht

/-- A pipeline of plain words is parsed from what is printed of it. -/
theorem parse_printCmdline {p : AstPipeline} (hp : p.WellFormed)
    (hw : PlainWords (p.commands.map AstCommand.argv).flatten) :
    ∃ q, (astParseCommandLine .fresh (printCmdline p)).1 = .ast ⟨[q]⟩ ∧
      q.commands.map AstCommand.argv = p.commands.map AstCommand.argv := by
  obtain ⟨argv, rest, hargv⟩ : ∃ argv rest, p.commands.map AstCommand.argv = argv :: rest := by
    apply List.exists_cons_of_ne_nil
    intro hnil
    exact hp.1 (List.map_eq_nil_iff.1 hnil)
  have hne : ∀ ws ∈ argv :: rest, ws ≠ [] := by
    intro ws hws
    rw [← hargv] at hws
    obtain ⟨c, hc, rfl⟩ := List.mem_map.1 hws
    exact hp.2 c hc
  rw [hargv, ← wordsOf_plainSyntax] at hw
  have hlex : lex (printCmdline p) = (plainSyntax argv rest).tokens := by
    rw [← lex_blank (c := ' ') rfl, printCmdline_eq hargv hne]
    exact lex_print (printed_plainSyntax argv rest) hw
  have hline : LineSyntax.WellFormed ⟨0, [(plainSyntax argv rest, [])]⟩ := by
    refine ⟨fun x hx => ?_, fun x hx => (nomatch hx)⟩
    rw [List.mem_singleton.1 hx]
    exact plainSyntax_wellFormed hne
  refine ⟨LineSyntax.itemAst (plainSyntax argv rest, []), ?_, ?_⟩
  · rw [astParseCommandLine_fst, Scanner.fresh_tokens, hlex]
    exact (parseTokens_ast_iff _ _).2 ⟨_, hline, by simp [LineSyntax.tokens, LineSyntax.itemTokens],
      rfl⟩
  · rw [hargv]
    exact argv_plainSyntax argv rest

/-! ## The words of a line -/

theorem words_sublist (c : CommandSyntax) : c.words.Sublist (wordsOf c.tokens) := by
  induction c with
  | nil => exact .slnil
  | cons i c ih =>
    cases i with
    | word w => exact ih.cons_cons w
    | input file => exact ih.cons file
    | output op file => cases op <;> exact ih.cons file

/-- The words of the commands of a pipeline, in their order, are words of its tokens. -/
theorem commands_words_sublist (p : PipelineSyntax) :
    (p.commands.map CommandSyntax.words).flatten.Sublist (wordsOf p.tokens) := by
  obtain ⟨first, rest⟩ := p
  rw [PipelineSyntax.commands, List.map_cons, List.flatten_cons, PipelineSyntax.tokens,
    wordsOf_append]
  apply (words_sublist first).append
  induction rest with
  | nil => exact .slnil
  | cons x rest ih =>
    obtain ⟨amp, c⟩ := x
    have hbar : wordsOf (PipelineSyntax.barToken amp :: c.tokens) = wordsOf c.tokens := by
      cases amp <;> rfl
    rw [List.flatMap_cons, wordsOf_append, hbar, List.map_cons, List.map_cons, List.flatten_cons]
    exact (words_sublist c).append ih

theorem item_words_sublist {l : LineSyntax} {x : PipelineSyntax × List Separator}
    (hx : x ∈ l.items) : (x.1.commands.map CommandSyntax.words).flatten.Sublist
      (wordsOf l.tokens) := by
  apply (commands_words_sublist x.1).trans
  apply List.Sublist.filterMap
  apply (List.sublist_append_left x.1.tokens (x.2.map Separator.token)).trans
  apply List.Sublist.trans _ (List.sublist_append_right _ _)
  rw [List.flatMap_def]
  exact List.sublist_flatten_of_mem (List.mem_map_of_mem hx)

/-- What earlier lines leave in the scanner closes no double quote. -/
theorem unquoting_after (lines : List (List Char)) : Unquoting (scannerAfter lines).buffer := by
  have run : ∀ (lines : List (List Char)) (sc : Scanner), Unquoting sc.buffer →
      Unquoting (lines.foldl (fun sc line => (astParseCommandLine sc line).2) sc).buffer := by
    intro lines
    induction lines with
    | nil => intro sc h; exact h
    | cons line lines ih =>
      intro sc h
      apply ih
      have hsnd : (astParseCommandLine sc line).2 =
          (shellTables.drive Scanner.yylex
            ((Scanner.unread { sc with inputline := line }).length + 1) shellTables.initial
            { sc with inputline := line }).2 := rfl
      change Unquoting (astParseCommandLine sc line).2.buffer
      rw [hsnd]
      exact drive_invariant (I := fun sc : Scanner => Unquoting sc.buffer)
        (fun _ => Scanner.unquoting_yylex) _ _ _ h
  exact run lines .fresh (unquoting_of_guarded .nil)

/-! ## Main result -/

/-- **Printing and parsing**: what `print_cmdline` prints of a pipeline of a line without double
quotes, whatever lines have come before it, is accepted by a fresh scanner as one pipeline of the
same commands. -/
theorem print_cmdline_parse (lines : List (List Char)) (line : List Char) (cl : AstCommandLine)
    (hq : '"' ∉ line) (h : (astParseCommandLine (scannerAfter lines) line).1 = .ast cl)
    (p : AstPipeline) (hp : p ∈ cl.pipes) :
    ∃ q, (astParseCommandLine .fresh (printCmdline p)).1 = .ast ⟨[q]⟩ ∧
      q.commands.length = p.commands.length ∧
      q.commands.map AstCommand.argv = p.commands.map AstCommand.argv := by
  rw [astParseCommandLine_fst] at h
  have hwf := parse_wellFormed h p hp
  obtain ⟨l, hl, ht, rfl⟩ := (parseTokens_ast_iff _ cl).1 h
  obtain ⟨x, hx, rfl⟩ := List.mem_map.1 hp
  have hplain : PlainWords (wordsOf l.tokens) := by
    rw [ht]
    -- the end of an earlier line may still be to be reported: then the line itself is not read
    by_cases he : (scannerAfter lines).eofPending = true
    · have hu := unquoting_after lines [] List.not_mem_nil
      simpa [Scanner.tokens, Scanner.unread, he] using hu
    · have hu := unquoting_after lines line hq
      simpa [Scanner.tokens, Scanner.unread, he] using hu
  have hargv : (LineSyntax.itemAst x).commands.map AstCommand.argv =
      x.1.commands.map CommandSyntax.words := astCommands_argv x.1.first x.1.rest
  obtain ⟨q, hparse, hqargv⟩ := parse_printCmdline hwf
    (hargv ▸ hplain.sublist (item_words_sublist hx))
  refine ⟨q, hparse, ?_, hqargv⟩
  have hlen := congrArg List.length hqargv
  rwa [List.length_map, List.length_map] at hlen

theorem print_cmdline_parse_two :
    ∃ q, (astParseCommandLine .fresh (printCmdline
        ⟨[⟨[['a'], ['b']], true⟩, ⟨[['c']], false⟩], some ['i'], none, false, true⟩)).1 =
          .ast ⟨[q]⟩ ∧
      q.commands.length = 2 ∧ q.commands.map AstCommand.argv = [[['a'], ['b']], [['c']]] :=
  print_cmdline_parse [['l', 's']]
    ['a', ' ', '<', 'i', ' ', 'b', '|', '&', 'c', '&']
    ⟨[⟨[⟨[['a'], ['b']], true⟩, ⟨[['c']], false⟩], some ['i'], none, false, true⟩]⟩ (by decide)
    (by decide) _ (List.mem_singleton.2 rfl)

end Cush
