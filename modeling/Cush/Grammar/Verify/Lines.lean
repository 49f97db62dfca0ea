import Cush.Grammar.Verify.Scan
import Cush.Grammar.Verify.Language

/-!
# One line after another

`ast_parse_command_line` is called once for each line on one static scanner. Its result is the parse
of the tokens of the unread text, which is the line itself only if the lines before have left
nothing in the scanner. A parse that reads its line to the end leaves the scanner as it was
initialised; one that stops early leaves the characters it has looked at, and an end of input it
has met, to the next line.
-/

namespace Cush

open ShiftReduce

theorem delivers_yylex : Delivers Scanner.yylex fun s => lex s.unread := by
  intro s
  rcases s.yylex_spec with ⟨h, hl, -, -⟩ | ⟨t, h, hl⟩
  · rw [h]
    exact hl
  · rw [h]
    exact hl

/-- The tokens of a line for a scanner: those of what an earlier line has left in the buffer, and
of the line unless the end of an earlier one is still to be reported. -/
def Scanner.tokens (sc : Scanner) (line : List Char) : List Token :=
  lex { sc with inputline := line }.unread

theorem Scanner.fresh_tokens (line : List Char) : Scanner.fresh.tokens line = lex line := rfl

/-- `ast_parse_command_line` parses the tokens of the line. -/
theorem astParseCommandLine_fst (sc : Scanner) (line : List Char) :
    (astParseCommandLine sc line).1 = parseTokens (sc.tokens line) := by
  have h := delivers_yylex.drive_fst (T := shellTables)
    ((Scanner.unread { sc with inputline := line }).length + 1) shellTables.initial
    { sc with inputline := line } (Nat.lt_succ_of_le (lex_length_le _))
  unfold astParseCommandLine parseTokens
  exact congrArg ParseResult.ofResult h

/-! ## Leading semicolons -/

/-- The list before the next pipeline once a leading semicolon has been read. -/
def ListConf.afterSemicolon : ListConf → ListConf
  | .start => .sep ⟨[]⟩ false
  | b => b

def Conf.afterSemicolon (k : Conf) : Conf :=
  (k.1.afterSemicolon, k.2)

theorem close_afterSemicolon (b : ListConf) (p : AstPipeline) :
    b.afterSemicolon.close p = b.close p := by
  cases b <;> rfl

theorem closeEmpty_afterSemicolon (b : ListConf) : b.afterSemicolon.closeEmpty = b.closeEmpty := by
  cases b <;> rfl

theorem listNext_afterSemicolon (r : Except ParseStop AstCommandLine) (tok : Option Token) :
    (listNext r tok).map Conf.afterSemicolon = listNext r tok := by
  cases r with
  | error e => rfl
  | ok cl =>
    rcases tok with _ | t
    · rfl
    · cases t <;> rfl

theorem pipelineNext_afterSemicolon (b : ListConf) (p : PipeHelper) (tok : Option Token) :
    pipelineNext b.afterSemicolon p tok = (pipelineNext b p tok).map Conf.afterSemicolon := by
  cases h : makeAstPipeline p with
  | error e =>
    rcases tok with _ | t
    · simp only [pipelineNext, h]
      rfl
    · cases t <;> simp only [pipelineNext, h] <;> rfl
  | ok ap =>
    have ends : ∀ tok, listNext (b.afterSemicolon.close ap) tok =
        (listNext (b.close ap) tok).map Conf.afterSemicolon := by
      intro tok
      rw [close_afterSemicolon, listNext_afterSemicolon]
    rcases tok with _ | t
    · simpa only [pipelineNext, h] using ends none
    · cases t
      case pipe => rfl
      case pipeAmpersand => rfl
      all_goals simpa only [pipelineNext, h] using ends _

theorem recover_afterSemicolon (f : PipeFront) : f.recover.map Conf.afterSemicolon = f.recover := by
  cases f <;> rfl

/-- A leading semicolon makes no difference to what a token does. -/
theorem next_afterSemicolon (k : Conf) (tok : Option Token) :
    Conf.next k.afterSemicolon tok = (Conf.next k tok).map Conf.afterSemicolon := by
  obtain ⟨b, k⟩ := k
  cases k with
  | front f =>
    have stay : frontNext b.afterSemicolon f tok =
        (frontNext b f tok).map Conf.afterSemicolon := by
      cases f with
      | first =>
        have empty : listNext b.afterSemicolon.closeEmpty tok =
            (listNext b.closeEmpty tok).map Conf.afterSemicolon := by
          rw [closeEmpty_afterSemicolon, listNext_afterSemicolon]
        rcases tok with _ | t
        · exact empty
        · cases t
          case pipe => rfl
          all_goals exact empty
      | bar p => rfl
      | barAmp p => rfl
    rcases tok with _ | t
    · exact stay
    · cases t <;> first | rfl | exact stay
  | leadingBar => rfl
  | command f c =>
    have ends : commandNext b.afterSemicolon f c tok =
        (commandNext b f c tok).map Conf.afterSemicolon := by
      unfold commandNext
      cases f.close c with
      | error e => rfl
      | ok p => exact pipelineNext_afterSemicolon b p tok
    rcases tok with _ | t
    · exact ends
    · cases t <;> first | rfl | exact ends
  | redirect f c op =>
    have error : (if op = .greaterAmp then f.recover else .stop (.yyabort .misred)) =
        (if op = .greaterAmp then f.recover else .stop (.yyabort .misred) :
          Result Conf SemValue ParseStop).map Conf.afterSemicolon := by
      split
      · exact (recover_afterSemicolon f).symm
      · rfl
    rcases tok with _ | t
    · exact error
    · cases t
      case word w =>
        simp only [Conf.next, Conf.afterSemicolon]
        cases op.apply c w <;> rfl
      all_goals exact error

theorem parseTokens_semicolons (n : Nat) (ts : List Token) :
    parseTokens (List.replicate n .semicolon ++ ts) = parseTokens ts := by
  induction n with
  | zero => rfl
  | succ n ih =>
    rw [← ih, List.replicate_succ, List.cons_append, parseTokens_eq, parseTokens_eq]
    have hfirst : runMachine Conf.next (.start, .front .first)
        (.semicolon :: (List.replicate n .semicolon ++ ts)) =
          runMachine Conf.next (Conf.afterSemicolon (.start, .front .first))
            (List.replicate n .semicolon ++ ts) := rfl
    rw [hfirst, runMachine_map next_afterSemicolon, ParseResult.ofResult_map]

/-! ## What a parse leaves in the scanner -/

/-- Nothing that matters is left of earlier lines: no end of input, and at most blanks and
semicolons. -/
def Scanner.Settled (sc : Scanner) : Prop :=
  sc.eofPending = false ∧ sc.buffer.all isFiller = true

/-- On a settled scanner a line is parsed as on a fresh one. -/
theorem parse_settled {sc : Scanner} (h : sc.Settled) (line : List Char) :
    (astParseCommandLine sc line).1 = (astParseCommandLine .fresh line).1 := by
  obtain ⟨he, hf⟩ := h
  obtain ⟨n, hn⟩ := lex_filler sc.buffer hf line
  have htok : sc.tokens line = List.replicate n .semicolon ++ lex line := by
    rw [← hn]
    simp [Scanner.tokens, Scanner.unread, he]
  rw [astParseCommandLine_fst, astParseCommandLine_fst, htok, parseTokens_semicolons,
    Scanner.fresh_tokens]

theorem parse_fresh_nil : (astParseCommandLine .fresh []).1 = .ast ⟨[]⟩ := by
  decide

/-- A token sequence that stands for no pipelines consists of semicolons. -/
theorem tokens_of_ast_nil {ts : List Token} (h : parseTokens ts = .ast ⟨[]⟩) :
    ∃ n, ts = List.replicate n .semicolon := by
  obtain ⟨⟨n, items⟩, -, rfl, hast⟩ := (parseTokens_ast_iff ts ⟨[]⟩).1 h
  have hitems : items = [] := by simpa [LineSyntax.ast] using hast
  exact ⟨n, by simp [LineSyntax.tokens, hitems]⟩

/-- A scanner parses every line as a fresh one does only if it is settled. -/
theorem settled_of_parse {sc : Scanner}
    (h : ∀ line, (astParseCommandLine sc line).1 = (astParseCommandLine .fresh line).1) :
    sc.Settled := by
  have he : sc.eofPending = false := by
    by_contra hne
    -- with the end of input pending, the line itself is not read
    have htok : sc.tokens [] = sc.tokens ['a'] := by
      simp [Scanner.tokens, Scanner.unread, Bool.of_not_eq_false hne]
    have h1 := h []
    have h2 := h ['a']
    rw [astParseCommandLine_fst, htok, ← astParseCommandLine_fst, h2] at h1
    exact absurd h1 (by decide)
  refine ⟨he, ?_⟩
  have h0 := h []
  rw [parse_fresh_nil, astParseCommandLine_fst] at h0
  have htok : sc.tokens [] = lex sc.buffer := by simp [Scanner.tokens, Scanner.unread, he]
  rw [htok] at h0
  obtain ⟨n, hn⟩ := tokens_of_ast_nil h0
  exact filler_of_lex _ n hn

/-- Nothing at all is left of earlier lines. -/
def Scanner.Drained (sc : Scanner) : Prop :=
  sc.buffer = [] ∧ sc.eofPending = false

theorem Scanner.Drained.settled {sc : Scanner} (h : sc.Drained) : sc.Settled :=
  ⟨h.2, by rw [h.1]; rfl⟩

theorem Scanner.Drained.tokens {sc : Scanner} (h : sc.Drained) (line : List Char) :
    sc.tokens line = lex line := by
  simp [Scanner.tokens, Scanner.unread, h.1, h.2]

/-- The parser reads the tokens to their end: they are complete pipelines with their separators, and
a part of another pipeline. -/
def ReadToEnd (ts : List Token) : Prop :=
  ∃ k, ConfReads ts k

/-- A parse that reads its line to the end leaves nothing in the scanner. -/
theorem drained_of_readToEnd {sc : Scanner} {line : List Char} (h : ReadToEnd (sc.tokens line)) :
    (astParseCommandLine sc line).2.Drained := by
  obtain ⟨k, hk⟩ := h
  obtain ⟨k', hf⟩ := feedAll_of_confReads hk
  have hfeed : feedAll shellTables.feed shellTables.initial (sc.tokens line) =
      .more k'.stack := by
    have hsim := simulates.feedAll (sc.tokens line) (.start, .front .first)
    rw [hf] at hsim
    exact hsim
  have hnone : ∀ s, (Scanner.yylex s).1 = none → Scanner.Drained (Scanner.yylex s).2 := by
    intro s hs
    rcases s.yylex_spec with ⟨-, -, hb, he⟩ | ⟨t, ht, -⟩
    · exact ⟨hb, he⟩
    · rw [hs] at ht
      cases ht
  exact delivers_yylex.drive_snd hnone _ _ _ _ (Nat.lt_succ_of_le (lex_length_le _)) hfeed

/-- The scanner after a sequence of lines. -/
def scannerAfter (lines : List (List Char)) : Scanner :=
  lines.foldl (fun sc line => (astParseCommandLine sc line).2) .fresh

theorem drained_after {lines : List (List Char)} (h : ∀ line ∈ lines, ReadToEnd (lex line)) :
    (scannerAfter lines).Drained := by
  have run : ∀ (lines : List (List Char)) (sc : Scanner), sc.Drained →
      (∀ line ∈ lines, ReadToEnd (lex line)) →
      (lines.foldl (fun sc line => (astParseCommandLine sc line).2) sc).Drained := by
    intro lines
    induction lines with
    | nil => intro sc hsc _; exact hsc
    | cons line lines ih =>
      intro sc hsc hall
      have hread : ReadToEnd (sc.tokens line) := by
        rw [hsc.tokens]
        exact hall line List.mem_cons_self
      exact ih _ (drained_of_readToEnd hread) fun l hl => hall l (List.mem_cons_of_mem _ hl)
  exact run lines .fresh ⟨rfl, rfl⟩ h

/-! ## Main results -/

/-- **Acceptance and its tree.** -/
theorem ast_parse_command_line_language :
    (∀ (ts : List Token) (cl : AstCommandLine),
      parseTokens ts = .ast cl ↔ ∃ l : LineSyntax, l.WellFormed ∧ l.tokens = ts ∧ l.ast = cl) ∧
    ∀ line : List Char, (astParseCommandLine .fresh line).1 = parseTokens (lex line) :=
  ⟨parseTokens_ast_iff, astParseCommandLine_fst .fresh⟩

theorem astCommands_argv : ∀ (c : CommandSyntax) (rest : List (Bool × CommandSyntax)),
    (PipelineSyntax.astCommands c rest).map AstCommand.argv =
      (c :: rest.map Prod.snd).map CommandSyntax.words := by
  intro c rest
  induction rest generalizing c with
  | nil => rfl
  | cons x rest ih =>
    obtain ⟨amp, d⟩ := x
    simp only [PipelineSyntax.astCommands, List.map_cons, ih d]

/-- A tree that is returned has no empty pipeline and no empty command. -/
theorem parse_wellFormed {ts : List Token} {cl : AstCommandLine} (h : parseTokens ts = .ast cl) :
    cl.WellFormed := by
  obtain ⟨l, hl, -, rfl⟩ := (parseTokens_ast_iff ts cl).1 h
  intro pipe hpipe
  obtain ⟨x, hx, rfl⟩ := List.mem_map.1 hpipe
  have hargv := astCommands_argv x.1.first x.1.rest
  refine ⟨fun hnil => ?_, fun cmd hcmd => ?_⟩
  · change PipelineSyntax.astCommands x.1.first x.1.rest = [] at hnil
    rw [hnil] at hargv
    cases hargv
  · have hmem : cmd.argv ∈ (x.1.first :: x.1.rest.map Prod.snd).map CommandSyntax.words :=
      hargv ▸ List.mem_map_of_mem hcmd
    obtain ⟨c, hc, hw⟩ := List.mem_map.1 hmem
    exact hw ▸ (hl.pipelines x hx).words c hc

/-- **What earlier lines do to later ones**: after a sequence of lines every line is parsed as by a
fresh scanner if and only if those lines have left the scanner settled, and they have if each of
them was read to its end. -/
theorem ast_parse_command_line_history (lines : List (List Char)) :
    ((∀ line, (astParseCommandLine (scannerAfter lines) line).1 =
        (astParseCommandLine .fresh line).1) ↔ (scannerAfter lines).Settled) ∧
      ((∀ line ∈ lines, ReadToEnd (lex line)) → ∀ line,
        (astParseCommandLine (scannerAfter lines) line).1 = (astParseCommandLine .fresh line).1) :=
  ⟨⟨settled_of_parse, parse_settled⟩, fun h => parse_settled (drained_after h).settled⟩

theorem ast_parse_command_line_history_ls (line : List Char) :
    (astParseCommandLine (scannerAfter [['l', 's']]) line).1 =
      (astParseCommandLine .fresh line).1 := by
  refine (ast_parse_command_line_history [['l', 's']]).2 ?_ line
  intro l hl
  rw [List.mem_singleton.1 hl]
  exact ⟨_, confReads_feedAll
    (k := (.start, .command .first ⟨[['l', 's']], none, none, false, false⟩))
    (by rfl)⟩

/-- After `| a`, whose parse stops at the second token, `ls` is taken for an empty line: the end of
the earlier line is still to be reported. -/
theorem ast_parse_command_line_stale :
    ¬ ∀ (lines : List (List Char)) (line : List Char),
      (astParseCommandLine (scannerAfter lines) line).1 = (astParseCommandLine .fresh line).1 := by
  intro h
  exact absurd (h [['|', ' ', 'a']] ['l', 's']) (by decide)

/-- **Returning from a parse**: a tree or null is returned if and only if no `&` before the first
pipeline is taken as its separator, and no assertion but that of `list_back` ever fails. -/
theorem ast_parse_command_line_returns (sc : Scanner) (line : List Char) :
    (((∃ cl, (astParseCommandLine sc line).1 = .ast cl) ∨
        ∃ msg, (astParseCommandLine sc line).1 = .null msg) ↔
      ¬ BackgroundsNothingFirst (sc.tokens line)) ∧
    ∀ a, (astParseCommandLine sc line).1 = .abort a → a = .listBack := by
  rw [astParseCommandLine_fst]
  rcases parseTokens_outcome (sc.tokens line) with ⟨hb, h⟩ | ⟨hb, h⟩
  · rw [h]
    refine ⟨⟨?_, fun hn => absurd hb hn⟩, fun a ha => ?_⟩
    · rintro (⟨cl, hc⟩ | ⟨msg, hm⟩)
      · cases hc
      · cases hm
    · cases ha
      rfl
  · refine ⟨⟨fun _ => hb, fun _ => h⟩, fun a ha => ?_⟩
    rcases h with ⟨cl, hc⟩ | ⟨msg, hm⟩
    · rw [hc] at ha
      cases ha
    · rw [hm] at ha
      cases ha

/-- `& ls` ends the shell in `list_back`. -/
theorem ast_parse_command_line_aborts :
    ¬ ∀ line : List Char, (∃ cl, (astParseCommandLine .fresh line).1 = .ast cl) ∨
      ∃ msg, (astParseCommandLine .fresh line).1 = .null msg := by
  intro h
  have ha : (astParseCommandLine .fresh ['&', ' ', 'l', 's']).1 = .abort .listBack := by decide
  rcases h ['&', ' ', 'l', 's'] with ⟨cl, hc⟩ | ⟨msg, hm⟩
  · rw [ha] at hc
    cases hc
  · rw [ha] at hm
    cases hm

end Cush
