import Cush.Grammar.Verify.Read

/-!
# The language of the parser

`read_line` runs the parser along a well-formed line. Conversely `ConfReads` says what the tokens
read so far look like in every configuration; it is kept by every token (`confReads_next`), so an
accepted token sequence is a well-formed line and its tree the one written
(`parseTokens_ast_iff`), and a parse that ends the shell has sent an empty list to the background
(`parseTokens_outcome`).
-/

namespace Cush

open ShiftReduce

/-! ## Lists of pipelines -/

theorem markBackground_concat (ps : List AstPipeline) (q : AstPipeline) :
    markBackground ⟨ps ++ [q]⟩ = .ok ⟨ps ++ [{ q with bgJob := true }]⟩ := by
  simp [markBackground, listBack, bind, Except.bind, pure, Except.pure]

/-- Before the next pipeline the parser holds the list `cl`. -/
structure ListConf.Reads (b : ListConf) (cl : AstCommandLine) : Prop where
  empty : b.closeEmpty = .ok cl
  push : ∀ p, b.close p = .ok (pushPipeline cl p)

theorem reads_start : ListConf.start.Reads ⟨[]⟩ :=
  ⟨rfl, fun _ => rfl⟩

theorem reads_semi (cl : AstCommandLine) : (ListConf.sep cl false).Reads cl :=
  ⟨rfl, fun _ => rfl⟩

theorem reads_amp {cl cl' : AstCommandLine} (h : markBackground cl = .ok cl') :
    (ListConf.sep cl true).Reads cl' :=
  ⟨h, fun p => by simp [ListConf.close, h, Except.map]⟩

/-- A separator after a pipeline: `&` sends the pipeline before it to the background. -/
theorem listNext_sep (ps : List AstPipeline) (q : AstPipeline) (s : Separator) :
    ∃ b, listNext (.ok ⟨ps ++ [q]⟩) (some s.token) = .more (b, .front .first) ∧
      b.Reads ⟨ps ++ [{ q with bgJob := q.bgJob || decide (s = .amp) }]⟩ := by
  cases s with
  | semi => exact ⟨_, rfl, by simpa using reads_semi _⟩
  | amp => exact ⟨_, rfl, by simpa using reads_amp (markBackground_concat ps q)⟩

theorem front_sep (b : ListConf) (s : Separator) :
    Conf.next (b, .front .first) (some s.token) = listNext b.closeEmpty (some s.token) := by
  cases s <;> rfl

theorem command_sep {b : ListConf} {f : PipeFront} {p : PipelineSyntax} (hp : p.WellFormed)
    (hc : f.close p.last.helper = .ok ⟨p.helpers⟩) (s : Separator) :
    Conf.next (b, .command f p.last.helper) (some s.token) =
      listNext (b.close p.ast) (some s.token) := by
  cases s <;>
    simp [Separator.token, Conf.next, Token.redirectOp, commandNext, hc, pipelineNext,
      PipelineSyntax.makeAstPipeline_helpers hp]

theorem command_end {b : ListConf} {f : PipeFront} {p : PipelineSyntax} (hp : p.WellFormed)
    (hc : f.close p.last.helper = .ok ⟨p.helpers⟩) :
    Conf.next (b, .command f p.last.helper) none = listNext (b.close p.ast) none := by
  simp [Conf.next, commandNext, hc, pipelineNext, PipelineSyntax.makeAstPipeline_helpers hp]

/-! ## Reading a line -/

theorem read_seps (seps : List Separator) : ∀ (b : ListConf) (ps : List AstPipeline)
    (q : AstPipeline), b.Reads ⟨ps ++ [q]⟩ →
      ∃ b', feedAll Conf.next (b, .front .first) (seps.map Separator.token) =
          .more (b', .front .first) ∧
        b'.Reads ⟨ps ++ [{ q with bgJob := q.bgJob || seps.any (· = .amp) }]⟩ := by
  induction seps with
  | nil => intro b ps q h; exact ⟨b, rfl, by simpa using h⟩
  | cons s seps ih =>
    intro b ps q h
    obtain ⟨b1, h1, hr1⟩ := listNext_sep ps q s
    obtain ⟨b2, h2, hr2⟩ := ih b1 ps _ hr1
    refine ⟨b2, ?_, by simpa [Bool.or_assoc] using hr2⟩
    simp only [List.map_cons, feedAll, front_sep, h.empty, h1]
    exact h2

theorem read_lead (n : Nat) : ∀ b : ListConf, b.Reads ⟨[]⟩ →
    ∃ b', feedAll Conf.next (b, .front .first) (List.replicate n .semicolon) =
        .more (b', .front .first) ∧ b'.Reads ⟨[]⟩ := by
  induction n with
  | zero => intro b h; exact ⟨b, rfl, h⟩
  | succ n ih =>
    intro b h
    obtain ⟨b', h1, h2⟩ := ih _ (reads_semi ⟨[]⟩)
    refine ⟨b', ?_, h2⟩
    have hs := front_sep b .semi
    rw [h.empty] at hs
    simp only [List.replicate_succ, feedAll]
    rw [show Token.semicolon = Separator.semi.token from rfl, hs]
    exact h1

/-- A pipeline and the separators after it. -/
theorem read_item_line {p : PipelineSyntax} (hp : p.WellFormed) (s : Separator)
    (seps : List Separator) {b : ListConf} {ps : List AstPipeline} (h : b.Reads ⟨ps⟩) :
    ∃ b', feedAll Conf.next (b, .front .first) (LineSyntax.itemTokens (p, s :: seps)) =
        .more (b', .front .first) ∧
      b'.Reads ⟨ps ++ [LineSyntax.itemAst (p, s :: seps)]⟩ := by
  obtain ⟨f, hread, hclose⟩ := read_pipeline b hp
  obtain ⟨b1, h1, hr1⟩ := listNext_sep ps p.ast s
  obtain ⟨b2, h2, hr2⟩ := read_seps seps b1 ps _ hr1
  refine ⟨b2, ?_, ?_⟩
  · rw [LineSyntax.itemTokens, feedAll_append hread]
    simp only [List.map_cons, feedAll, command_sep hp hclose, h.push]
    rw [show pushPipeline ⟨ps⟩ p.ast = ⟨ps ++ [p.ast]⟩ from rfl, h1]
    exact h2
  · have hbg : p.ast.bgJob = false := rfl
    simpa [LineSyntax.itemAst, hbg] using hr2

theorem read_items_line (items : List (PipelineSyntax × List Separator)) :
    ∀ (b : ListConf) (ps : List AstPipeline), b.Reads ⟨ps⟩ →
      (∀ x ∈ items, x.1.WellFormed ∧ x.2 ≠ []) →
      ∃ b', feedAll Conf.next (b, .front .first) (items.flatMap LineSyntax.itemTokens) =
          .more (b', .front .first) ∧ b'.Reads ⟨ps ++ items.map LineSyntax.itemAst⟩ := by
  induction items with
  | nil => intro b ps h _; exact ⟨b, rfl, by simpa using h⟩
  | cons x items ih =>
    intro b ps h hx
    obtain ⟨p, seps⟩ := x
    obtain ⟨hp, hne⟩ := hx _ List.mem_cons_self
    cases seps with
    | nil => exact absurd rfl hne
    | cons s seps =>
      obtain ⟨b1, h1, hr1⟩ := read_item_line hp s seps h
      obtain ⟨b2, h2, hr2⟩ := ih b1 _ hr1 fun y hy => hx y (List.mem_cons_of_mem _ hy)
      refine ⟨b2, ?_, by simpa using hr2⟩
      rw [List.flatMap_cons, feedAll_append h1]
      exact h2

/-- The end of the line after a separator. -/
theorem front_end (b : ListConf) : Conf.next (b, .front .first) none = listNext b.closeEmpty none :=
  rfl

/-- **A well-formed line is accepted** with the tree it stands for. -/
theorem read_line {l : LineSyntax} (hl : l.WellFormed) :
    runMachine Conf.next (.start, .front .first) l.tokens = .accept (.cmdline l.ast) := by
  obtain ⟨n, items⟩ := l
  obtain ⟨b, hlead, hb⟩ := read_lead n _ reads_start
  rw [LineSyntax.tokens, runMachine_append hlead]
  rcases List.eq_nil_or_concat' items with rfl | ⟨init, ⟨p, seps⟩, rfl⟩
  · rw [List.flatMap_nil, runMachine, front_end, hb.empty]
    rfl
  · have hinit : ∀ x ∈ init, x.1.WellFormed ∧ x.2 ≠ [] := by
      intro x hx
      exact ⟨hl.pipelines x (by simp [hx]), hl.separated x (by simpa using hx)⟩
    have hp : p.WellFormed := hl.pipelines (p, seps) (by simp)
    cases seps with
    | cons s seps =>
      have hall : ∀ x ∈ init ++ [(p, s :: seps)], x.1.WellFormed ∧ x.2 ≠ [] := by
        intro x hx
        rcases List.mem_append.1 hx with hx | hx
        · exact hinit x hx
        · rw [List.mem_singleton.1 hx]; exact ⟨hp, by simp⟩
      obtain ⟨b', hread, hb'⟩ := read_items_line _ b [] hb hall
      rw [runMachine_of_feedAll hread, front_end, hb'.empty]
      rfl
    | nil =>
      obtain ⟨b', hread, hb'⟩ := read_items_line init b [] hb hinit
      obtain ⟨f, hpipe, hclose⟩ := read_pipeline b' hp
      have htok : (init ++ [(p, [])]).flatMap LineSyntax.itemTokens =
          init.flatMap LineSyntax.itemTokens ++ p.tokens := by
        simp [LineSyntax.itemTokens]
      rw [htok, runMachine_append hread, runMachine_of_feedAll hpipe, command_end hp hclose,
        hb'.push]
      simp [listNext, pushPipeline, LineSyntax.ast, LineSyntax.itemAst, PipelineSyntax.ast]

/-! ## What has been read -/

theorem reads_of_wellFormed_concat {n : Nat} {init : List (PipelineSyntax × List Separator)}
    {x : PipelineSyntax × List Separator} (h : LineSyntax.WellFormed ⟨n, init ++ [x]⟩) :
    x.1.WellFormed ∧ ∀ y ∈ init, y.1.WellFormed ∧ y.2 ≠ [] := by
  refine ⟨h.pipelines x (by simp), fun y hy => ⟨h.pipelines y (by simp [hy]), ?_⟩⟩
  exact h.separated y (by simpa using hy)

/-- The tokens of the complete pipelines of a list, with the separators after each of them. An `&`
before the first pipeline leaves the parser with an empty list to send to the background. -/
inductive ListReads (us : List Token) : ListConf → Prop
  | line {b : ListConf} (l : LineSyntax) (hl : ∀ x ∈ l.items, x.1.WellFormed ∧ x.2 ≠ [])
      (ht : l.tokens = us) (hb : b.Reads l.ast) : ListReads us b
  | dead (n : Nat) (ht : us = List.replicate n .semicolon ++ [.ampersand]) :
      ListReads us (.sep ⟨[]⟩ true)

/-- The commands of a pipeline read so far, with the bar after them. -/
def FrontReads (us : List Token) : PipeFront → Prop
  | .first => us = []
  | .bar p => ∃ P : PipelineSyntax, P.WellFormed ∧ us = P.tokens ++ [.pipe] ∧ p = ⟨P.helpers⟩
  | .barAmp p =>
    ∃ P : PipelineSyntax, P.WellFormed ∧ us = P.tokens ++ [.pipeAmpersand] ∧ p = ⟨P.helpers⟩

/-- The words and redirections of a command read so far. -/
def CommandReads (us : List Token) (f : PipeFront) (c : CmdHelper) : Prop :=
  ∃ us1 cs, us = us1 ++ CommandSyntax.tokens cs ∧ FrontReads us1 f ∧ cs ≠ [] ∧ cs.Unambiguous ∧
    c = cs.helper

def RedirectOp.token : RedirectOp → Token
  | .less => .less
  | .greater => .greater
  | .greaterGreater => .greaterGreater
  | .greaterAmp => .greaterAmpersand

def PipeReads (us : List Token) : PipeConf → Prop
  | .front f => FrontReads us f
  | .leadingBar => us = [.pipe]
  | .command f c => CommandReads us f c
  | .redirect f none op => ∃ us1, us = us1 ++ [op.token] ∧ FrontReads us1 f
  | .redirect f (some c) op => ∃ us1, us = us1 ++ [op.token] ∧ CommandReads us1 f c

/-- What the tokens read so far look like in a configuration. -/
def ConfReads (us : List Token) (k : Conf) : Prop :=
  ∃ us1 us2, us = us1 ++ us2 ∧ ListReads us1 k.1 ∧ PipeReads us2 k.2

/-- The lookahead tokens with which an empty pipeline position is left. -/
def NoPipeline : Option Token → Prop
  | none | some .semicolon | some .ampersand | some .pipeAmpersand | some .newline => True
  | _ => False

/-- The lookahead tokens with which a pipeline ends. -/
def EndsPipeline : Option Token → Prop
  | none | some .semicolon | some .ampersand | some .newline => True
  | _ => False

/-- The tokens read send an empty list to the background: an `&` comes before the first pipeline,
and what follows it, up to the token `tok`, is nothing or one pipeline. -/
def BackgroundsNothing (us : List Token) (tok : Option Token) : Prop :=
  ∃ n vs, us = List.replicate n .semicolon ++ .ampersand :: vs ∧
    ((vs = [] ∧ NoPipeline tok) ∨
      ∃ P : PipelineSyntax, P.WellFormed ∧ vs = P.tokens ∧ EndsPipeline tok)

/-- What one more token, or the end marker, leads to. -/
def Outcome (us : List Token) (tok : Option Token) : Result Conf SemValue ParseStop → Prop
  | .more k => ∃ t, tok = some t ∧ ConfReads (us ++ [t]) k
  | .accept v => tok = none ∧ ∃ l : LineSyntax, l.WellFormed ∧ l.tokens = us ∧ v = .cmdline l.ast
  | .stop (.yyabort _) => True
  | .stop (.abort a) => a = .listBack ∧ BackgroundsNothing us tok
  | .syntaxError => True
  | .stuck => False

/-! ## One more separator, one more pipeline -/

namespace LineSyntax

/-- A separator after a line. -/
theorem exists_addSep {l : LineSyntax} (hl : l.WellFormed) (s : Separator)
    (hs : s = .semi ∨ l.items ≠ []) :
    ∃ l' : LineSyntax, (∀ x ∈ l'.items, x.1.WellFormed ∧ x.2 ≠ []) ∧
      l'.tokens = l.tokens ++ [s.token] ∧
      ∃ b, listNext (.ok l.ast) (some s.token) = .more (b, .front .first) ∧ b.Reads l'.ast := by
  obtain ⟨n, items⟩ := l
  rcases List.eq_nil_or_concat' items with rfl | ⟨init, ⟨p, seps⟩, rfl⟩
  · obtain rfl : s = .semi := hs.resolve_right (fun h => h rfl)
    refine ⟨⟨n + 1, []⟩, by simp, ?_, _, rfl, reads_semi _⟩
    simp [tokens, Separator.token, List.replicate_succ']
  · obtain ⟨hp, hinit⟩ := reads_of_wellFormed_concat hl
    refine ⟨⟨n, init ++ [(p, seps ++ [s])]⟩, ?_, ?_, ?_⟩
    · intro x hx
      rcases List.mem_append.1 hx with hx | hx
      · exact hinit x hx
      · rw [List.mem_singleton.1 hx]; exact ⟨hp, by simp⟩
    · simp [tokens, itemTokens]
    · obtain ⟨b, hb, hr⟩ := listNext_sep (init.map itemAst) (itemAst (p, seps)) s
      refine ⟨b, ?_, ?_⟩
      · rw [show ast ⟨n, init ++ [(p, seps)]⟩ = ⟨init.map itemAst ++ [itemAst (p, seps)]⟩ by
          simp [ast]]
        exact hb
      · have he : itemAst (p, seps ++ [s]) =
            { itemAst (p, seps) with bgJob := (itemAst (p, seps)).bgJob || decide (s = .amp) } := by
          simp [itemAst]
        rw [show ast ⟨n, init ++ [(p, seps ++ [s])]⟩ =
          ⟨init.map itemAst ++ [itemAst (p, seps ++ [s])]⟩ by simp [ast], he]
        exact hr

/-- A pipeline after a separated line. -/
def addPipeline (l : LineSyntax) (p : PipelineSyntax) : LineSyntax :=
  ⟨l.lead, l.items ++ [(p, [])]⟩

theorem wellFormed_addPipeline {l : LineSyntax} {p : PipelineSyntax}
    (hl : ∀ x ∈ l.items, x.1.WellFormed ∧ x.2 ≠ []) (hp : p.WellFormed) :
    (l.addPipeline p).WellFormed := by
  refine ⟨fun x hx => ?_, fun x hx => ?_⟩
  · rcases List.mem_append.1 hx with hx | hx
    · exact (hl x hx).1
    · rw [List.mem_singleton.1 hx]; exact hp
  · exact (hl x (by simpa [addPipeline] using hx)).2

theorem tokens_addPipeline (l : LineSyntax) (p : PipelineSyntax) :
    (l.addPipeline p).tokens = l.tokens ++ p.tokens := by
  simp [tokens, addPipeline, itemTokens]

theorem ast_addPipeline (l : LineSyntax) (p : PipelineSyntax) :
    (l.addPipeline p).ast = pushPipeline l.ast p.ast := by
  simp [ast, addPipeline, itemAst, pushPipeline, PipelineSyntax.ast]

theorem wellFormed_of_separated {l : LineSyntax} (hl : ∀ x ∈ l.items, x.1.WellFormed ∧ x.2 ≠ []) :
    l.WellFormed :=
  ⟨fun x hx => (hl x hx).1, fun x hx => (hl x (List.dropLast_subset _ hx)).2⟩

end LineSyntax

/-! ## One token -/

theorem outcome_line {l : LineSyntax} (hl : l.WellFormed) (tok : Option Token) :
    Outcome l.tokens tok (listNext (.ok l.ast) tok) := by
  have sep : ∀ s : Separator, (s = .semi ∨ l.items ≠ []) →
      Outcome l.tokens (some s.token) (listNext (.ok l.ast) (some s.token)) := by
    intro s hs
    obtain ⟨l', hl', ht, b, hb, hr⟩ := LineSyntax.exists_addSep hl s hs
    rw [hb]
    exact ⟨_, rfl, _, [], (List.append_nil _).symm, .line l' hl' ht hr, rfl⟩
  rcases tok with _ | t
  · exact ⟨rfl, l, hl, rfl, rfl⟩
  · cases t
    case semicolon => exact sep .semi (Or.inl rfl)
    case ampersand =>
      by_cases hi : l.items = []
      · obtain ⟨n, items⟩ := l
        obtain rfl : items = [] := hi
        refine ⟨_, rfl, _, [], (List.append_nil _).symm, .dead n ?_, rfl⟩
        simp [LineSyntax.tokens]
      · exact sep .amp (Or.inr hi)
    all_goals trivial

/-- Where no pipeline follows the separator. -/
theorem outcome_empty {us : List Token} {b : ListConf} (h : ListReads us b) {tok : Option Token}
    (ht : NoPipeline tok) : Outcome us tok (listNext b.closeEmpty tok) := by
  cases h with
  | line l hl hu hb =>
    rw [hb.empty, ← hu]
    exact outcome_line (LineSyntax.wellFormed_of_separated hl) tok
  | dead n hu => exact ⟨rfl, n, [], hu, Or.inl ⟨rfl, ht⟩⟩

theorem outcome_pipeline {us : List Token} {b : ListConf} (h : ListReads us b) {p : PipelineSyntax}
    (hp : p.WellFormed) {tok : Option Token}
    (ht : tok = some .pipe ∨ tok = some .pipeAmpersand ∨ EndsPipeline tok) :
    Outcome (us ++ p.tokens) tok (pipelineNext b ⟨p.helpers⟩ tok) := by
  have ends : EndsPipeline tok → Outcome (us ++ p.tokens) tok (listNext (b.close p.ast) tok) := by
    intro ht
    cases h with
    | line l hl hu hb =>
      rw [hb.push, ← hu, ← LineSyntax.ast_addPipeline, ← LineSyntax.tokens_addPipeline]
      exact outcome_line (LineSyntax.wellFormed_addPipeline hl hp) tok
    | dead n hu =>
      refine ⟨rfl, n, p.tokens, ?_, Or.inr ⟨p, hp, rfl, ht⟩⟩
      rw [hu, List.append_assoc]
      rfl
  have bar : ∀ t f, FrontReads (p.tokens ++ [t]) f →
      Outcome (us ++ p.tokens) (some t) (.more (b, .front f)) := by
    intro t f hf
    exact ⟨t, rfl, us, p.tokens ++ [t], List.append_assoc _ _ _, h, hf⟩
  rcases ht with rfl | rfl | ht
  · exact bar .pipe _ ⟨p, hp, rfl, rfl⟩
  · exact bar .pipeAmpersand _ ⟨p, hp, rfl, rfl⟩
  · have hn : pipelineNext b ⟨p.helpers⟩ tok = listNext (b.close p.ast) tok := by
      rcases tok with _ | t
      · simp [pipelineNext, PipelineSyntax.makeAstPipeline_helpers hp]
      · cases t <;> first
          | exact ht.elim
          | simp [pipelineNext, PipelineSyntax.makeAstPipeline_helpers hp]
    rw [hn]
    exact ends ht

/-- Adding the finished command to its pipeline gives a well-formed pipeline or an error. -/
theorem front_close {us : List Token} {f : PipeFront} (hf : FrontReads us f) {cs : CommandSyntax}
    (hu : cs.Unambiguous) :
    (∃ m, f.close cs.helper = .error (.yyabort m)) ∨
      ∃ p : PipelineSyntax, p.WellFormed ∧ us ++ cs.tokens = p.tokens ∧
        f.close cs.helper = .ok ⟨p.helpers⟩ := by
  have bar : ∀ (P : PipelineSyntax) (amp : Bool), P.WellFormed →
      us = P.tokens ++ [PipelineSyntax.barToken amp] →
      f.close cs.helper = addToPipeline ⟨P.helpers⟩ cs.helper amp →
      (∃ m, f.close cs.helper = .error (.yyabort m)) ∨
        ∃ p : PipelineSyntax, p.WellFormed ∧ us ++ cs.tokens = p.tokens ∧
          f.close cs.helper = .ok ⟨p.helpers⟩ := by
    intro P amp hP hus hclose
    rw [hclose, P.addToPipeline_helpers (amp, cs)]
    by_cases ho : P.last.outputs = []
    · by_cases hi : cs.inputs = []
      · by_cases hw : cs.words = []
        · exact Or.inl ⟨.invnul, by simp [ho, hi, hw]⟩
        · refine Or.inr ⟨P.add (amp, cs), ?_, ?_, by simp [ho, hi, hw]⟩
          · exact PipelineSyntax.wellFormed_add.2 ⟨hP, ho, hi, hw, hu⟩
          · rw [PipelineSyntax.tokens_add, hus, List.append_assoc]
            rfl
      · exact Or.inl ⟨.ambinp, by simp [ho, hi]⟩
    · exact Or.inl ⟨.ambout, by simp [ho]⟩
  cases f with
  | first =>
    rw [PipeFront.close, addToPipeline_nil]
    by_cases hw : cs.words = []
    · exact Or.inl ⟨.invnul, if_pos hw⟩
    · refine Or.inr ⟨⟨cs, []⟩, PipelineSyntax.wellFormed_first.2 ⟨hw, hu⟩, ?_, if_neg hw⟩
      rw [show us = [] from hf]
      simp [PipelineSyntax.tokens]
  | bar p =>
    obtain ⟨P, hP, hus, rfl⟩ := hf
    exact bar P false hP hus rfl
  | barAmp p =>
    obtain ⟨P, hP, hus, rfl⟩ := hf
    exact bar P true hP hus rfl

theorem outcome_command {us vs : List Token} {b : ListConf} (h : ListReads us b) {f : PipeFront}
    {c : CmdHelper} (hc : CommandReads vs f c) {tok : Option Token}
    (ht : tok = some .pipe ∨ tok = some .pipeAmpersand ∨ EndsPipeline tok) :
    Outcome (us ++ vs) tok (commandNext b f c tok) := by
  obtain ⟨us1, cs, rfl, hf, -, hu, rfl⟩ := hc
  rcases front_close hf hu with ⟨m, he⟩ | ⟨p, hp, hv, hok⟩
  · simp only [commandNext, he]
    trivial
  · simp only [commandNext, hok, hv]
    exact outcome_pipeline h hp ht

/-! ## Redirections -/

/-- The redirection an operator and a file name make. -/
def RedirectOp.item : RedirectOp → Word → CommandItem
  | .less, w => .input w
  | .greater, w => .output .truncate w
  | .greaterGreater, w => .output .append w
  | .greaterAmp, w => .output .withStderr w

theorem RedirectOp.item_tokens (op : RedirectOp) (w : Word) :
    (op.item w).tokens = [op.token, .word w] := by
  cases op <;> rfl

theorem commandReads_item {us : List Token} {f : PipeFront} (hf : FrontReads us f)
    (i : CommandItem) : CommandReads (us ++ i.tokens) f (CommandSyntax.helper [i]) := by
  refine ⟨us, [i], by simp [CommandSyntax.tokens], hf, List.cons_ne_nil _ _, ?_, rfl⟩
  cases i <;> exact ⟨by simp [CommandSyntax.inputs], by simp [CommandSyntax.outputs]⟩

theorem commandReads_addWord {us : List Token} {f : PipeFront} {c : CmdHelper}
    (hc : CommandReads us f c) (w : Word) :
    CommandReads (us ++ [.word w]) f { c with words := c.words ++ [w] } := by
  obtain ⟨us1, cs, rfl, hf, -, hu, rfl⟩ := hc
  refine ⟨us1, cs ++ [.word w], ?_, hf, by simp, ?_, (cs.helper_addWord w).symm⟩
  · rw [CommandSyntax.tokens_append, List.append_assoc]
    rfl
  · refine ⟨?_, ?_⟩
    · simpa [CommandSyntax.inputs_append, CommandSyntax.inputs] using hu.inputs
    · simpa [CommandSyntax.outputs_append, CommandSyntax.outputs] using hu.outputs

/-- One more redirection of a command is recorded, or ambiguous. -/
theorem commandReads_apply {us : List Token} {f : PipeFront} {c : CmdHelper}
    (hc : CommandReads us f c) (op : RedirectOp) (w : Word) :
    (∃ m, op.apply (some c) w = .error (.yyabort m)) ∨
      ∃ c', op.apply (some c) w = .ok c' ∧ CommandReads (us ++ [op.token, .word w]) f c' := by
  obtain ⟨us1, cs, rfl, hf, -, hu, rfl⟩ := hc
  have htok : ∀ i : CommandItem, us1 ++ cs.tokens ++ i.tokens =
      us1 ++ CommandSyntax.tokens (cs ++ [i]) := by
    intro i
    rw [CommandSyntax.tokens_append, List.append_assoc]
    simp [CommandSyntax.tokens]
  have output : ∀ o : OutputOp, cs.outputs = [] →
      CommandReads (us1 ++ cs.tokens ++ (CommandItem.output o w).tokens) f
        (CommandSyntax.helper (cs ++ [.output o w])) := by
    intro o ho
    refine ⟨us1, _, htok _, hf, by simp, ⟨?_, ?_⟩, rfl⟩
    · simpa [CommandSyntax.inputs_append, CommandSyntax.inputs] using hu.inputs
    · rw [CommandSyntax.outputs_append, ho]
      simp [CommandSyntax.outputs]
  have input : cs.inputs = [] → CommandReads (us1 ++ cs.tokens ++ (CommandItem.input w).tokens) f
      (CommandSyntax.helper (cs ++ [.input w])) := by
    intro hi
    refine ⟨us1, _, htok _, hf, by simp, ⟨?_, ?_⟩, rfl⟩
    · rw [CommandSyntax.inputs_append, hi]
      simp [CommandSyntax.inputs]
    · simpa [CommandSyntax.outputs_append, CommandSyntax.outputs] using hu.outputs
  have hin : cs.helper.ioredInput.isSome = true ↔ cs.inputs ≠ [] := CommandSyntax.inputFile_isSome
  have hout : cs.helper.ioredOutput.isSome = true ↔ cs.outputs ≠ [] :=
    CommandSyntax.outputFile_isSome
  by_cases hop : op = .less
  · subst hop
    by_cases hi : cs.inputs = []
    · refine Or.inr ⟨_, ?_, input hi⟩
      rw [CommandSyntax.helper_addInput hi]
      simp [RedirectOp.apply, hin, hi, RedirectOp.helper, initCmd]
    · exact Or.inl ⟨.ambinp, by simp [RedirectOp.apply, hin, hi]⟩
  · by_cases ho : cs.outputs = []
    · cases op with
      | less => exact absurd rfl hop
      | greater =>
        refine Or.inr ⟨_, ?_, output .truncate ho⟩
        rw [CommandSyntax.helper_addOutput ho]
        simp [RedirectOp.apply, hout, ho, RedirectOp.helper, initCmd]
      | greaterGreater =>
        refine Or.inr ⟨_, ?_, output .append ho⟩
        rw [CommandSyntax.helper_addOutput ho]
        simp [RedirectOp.apply, hout, ho, RedirectOp.helper, initCmd]
      | greaterAmp =>
        refine Or.inr ⟨_, ?_, output .withStderr ho⟩
        rw [CommandSyntax.helper_addOutput ho]
        simp [RedirectOp.apply, hout, ho, RedirectOp.helper, initCmd]
    · exact Or.inl ⟨.ambout, by simp [RedirectOp.apply, hop, hout, ho]⟩

theorem outcome_redirect {us vs : List Token} {b : ListConf} (h : ListReads us b) {f : PipeFront}
    {c : Option CmdHelper} {op : RedirectOp} (hc : PipeReads vs (.redirect f c op))
    (tok : Option Token) : Outcome (us ++ vs) tok (Conf.next (b, .redirect f c op) tok) := by
  have error : Outcome (us ++ vs) tok
      (if op = .greaterAmp then f.recover else .stop (.yyabort .misred)) := by
    split
    · cases f <;> trivial
    · trivial
  rcases tok with _ | t
  · exact error
  cases t
  case word w =>
    cases c with
    | none =>
      obtain ⟨us1, rfl, hf⟩ := hc
      refine ⟨_, rfl, us, _, List.append_assoc _ _ _, h, ?_⟩
      rw [List.append_assoc, List.singleton_append, ← RedirectOp.item_tokens]
      have hi := commandReads_item hf (op.item w)
      cases op <;> exact hi
    | some c =>
      obtain ⟨us1, rfl, hc⟩ := hc
      rcases commandReads_apply hc op w with ⟨m, he⟩ | ⟨c', hok, hc'⟩
      · simp only [Conf.next, he]
        trivial
      · simp only [Conf.next, hok]
        refine ⟨_, rfl, us, _, List.append_assoc _ _ _, h, ?_⟩
        rw [List.append_assoc, List.singleton_append]
        exact hc'
  all_goals exact error

/-- **One token keeps the description of what has been read**, and says how a parse can end. -/
theorem confReads_next {us : List Token} {k : Conf} (h : ConfReads us k) (tok : Option Token) :
    Outcome us tok (k.next tok) := by
  obtain ⟨b, k⟩ := k
  obtain ⟨us1, us2, rfl, hl, hp⟩ := h
  have more : ∀ {t : Token} {k : PipeConf}, PipeReads (us2 ++ [t]) k →
      Outcome (us1 ++ us2) (some t) (.more (b, k)) :=
    fun hk => ⟨_, rfl, us1, _, List.append_assoc _ _ _, hl, hk⟩
  cases k with
  | front f =>
    have stay : NoPipeline tok → Outcome (us1 ++ us2) tok (frontNext b f tok) := by
      intro ht
      cases f with
      | first =>
        obtain rfl : us2 = [] := hp
        rw [List.append_nil]
        have hn : frontNext b .first tok = listNext b.closeEmpty tok := by
          rcases tok with _ | t
          · rfl
          · cases t <;> first | rfl | exact ht.elim
        rw [hn]
        exact outcome_empty hl ht
      | bar p => trivial
      | barAmp p => trivial
    rcases tok with _ | t
    · exact stay trivial
    · cases t
      case word w => exact more (commandReads_item hp (.word w))
      case less => exact more ⟨us2, rfl, hp⟩
      case greater => exact more ⟨us2, rfl, hp⟩
      case greaterGreater => exact more ⟨us2, rfl, hp⟩
      case greaterAmpersand => exact more ⟨us2, rfl, hp⟩
      case pipe =>
        cases f with
        | first =>
          obtain rfl : us2 = [] := hp
          exact more rfl
        | bar p => trivial
        | barAmp p => trivial
      all_goals exact stay trivial
  | leadingBar => trivial
  | command f c =>
    rcases tok with _ | t
    · exact outcome_command hl hp (Or.inr (Or.inr trivial))
    · cases t
      case word w => exact more (commandReads_addWord hp w)
      case less => exact more ⟨us2, rfl, hp⟩
      case greater => exact more ⟨us2, rfl, hp⟩
      case greaterGreater => exact more ⟨us2, rfl, hp⟩
      case greaterAmpersand => exact more ⟨us2, rfl, hp⟩
      case pipe => exact outcome_command hl hp (Or.inl rfl)
      case pipeAmpersand => exact outcome_command hl hp (Or.inr (Or.inl rfl))
      all_goals exact outcome_command hl hp (Or.inr (Or.inr trivial))
  | redirect f c op => exact outcome_redirect hl hp tok

/-! ## Whole token sequences -/

theorem confReads_start : ConfReads [] (.start, .front .first) :=
  ⟨[], [], rfl, .line ⟨0, []⟩ (by simp) rfl reads_start, rfl⟩

theorem confReads_feedAll {ts : List Token} {k : Conf}
    (h : feedAll Conf.next (.start, .front .first) ts = .more k) : ConfReads ts k := by
  have step : ∀ us k t k', ConfReads us k → Conf.next k (some t) = .more k' →
      ConfReads (us ++ [t]) k' := by
    intro us k t k' hk hn
    have ho := confReads_next hk (some t)
    rw [hn] at ho
    obtain ⟨_, ht, hk'⟩ := ho
    cases ht
    exact hk'
  exact feedAll_invariant step confReads_start h

/-- The separators up to an `&` before the first pipeline. -/
theorem read_ampersandFirst (n : Nat) :
    feedAll Conf.next (.start, .front .first) (List.replicate n .semicolon ++ [.ampersand]) =
      .more (.sep ⟨[]⟩ true, .front .first) := by
  obtain ⟨b, hb, hr⟩ := read_lead n .start reads_start
  rw [feedAll_append hb]
  have hn := front_sep b .amp
  rw [hr.empty] at hn
  simp only [feedAll, Separator.token] at hn ⊢
  rw [hn]
  rfl

theorem front_redirect (b : ListConf) (f : PipeFront) (op : RedirectOp) :
    Conf.next (b, .front f) (some op.token) = .more (b, .redirect f none op) := by
  cases op <;> rfl

theorem command_redirect (b : ListConf) (f : PipeFront) (c : CmdHelper) (op : RedirectOp) :
    Conf.next (b, .command f c) (some op.token) = .more (b, .redirect f (some c) op) := by
  cases op <;> rfl

theorem feedAll_front {us : List Token} {f : PipeFront} (h : FrontReads us f) (b : ListConf) :
    feedAll Conf.next (b, .front .first) us = .more (b, .front f) := by
  have bar : ∀ (P : PipelineSyntax) (amp : Bool), P.WellFormed →
      feedAll Conf.next (b, .front .first) (P.tokens ++ [PipelineSyntax.barToken amp]) =
        .more (b, .front (if amp then .barAmp ⟨P.helpers⟩ else .bar ⟨P.helpers⟩)) := by
    intro P amp hP
    obtain ⟨g, hread, hclose⟩ := read_pipeline b hP
    rw [feedAll_append hread]
    simp only [feedAll, barToken_next b hclose]
  cases f with
  | first =>
    obtain rfl : us = [] := h
    rfl
  | bar p =>
    obtain ⟨P, hP, rfl, rfl⟩ := h
    exact bar P false hP
  | barAmp p =>
    obtain ⟨P, hP, rfl, rfl⟩ := h
    exact bar P true hP

theorem feedAll_command {us : List Token} {f : PipeFront} {c : CmdHelper}
    (h : CommandReads us f c) (b : ListConf) :
    feedAll Conf.next (b, .front .first) us = .more (b, .command f c) := by
  obtain ⟨us1, cs, rfl, hf, hne, hu, rfl⟩ := h
  rw [feedAll_append (feedAll_front hf b)]
  exact read_command b f hne hu

theorem feedAll_pipe {us : List Token} {k : PipeConf} (h : PipeReads us k) (b : ListConf) :
    feedAll Conf.next (b, .front .first) us = .more (b, k) := by
  cases k with
  | front f => exact feedAll_front h b
  | leadingBar =>
    obtain rfl : us = [.pipe] := h
    rfl
  | command f c => exact feedAll_command h b
  | redirect f c op =>
    cases c with
    | none =>
      obtain ⟨us1, rfl, hf⟩ := h
      rw [feedAll_append (feedAll_front hf b)]
      simp only [feedAll, front_redirect]
    | some c =>
      obtain ⟨us1, rfl, hc⟩ := h
      rw [feedAll_append (feedAll_command hc b)]
      simp only [feedAll, command_redirect]

/-- What `ConfReads` describes is read to its end. -/
theorem feedAll_of_confReads {ts : List Token} {k : Conf} (h : ConfReads ts k) :
    ∃ k', feedAll Conf.next (.start, .front .first) ts = .more k' := by
  obtain ⟨b0, k⟩ := k
  obtain ⟨us1, us2, rfl, hl, hp⟩ := h
  change ListReads us1 b0 at hl
  have hlist : ∃ b, feedAll Conf.next (.start, .front .first) us1 = .more (b, .front .first) := by
    cases hl with
    | line l hl ht hb =>
      obtain ⟨b1, h1, hb1⟩ := read_lead l.lead .start reads_start
      obtain ⟨b2, h2, -⟩ := read_items_line l.items b1 [] hb1 hl
      refine ⟨b2, ?_⟩
      rw [← ht, LineSyntax.tokens, feedAll_append h1]
      exact h2
    | dead n ht =>
      rw [ht]
      exact ⟨_, read_ampersandFirst n⟩
  obtain ⟨b, hb⟩ := hlist
  rw [feedAll_append hb]
  exact ⟨_, feedAll_pipe hp b⟩

/-- A parse ends at one token, or at the end marker, in one of the ways `Outcome` allows. -/
theorem run_outcome (ts : List Token) :
    ∃ us tok vs, us ++ tok.toList ++ vs = ts ∧ (tok = none → vs = []) ∧
      Outcome us tok (runMachine Conf.next (.start, .front .first) ts) ∧
      ∀ k, runMachine Conf.next (.start, .front .first) ts ≠ .more k := by
  obtain ⟨us, k, hf, hend⟩ := @runMachine_ends _ _ _ _ Conf.next ts (.start, .front .first)
  have hr := confReads_feedAll hf
  rcases hend with ⟨rfl, he⟩ | ⟨t, vs, rfl, he, hne⟩
  · have ho := confReads_next hr none
    refine ⟨us, none, [], by simp, fun _ => rfl, he ▸ ho, fun k' hk => ?_⟩
    rw [← he, hk] at ho
    obtain ⟨t, ht, -⟩ := ho
    cases ht
  · exact ⟨us, some t, vs, by simp, by simp, he ▸ confReads_next hr (some t), he ▸ hne⟩

/-- **The language of the parser**: a token sequence is accepted with a tree if and only if it is
a well-formed line and the tree is the one it stands for. -/
theorem parseTokens_ast_iff (ts : List Token) (cl : AstCommandLine) :
    parseTokens ts = .ast cl ↔ ∃ l : LineSyntax, l.WellFormed ∧ l.tokens = ts ∧ l.ast = cl := by
  rw [parseTokens_eq]
  constructor
  · intro h
    obtain ⟨us, tok, vs, hts, hvs, ho, hne⟩ := run_outcome ts
    cases hr : runMachine Conf.next (.start, .front .first) ts with
    | accept v =>
      rw [hr] at ho h
      obtain ⟨rfl, l, hl, rfl, rfl⟩ := ho
      obtain rfl : vs = [] := hvs rfl
      refine ⟨l, hl, by simpa using hts, ?_⟩
      simpa [ParseResult.ofResult] using h
    | stop e => rw [hr] at h; cases e <;> cases h
    | more k => exact absurd hr (hne k)
    | syntaxError => rw [hr] at h; cases h
    | stuck => rw [hr] at h; cases h
  · rintro ⟨l, hl, rfl, rfl⟩
    rw [read_line hl]
    rfl

/-- An `&` before the first pipeline, and after it no pipeline or one that is complete. -/
def BackgroundsNothingFirst (ts : List Token) : Prop :=
  ∃ us tok vs, us ++ tok.toList ++ vs = ts ∧ (tok = none → vs = []) ∧ BackgroundsNothing us tok

theorem read_backgroundsNothing {us : List Token} {tok : Option Token}
    (h : BackgroundsNothing us tok) :
    ∃ k, feedAll Conf.next (.start, .front .first) us = .more k ∧
      Conf.next k tok = .stop (.abort .listBack) := by
  obtain ⟨n, vs, rfl, hend⟩ := h
  have hamp := read_ampersandFirst n
  rcases hend with ⟨rfl, ht⟩ | ⟨p, hp, rfl, ht⟩
  · refine ⟨_, hamp, ?_⟩
    rcases tok with _ | t
    · rfl
    · cases t <;> first | rfl | exact ht.elim
  · obtain ⟨f, hread, hclose⟩ := read_pipeline (.sep ⟨[]⟩ true) hp
    refine ⟨(.sep ⟨[]⟩ true, .command f p.last.helper), ?_, ?_⟩
    · rw [List.append_cons, feedAll_append hamp]
      exact hread
    · rcases tok with _ | t
      · rw [command_end hp hclose]
        rfl
      · cases t
        case semicolon => exact command_sep hp hclose .semi
        case ampersand => exact command_sep hp hclose .amp
        case newline =>
          simp only [Conf.next, Option.bind_some, Token.redirectOp, commandNext, hclose,
            pipelineNext, PipelineSyntax.makeAstPipeline_helpers hp]
          rfl
        all_goals exact ht.elim

/-- **The only assertion a parse can fail** is that of `list_back` on an empty list of pipelines,
and it fails exactly where an `&` before the first pipeline is taken as its separator. -/
theorem parseTokens_outcome (ts : List Token) :
    (BackgroundsNothingFirst ts ∧ parseTokens ts = .abort .listBack) ∨
      (¬ BackgroundsNothingFirst ts ∧
        ((∃ cl, parseTokens ts = .ast cl) ∨ ∃ msg, parseTokens ts = .null msg)) := by
  rw [parseTokens_eq]
  by_cases hb : BackgroundsNothingFirst ts
  · refine Or.inl ⟨hb, ?_⟩
    obtain ⟨us, tok, vs, rfl, hvs, h⟩ := hb
    obtain ⟨k, hf, hn⟩ := read_backgroundsNothing h
    rw [List.append_assoc, runMachine_append hf]
    rcases tok with _ | t
    · obtain rfl : vs = [] := hvs rfl
      simp only [Option.toList_none, List.append_nil, runMachine, hn]
      rfl
    · simp only [Option.toList_some, List.singleton_append, runMachine, hn]
      rfl
  · refine Or.inr ⟨hb, ?_⟩
    obtain ⟨us, tok, vs, hts, hvs, ho, hne⟩ := run_outcome ts
    cases hr : runMachine Conf.next (.start, .front .first) ts with
    | accept v =>
      rw [hr] at ho
      obtain ⟨-, l, -, -, rfl⟩ := ho
      exact Or.inl ⟨l.ast, rfl⟩
    | stop e =>
      rw [hr] at ho
      cases e with
      | yyabort m => exact Or.inr ⟨some m, rfl⟩
      | abort a => exact absurd ⟨us, tok, vs, hts, hvs, ho.2⟩ hb
    | syntaxError => exact Or.inr ⟨none, rfl⟩
    | more k => exact absurd hr (hne k)
    | stuck => rw [hr] at ho; exact ho.elim

end Cush
