import Cush.Grammar.Verify.Language

/-!
# Which pipelines run in the background

The actions for `&` mark the pipeline that is last in the list when they are reduced. Separators may
follow each other, and an `&` after a `;` marks a pipeline that the `;` has already ended.
-/

namespace Cush

/-- The separator that ends a pipeline is the first one after it. -/
def EndedByAmp (seps : List Separator) : Prop :=
  seps.head? = some .amp

instance (seps : List Separator) : Decidable (EndedByAmp seps) :=
  inferInstanceAs (Decidable (_ = _))

theorem itemAst_bgJob (x : PipelineSyntax × List Separator) :
    (LineSyntax.itemAst x).bgJob = true ↔ .amp ∈ x.2 := by
  simp [LineSyntax.itemAst]

/-- A pipeline is marked as the separator that ends it asks for, unless only a later one is `&`. -/
theorem bgJob_iff_endedByAmp (x : PipelineSyntax × List Separator) :
    ((LineSyntax.itemAst x).bgJob = true ↔ EndedByAmp x.2) ↔
      EndedByAmp x.2 ∨ Separator.amp ∉ x.2 := by
  rw [itemAst_bgJob]
  have hmem : EndedByAmp x.2 → .amp ∈ x.2 := List.mem_of_mem_head?
  constructor
  · intro h
    by_cases hm : .amp ∈ x.2
    · exact Or.inl (h.1 hm)
    · exact Or.inr hm
  · rintro (h | h)
    · exact iff_of_true (hmem h) h
    · exact iff_of_false h (mt hmem h)

/-- A line that is accepted, as it is written: its pipelines are those of the tree, in order. -/
theorem pipes_of_tokens {ts : List Token} {cl : AstCommandLine} (h : parseTokens ts = .ast cl)
    {l : LineSyntax} (hl : l.WellFormed) (ht : l.tokens = ts) :
    cl.pipes = l.items.map LineSyntax.itemAst := by
  have hast : parseTokens ts = .ast l.ast := (parseTokens_ast_iff ts l.ast).2 ⟨l, hl, ht, rfl⟩
  rw [h] at hast
  cases hast
  rfl

/-! ## Main result -/

/-- **Background pipelines**: the tokens accepted are those of pipelines with separators after them,
and a pipeline is marked as a background job exactly if the first separator after it is `&`,
provided that this one is `&` or none of those before the next pipeline is. Under no other condition
is the mark right. -/
theorem bg_job_first_separator (ts : List Token) (cl : AstCommandLine)
    (h : parseTokens ts = .ast cl) :
    (∃ l : LineSyntax, l.WellFormed ∧ l.tokens = ts) ∧
      ∀ l : LineSyntax, l.WellFormed → l.tokens = ts → cl.pipes.length = l.items.length ∧
        ∀ (i : Nat) (p : AstPipeline) (x : PipelineSyntax × List Separator),
          cl.pipes[i]? = some p → l.items[i]? = some x →
            ((p.bgJob = true ↔ EndedByAmp x.2) ↔ EndedByAmp x.2 ∨ Separator.amp ∉ x.2) := by
  obtain ⟨l, hl, ht, -⟩ := (parseTokens_ast_iff ts cl).1 h
  refine ⟨⟨l, hl, ht⟩, fun l' hl' ht' => ?_⟩
  have hpipes := pipes_of_tokens h hl' ht'
  refine ⟨by rw [hpipes, List.length_map], fun i p x hp hx => ?_⟩
  rw [hpipes, List.getElem?_map, hx] at hp
  obtain rfl : LineSyntax.itemAst x = p := Option.some.inj hp
  exact bgJob_iff_endedByAmp x

/-- `a` with some separators after it. -/
def wordItem (seps : List Separator) : PipelineSyntax × List Separator :=
  (⟨[.word ['a']], []⟩, seps)

theorem wordItem_wellFormed (seps : List Separator) : (wordItem seps).1.WellFormed := by
  refine ⟨?_, ?_, by simp [wordItem], by simp [wordItem, PipelineSyntax.commands]⟩
  · intro c hc
    obtain rfl : c = [.word ['a']] := List.mem_singleton.1 hc
    decide
  · intro c hc
    obtain rfl : c = [.word ['a']] := List.mem_singleton.1 hc
    exact ⟨by decide, by decide⟩

theorem wordItems_wellFormed {seps : List Separator} (h : seps ≠ []) :
    LineSyntax.WellFormed ⟨0, [wordItem seps, wordItem []]⟩ := by
  refine ⟨fun x hx => ?_, fun x hx => ?_⟩
  · simp only [List.mem_cons, List.not_mem_nil, or_false] at hx
    rcases hx with rfl | rfl
    · exact wordItem_wellFormed seps
    · exact wordItem_wellFormed []
  · obtain rfl : x = wordItem seps := List.mem_singleton.1 hx
    exact h

/-- The tree of two pipelines `a`, the first of them in the background. -/
def backgroundFirst : AstCommandLine :=
  ⟨[⟨[⟨[['a']], false⟩], none, none, false, true⟩,
    ⟨[⟨[['a']], false⟩], none, none, false, false⟩]⟩

theorem bg_job_first_separator_amp :
    (backgroundFirst.pipes.map AstPipeline.bgJob).head? = some true := by
  have h := (bg_job_first_separator
    [.word ['a'], .ampersand, .semicolon, .word ['a']] backgroundFirst (by decide)).2
    ⟨0, [wordItem [.amp, .semi], wordItem []]⟩ (wordItems_wellFormed (by decide)) rfl
  exact congrArg some ((h.2 0 _ _ rfl rfl).2 (Or.inl rfl) |>.2 rfl)

/-- In `a ; & a` the first pipeline ends with the `;` and runs in the background. -/
theorem bg_job_semicolon_amp : ¬ ∀ (l : LineSyntax) (cl : AstCommandLine), l.WellFormed →
    parseTokens l.tokens = .ast cl →
    ∀ (i : Nat) (p : AstPipeline) (x : PipelineSyntax × List Separator),
      cl.pipes[i]? = some p → l.items[i]? = some x → (p.bgJob = true ↔ EndedByAmp x.2) := by
  intro h
  have hbg := h ⟨0, [wordItem [.semi, .amp], wordItem []]⟩ backgroundFirst
    (wordItems_wellFormed (by decide)) (by decide) 0 _ _ rfl rfl
  exact absurd (hbg.1 rfl) (by decide)

end Cush
