import Cush.Grammar.Verify.Quoting
import Mathlib.Data.List.Chain

/-!
# Words without quotes

The words of a line that has no double quote in it are plain: they are not empty and have no blank
or operator in them. This holds as well where an earlier line has left something in the scanner,
since what is left there, though it may have double quotes in it, never closes one.
-/

namespace Cush

/-- The words among some tokens. -/
def wordsOf (ts : List Token) : List Word :=
  ts.filterMap fun
    | .word w => some w
    | _ => none

/-- A word as the rule for plain words matches it; where it starts with a double quote, that quote
is not closed in it. -/
structure PlainWord (w : Word) : Prop where
  ne_nil : w ≠ []
  chars : ∀ c ∈ w, isWordChar c = true
  unclosed : w.head? = some '"' → '"' ∉ w.tail

/-- Plain words, of which none closes a double quote that an earlier one starts with. -/
structure PlainWords (ws : List Word) : Prop where
  plain : ∀ w ∈ ws, PlainWord w
  unclosed : ws.Pairwise fun w w' => w.head? = some '"' → '"' ∉ w'

theorem PlainWords.sublist {ws ws' : List Word} (h : PlainWords ws) (hs : ws'.Sublist ws) :
    PlainWords ws' :=
  ⟨fun w hw => h.plain w (hs.subset hw), h.unclosed.sublist hs⟩

/-! ## One word -/

/-- Without a double quote in the text, a quoted token is not closed. -/
theorem scan_unclosed : ∀ (text : List Char), '"' ∉ text → ∀ (q : LexState),
    q = .quoted false ∨ q = .escape false → ∀ (n : Nat) (best : Option (LexRule × Nat)),
      (lexDfa.scan q text n best).best = best := by
  intro text
  induction text with
  | nil =>
    rintro - q (rfl | rfl) n best <;> rfl
  | cons c text ih =>
    intro ht q hq n best
    rw [List.mem_cons, not_or] at ht
    have ha : lexDfa.accept q = none := by rcases hq with rfl | rfl <;> rfl
    have hl : lexDfa.live q = true := by rcases hq with rfl | rfl <;> rfl
    cases hn : lexDfa.next q c with
    | none => simp [Dfa.scan, hl, hn, ha]
    | some q' =>
      have hq' : q' = .quoted false ∨ q' = .escape false := by
        rcases hq with rfl | rfl
        · simp only [lexDfa, LexState.next, if_neg (Ne.symm ht.1)] at hn
          split at hn <;> cases hn <;> simp
        · simp only [lexDfa, LexState.next] at hn
          split at hn <;> cases hn
          simp
      rw [lexDfa.scan_step hl hn, ha]
      exact ih ht.2 q' hq' _ _

/-- Then the plain word at its start is matched. -/
theorem scan_unclosed_word : ∀ (text : List Char), '"' ∉ text → ∀ (q : LexState),
    q = .quoted true ∨ q = .escape true → ∀ (n : Nat) (best : Option (LexRule × Nat)),
      (lexDfa.scan q text n best).best = some (.word, n + (text.takeWhile isWordChar).length) := by
  intro text
  induction text with
  | nil =>
    rintro - q (rfl | rfl) n best <;> rfl
  | cons c text ih =>
    intro ht q hq n best
    rw [List.mem_cons, not_or] at ht
    have ha : lexDfa.accept q = some .word := by rcases hq with rfl | rfl <;> rfl
    have hl : lexDfa.live q = true := by rcases hq with rfl | rfl <;> rfl
    by_cases hc : isWordChar c = true
    · have hn : ∃ q', lexDfa.next q c = some q' ∧ (q' = .quoted true ∨ q' = .escape true) := by
        have hne : c ≠ '\n' := by rintro rfl; cases hc
        rcases hq with rfl | rfl
        · simp only [lexDfa, LexState.next, if_neg (Ne.symm ht.1), hc]
          split <;> simp
        · simp [lexDfa, LexState.next, hne, hc]
      obtain ⟨q', hn, hq'⟩ := hn
      rw [lexDfa.scan_step hl hn, ih ht.2 q' hq', List.takeWhile_cons, if_pos hc, List.length_cons,
        Nat.add_right_comm, Nat.add_assoc]
    · rw [List.takeWhile_cons, if_neg hc]
      cases hn : lexDfa.next q c with
      | none => simp [Dfa.scan, hl, hn, ha]
      | some q' =>
        have hq' : q' = .quoted false := by
          have hb : c ≠ '\\' := by rintro rfl; exact hc rfl
          rcases hq with rfl | rfl
          · simp only [lexDfa, LexState.next, if_neg (Ne.symm ht.1), if_neg hb] at hn
            simpa [hc] using (Option.some.inj hn).symm
          · simp only [lexDfa, LexState.next] at hn
            split at hn
            · cases hn
            · simpa [hc] using (Option.some.inj hn).symm
        rw [lexDfa.scan_step hl hn, ha, scan_unclosed text ht.2 q' (Or.inl hq')]
        rfl

/-- A plain word is matched as a whole where it ends at a blank, an operator or the end of the text,
unless it starts with a double quote that is closed. -/
theorem longest_word {w : Word} (hw : PlainWord w) {rest : List Char}
    (hr : rest.head?.any isWordChar = false) (hq : w.head? = some '"' → '"' ∉ rest) :
    (Scanner.longest (w ++ rest)).best = some (.word, w.length) := by
  obtain ⟨c, w, rfl⟩ := List.exists_cons_of_ne_nil hw.ne_nil
  have hrest : rest.takeWhile isWordChar = [] := by
    cases rest with
    | nil => rfl
    | cons d rest => rw [List.takeWhile_cons, if_neg]; simpa using hr
  have hlen : 1 + ((w ++ rest).takeWhile isWordChar).length = (c :: w).length := by
    rw [List.takeWhile_append_of_pos fun d hd => hw.chars d (List.mem_cons_of_mem _ hd), hrest,
      List.append_nil, List.length_cons, Nat.add_comm]
  have hc := hw.chars c List.mem_cons_self
  by_cases hquote : c = '"'
  · subst hquote
    have hn : lexDfa.next .start '"' = some (.quoted true) := rfl
    have hfree : '"' ∉ w ++ rest := by
      rw [List.mem_append, not_or]
      exact ⟨hw.unclosed rfl, hq rfl⟩
    rw [Scanner.longest, List.cons_append, lexDfa.scan_step rfl hn,
      scan_unclosed_word _ hfree _ (Or.inl rfl), Nat.zero_add, hlen]
  · have hn : lexDfa.next .start c = some .word := by
      have hop : isOperator c = false ∧ isBlank c = false := by simpa [isWordChar] using hc
      have hg : c ≠ '>' := by rintro rfl; cases hc
      have hp : c ≠ '|' := by rintro rfl; cases hc
      simp [lexDfa, LexState.next, hop, hg, hp, hquote]
    rw [Scanner.longest, List.cons_append, lexDfa.scan_step rfl hn, scan_word, Nat.zero_add, hlen]

theorem lex_word {w : Word} (hw : PlainWord w) {rest : List Char}
    (hr : rest.head?.any isWordChar = false) (hq : w.head? = some '"' → '"' ∉ rest) :
    lex (w ++ rest) = .word w :: lex rest := by
  have hbest := longest_word hw hr hq
  obtain ⟨c, w, rfl⟩ := List.exists_cons_of_ne_nil hw.ne_nil
  rw [List.cons_append] at hbest ⊢
  rw [lex_cons hbest (Nat.succ_pos _), ← List.cons_append, List.take_left, List.drop_left]
  rfl

/-! ## Operators -/

theorem longest_operator {c : Char} {q : LexState} (hq : lexDfa.next .start c = some q)
    (ha : lexDfa.accept q = some .operator) {text : List Char}
    (hn : ∀ d ∈ text.head?, lexDfa.next q d = none) :
    (Scanner.longest (c :: text)).best = some (.operator, 1) := by
  rw [Scanner.longest, lexDfa.scan_step rfl hq]
  rcases text with _ | ⟨d, text⟩
  · simp only [Dfa.scan, ha]
    split <;> rfl
  · simp only [Dfa.scan, ha, hn d rfl]
    split <;> rfl

theorem longest_operator_two {c d : Char} {q : LexState} {r : LexRule}
    (hq : lexDfa.next .start c = some q) (hl : lexDfa.live q = true)
    (hd : lexDfa.next q d = some (.matched r)) (text : List Char) :
    (Scanner.longest (c :: d :: text)).best = some (r, 2) := by
  have ha : lexDfa.accept (.matched r) = some r := rfl
  have hdead : lexDfa.live (.matched r) = false := rfl
  rw [Scanner.longest, lexDfa.scan_step rfl hq, lexDfa.scan_step hl hd]
  cases text <;> simp [Dfa.scan, ha, hdead]

/-- The text behind an operator of one character, or of two. -/
def BehindOperator (text rest : List Char) : Prop :=
  rest = text ∨ ∃ d, isOperator d = true ∧ text = d :: rest

theorem lex_operator_one {c : Char} {q : LexState} {t : Token}
    (hq : lexDfa.next .start c = some q) (ha : lexDfa.accept q = some .operator)
    (ht : LexRule.operator.token [c] = some t) {text : List Char}
    (hn : ∀ d ∈ text.head?, lexDfa.next q d = none) : lex (c :: text) = t :: lex text := by
  rw [lex_cons (longest_operator hq ha hn) Nat.one_pos, List.take_succ_cons, List.take_zero, ht]
  rfl

theorem lex_operator_two {c d : Char} {q : LexState} {r : LexRule} {t : Token}
    (hq : lexDfa.next .start c = some q) (hl : lexDfa.live q = true)
    (hd : lexDfa.next q d = some (.matched r)) (ht : r.token [c, d] = some t) (text : List Char) :
    lex (c :: d :: text) = t :: lex text := by
  rw [lex_cons (longest_operator_two hq hl hd text) Nat.two_pos, List.take_succ_cons,
    List.take_succ_cons, List.take_zero, ht]
  rfl

/-- A bar that is not followed by `&`. -/
theorem lex_pipe {text : List Char} (h : text.head? ≠ some '&') :
    lex ('|' :: text) = .pipe :: lex text := by
  apply lex_operator_one (q := .bar) rfl rfl rfl
  intro d hd
  exact if_neg (by rintro rfl; exact h hd)

/-- An operator gives a token that is no word. -/
theorem lex_operator {c : Char} (hc : isOperator c = true) (text : List Char) :
    ∃ t rest, lex (c :: text) = t :: lex rest ∧ wordsOf [t] = [] ∧ BehindOperator text rest := by
  have alone : ∀ {r : LexRule} {d : Char}, d ∈ text.head? → lexDfa.next (.matched r) d = none :=
    fun _ => rfl
  simp only [isOperator, Bool.or_eq_true, beq_iff_eq] at hc
  rcases hc with ((((rfl | rfl) | rfl) | rfl) | rfl) | rfl
  · by_cases hamp : text.head? = some '&'
    · obtain ⟨text, rfl⟩ := List.head?_eq_some_iff.1 hamp
      exact ⟨.pipeAmpersand, text, lex_operator_two (q := .bar) rfl rfl rfl rfl text, rfl,
        Or.inr ⟨_, rfl, rfl⟩⟩
    · exact ⟨.pipe, text, lex_pipe hamp, rfl, Or.inl rfl⟩
  · exact ⟨.ampersand, text, lex_operator_one rfl rfl rfl fun _ => alone, rfl, Or.inl rfl⟩
  · exact ⟨.semicolon, text, lex_operator_one rfl rfl rfl fun _ => alone, rfl, Or.inl rfl⟩
  · exact ⟨.less, text, lex_operator_one rfl rfl rfl fun _ => alone, rfl, Or.inl rfl⟩
  · by_cases hgt : text.head? = some '>'
    · obtain ⟨text, rfl⟩ := List.head?_eq_some_iff.1 hgt
      exact ⟨.greaterGreater, text, lex_operator_two (q := .greater) rfl rfl rfl rfl text, rfl,
        Or.inr ⟨_, rfl, rfl⟩⟩
    by_cases hamp : text.head? = some '&'
    · obtain ⟨text, rfl⟩ := List.head?_eq_some_iff.1 hamp
      exact ⟨.greaterAmpersand, text, lex_operator_two (q := .greater) rfl rfl rfl rfl text, rfl,
        Or.inr ⟨_, rfl, rfl⟩⟩
    · refine ⟨.greater, text, lex_operator_one (q := .greater) rfl rfl rfl ?_, rfl, Or.inl rfl⟩
      intro d hd
      exact (if_neg (by rintro rfl; exact hgt hd)).trans (if_neg (by rintro rfl; exact hamp hd))
  · exact ⟨.newline, text, lex_operator_one rfl rfl rfl fun _ => alone, rfl, Or.inl rfl⟩

/-! ## Texts in which no quote is closed -/

/-- A double quote in it comes after a backslash. -/
structure Guarded (text : List Char) : Prop where
  head : text.head? ≠ some '"'
  chain : text.IsChain fun a b => b = '"' → a = '\\'

theorem guarded_of_not_mem {text : List Char} (h : '"' ∉ text) : Guarded text := by
  induction text with
  | nil => exact ⟨by simp, .nil⟩
  | cons c text ih =>
    rw [List.mem_cons, not_or] at h
    have ht := ih h.2
    refine ⟨by simpa using Ne.symm h.1, List.isChain_cons.2 ⟨fun d hd he => ?_, ht.chain⟩⟩
    exact absurd (he ▸ hd) ht.head

/-- The rest of a guarded text from a place on that does not come after a backslash. -/
theorem Guarded.tail {c : Char} {text : List Char} (h : Guarded (c :: text)) (hc : c ≠ '\\') :
    Guarded text := by
  have hchain := List.isChain_cons.1 h.chain
  exact ⟨fun he => hc (hchain.1 '"' he rfl), hchain.2⟩

theorem Guarded.append {text rest : List Char} (h : Guarded text) (hr : '"' ∉ rest) :
    Guarded (text ++ rest) := by
  refine ⟨?_, h.chain.append (guarded_of_not_mem hr).chain ?_⟩
  · cases text with
    | nil => exact (guarded_of_not_mem hr).head
    | cons c text => exact h.head
  · intro a _ b hb he
    exact absurd (he ▸ hb) (guarded_of_not_mem hr).head

theorem isOperator_ne_backslash {c : Char} (h : isOperator c = true) : c ≠ '\\' := by
  rintro rfl
  cases h

theorem isBlank_ne_backslash {c : Char} (h : isBlank c = true) : c ≠ '\\' := by
  rintro rfl
  cases h

theorem wordsOf_cons_word (w : Word) (ts : List Token) :
    wordsOf (.word w :: ts) = w :: wordsOf ts :=
  rfl

/-- A text is cut where its first word ends. -/
theorem exists_word_split (c : Char) (text : List Char) :
    ∃ v rest, c :: text = (c :: v) ++ rest ∧ (∀ d ∈ v, isWordChar d = true) ∧
      rest.head?.any isWordChar = false := by
  refine ⟨text.takeWhile isWordChar, text.dropWhile isWordChar, ?_, ?_, ?_⟩
  · rw [List.cons_append, List.takeWhile_append_dropWhile]
  · intro d hd
    exact List.all_eq_true.1 List.all_takeWhile d hd
  · have hhead := List.head?_dropWhile_not isWordChar text
    cases hr : (text.dropWhile isWordChar).head? with
    | none => rfl
    | some d =>
      rw [hr] at hhead
      exact hhead

/-- The words of a guarded text are plain, and none of them starts with a double quote. -/
theorem plain_of_guarded {text : List Char} (h : Guarded text) :
    ∀ w ∈ wordsOf (lex text), PlainWord w ∧ w.head? ≠ some '"' := by
  induction hn : text.length using Nat.strongRecOn generalizing text with
  | ind n ih =>
    rcases text with _ | ⟨c, text⟩
    · exact fun w hw => (nomatch hw)
    rw [List.length_cons] at hn
    by_cases hb : isBlank c = true
    · rw [lex_blank hb]
      exact ih text.length (by omega) (h.tail (isBlank_ne_backslash hb)) rfl
    by_cases hop : isOperator c = true
    · obtain ⟨t, rest, hlex, ht, hrest⟩ := lex_operator hop text
      have hg := h.tail (isOperator_ne_backslash hop)
      have hrec : Guarded rest ∧ rest.length < n := by
        rcases hrest with rfl | ⟨d, hd, rfl⟩
        · exact ⟨hg, by omega⟩
        · rw [List.length_cons] at hn
          exact ⟨hg.tail (isOperator_ne_backslash hd), by omega⟩
      have hwords : wordsOf (lex (c :: text)) = wordsOf (lex rest) := by
        rw [hlex, ← List.singleton_append, wordsOf, List.filterMap_append]
        exact congrArg (· ++ _) ht
      rw [hwords]
      exact ih _ hrec.2 hrec.1 rfl
    · have hc : isWordChar c = true := by simp [isWordChar, hb, hop]
      obtain ⟨v, rest, hsplit, hv, hrest⟩ := exists_word_split c text
      rw [hsplit] at h ⊢
      have hhead : (c :: v).head? ≠ some '"' := h.head
      have hplain : PlainWord (c :: v) := by
        refine ⟨List.cons_ne_nil _ _, fun d hd => ?_, fun he => absurd he hhead⟩
        rcases List.mem_cons.1 hd with rfl | hd
        · exact hc
        · exact hv d hd
      have hg : Guarded rest := by
        refine ⟨fun he => ?_, h.chain.right_of_append⟩
        rw [he] at hrest
        cases hrest
      have hlen := congrArg List.length hsplit
      rw [List.length_cons, List.length_append, List.length_cons] at hlen
      rw [lex_word hplain hrest fun he => absurd he hhead, wordsOf_cons_word]
      intro w hw
      rcases List.mem_cons.1 hw with rfl | hw
      · exact ⟨hplain, hhead⟩
      · exact ih rest.length (by omega) hg rfl w hw

theorem wordsOf_append (ts ts' : List Token) : wordsOf (ts ++ ts') = wordsOf ts ++ wordsOf ts' :=
  List.filterMap_append

/-- A word is made of characters of its lexeme. -/
theorem mem_of_token {r : LexRule} {lexeme : List Char} {w : Word}
    (h : r.token lexeme = some (.word w)) : ∀ c ∈ w, c ∈ lexeme := by
  cases r with
  | quoted =>
    obtain rfl : (lexeme.drop 1).dropLast = w := by simpa [LexRule.token] using h
    exact fun c hc => List.mem_of_mem_drop (List.dropLast_subset _ hc)
  | word =>
    obtain rfl : lexeme = w := by simpa [LexRule.token] using h
    exact fun c hc => hc
  | operator =>
    simp only [LexRule.token] at h
    split at h <;> cases h
  | _ => cases h

theorem mem_of_wordsOf_lex {text : List Char} : ∀ w ∈ wordsOf (lex text), ∀ c ∈ w, c ∈ text := by
  induction hn : text.length using Nat.strongRecOn generalizing text with
  | ind n ih =>
    rcases text with _ | ⟨c, text⟩
    · exact fun w hw => (nomatch hw)
    obtain ⟨r, m, hb, hm, -⟩ := Scanner.longest_cons c text
    rw [lex_cons hb hm, wordsOf_append]
    intro w hw d hd
    rcases List.mem_append.1 hw with hw | hw
    · cases ht : r.token ((c :: text).take m) with
      | none => rw [ht] at hw; cases hw
      | some t =>
        rw [ht] at hw
        cases t with
        | word v =>
          obtain rfl : w = v := List.mem_singleton.1 hw
          exact List.mem_of_mem_take (mem_of_token ht d hd)
        | _ => cases hw
    · have hlen : ((c :: text).drop m).length < n := by
        rw [← hn, List.length_drop, List.length_cons]
        omega
      exact List.mem_of_mem_drop (ih _ hlen rfl w hw d hd)

/-! ## What is left in the buffer -/

/-- What is left in the buffer closes no double quote: the words of a line without double quotes are
plain behind it. -/
def Unquoting (buffer : List Char) : Prop :=
  ∀ line, '"' ∉ line → PlainWords (wordsOf (lex (buffer ++ line)))

theorem unquoting_of_guarded {buffer : List Char} (h : Guarded buffer) : Unquoting buffer := by
  intro line hline
  have hwords := plain_of_guarded (h.append hline)
  refine ⟨fun w hw => (hwords w hw).1, ?_⟩
  apply List.pairwise_of_forall_mem_list
  intro w hw _ _ hq
  exact absurd hq (hwords w hw).2

theorem unquoting_quote : Unquoting ['"'] := by
  intro line hline
  obtain ⟨v, rest, hsplit, hv, hrest⟩ := exists_word_split '"' line
  obtain rfl : line = v ++ rest := (List.cons.inj hsplit).2
  have hfree := hline
  rw [List.mem_append, not_or] at hfree
  have hplain : PlainWord ('"' :: v) := by
    refine ⟨List.cons_ne_nil _ _, fun d hd => ?_, fun _ => hfree.1⟩
    rcases List.mem_cons.1 hd with rfl | hd
    · rfl
    · exact hv d hd
  have hwords := plain_of_guarded (guarded_of_not_mem hfree.2)
  rw [List.singleton_append, hsplit, lex_word hplain hrest fun _ => hfree.2, wordsOf_cons_word]
  refine ⟨fun w hw => ?_, List.pairwise_cons.2 ⟨fun w hw _ hmem => ?_, ?_⟩⟩
  · rcases List.mem_cons.1 hw with rfl | hw
    · exact hplain
    · exact (hwords w hw).1
  · exact hfree.2 (mem_of_wordsOf_lex w hw '"' hmem)
  · apply List.pairwise_of_forall_mem_list
    intro w hw _ _ hq
    exact absurd hq (hwords w hw).2

/-- A match that did not have to look beyond the buffer leaves a part of it. -/
theorem Unquoting.drop {buffer line : List Char} {r : LexRule} {m : Nat} (h : Unquoting buffer)
    (hb : (Scanner.longest (buffer ++ line)).best = some (r, m)) (hm : 0 < m)
    (hle : m ≤ (Scanner.longest (buffer ++ line)).examined)
    (hex : (Scanner.longest (buffer ++ line)).examined < buffer.length) :
    Unquoting (buffer.drop m) := by
  intro line' hline'
  have hend : (Scanner.longest (buffer ++ line)).hitEnd = false := by
    apply Bool.eq_false_iff.2
    intro he
    have := Scanner.examined_hitEnd he
    rw [List.length_append] at this
    omega
  have hsame : Scanner.longest (buffer ++ line') = Scanner.longest (buffer ++ line) :=
    lexDfa.scan_append buffer line line' .start 0 none (by
      rw [Nat.zero_add]
      exact Nat.le_of_lt hex) hend
  rw [← hsame] at hb
  obtain ⟨c, text, hc⟩ := List.exists_cons_of_length_pos (Nat.lt_of_le_of_lt (Nat.zero_le _) hex)
  have hlex : lex (buffer ++ line') =
      (r.token ((buffer ++ line').take m)).toList ++ lex ((buffer ++ line').drop m) := by
    rw [hc, List.cons_append] at hb ⊢
    exact lex_cons hb hm
  rw [← List.drop_append_of_le_length (by omega)]
  apply (h line' hline').sublist
  rw [hlex, wordsOf_append]
  exact List.sublist_append_right _ _

/-- The text read since the last accepting state. -/
def LexState.Beyond : LexState → List Char → Prop
  | .quoted false, v => Guarded v
  | .escape false, v => Guarded v ∧ v.getLast? = some '\\'
  | _, v => v = []

theorem Guarded.nil : Guarded [] :=
  guarded_of_not_mem List.not_mem_nil

theorem Guarded.snoc {text : List Char} {c : Char} (h : Guarded text)
    (hc : c = '"' → text.getLast? = some '\\') : Guarded (text ++ [c]) := by
  refine ⟨?_, h.chain.append (List.isChain_singleton c) ?_⟩
  · cases text with
    | nil =>
      intro he
      have hlast := hc (Option.some.inj he)
      cases hlast
    | cons d text => exact h.head
  · intro a ha b hb he
    obtain rfl : c = b := Option.some.inj hb
    exact Option.some.inj ((Option.mem_def.1 ha).symm.trans (hc he))

theorem LexState.Beyond.guarded {q : LexState} {v : List Char} (h : q.Beyond v) : Guarded v := by
  cases q with
  | quoted plain =>
    cases plain with
    | true => exact (show v = [] from h) ▸ .nil
    | false => exact h
  | escape plain =>
    cases plain with
    | true => exact (show v = [] from h) ▸ .nil
    | false => exact h.1
  | _ => exact (show v = [] from h) ▸ .nil

theorem LexState.Beyond.of_accept {q : LexState} {r : LexRule} (h : lexDfa.accept q = some r) :
    q.Beyond [] := by
  cases q with
  | quoted plain => cases plain <;> first | rfl | cases h
  | escape plain => cases plain <;> first | rfl | cases h
  | _ => rfl

theorem LexState.Beyond.next {q q' : LexState} {v : List Char} {x : Char} (h : q.Beyond v)
    (hn : lexDfa.next q x = some q') (ha : lexDfa.accept q' = none) : q'.Beyond (v ++ [x]) := by
  have hg := h.guarded
  cases q with
  | quoted plain =>
    simp only [lexDfa, LexState.next] at hn
    split at hn
    · cases hn
      cases ha
    rename_i hx
    split at hn
    · rename_i hb
      cases hn
      cases plain with
      | true => cases ha
      | false => exact ⟨hg.snoc fun he => absurd he hx, by simp [hb]⟩
    · cases hn
      cases hp : plain && isWordChar x with
      | true => rw [hp] at ha; cases ha
      | false => exact hg.snoc fun he => absurd he hx
  | escape plain =>
    simp only [lexDfa, LexState.next] at hn
    split at hn
    · cases hn
    · cases hn
      cases hp : plain && isWordChar x with
      | true => rw [hp] at ha; cases ha
      | false =>
        cases plain with
        | true =>
          -- the character that ends the plain word is no double quote
          refine hg.snoc fun he => ?_
          rw [he] at hp
          cases hp
        | false => exact hg.snoc fun _ => h.2
  | closed plain =>
    simp only [lexDfa, LexState.next] at hn
    split at hn <;> cases hn
    cases ha
  | start =>
    simp only [lexDfa, LexState.next] at hn
    repeat' split at hn
    all_goals
      cases hn
      cases ha
  | matched r => cases hn
  | _ =>
    simp only [lexDfa, LexState.next] at hn
    repeat' split at hn
    all_goals cases hn
    all_goals cases ha

theorem LexState.Beyond.stop {q : LexState} {v : List Char} {x : Char} (h : q.Beyond v)
    (hn : lexDfa.next q x = none) : Unquoting (v ++ [x]) := by
  by_cases hv : v = []
  · subst hv
    by_cases hx : x = '"'
    · rw [hx]
      exact unquoting_quote
    · exact unquoting_of_guarded (Guarded.nil.snoc fun he => absurd he hx)
  · apply unquoting_of_guarded
    apply h.guarded.snoc
    rintro rfl
    cases q with
    | quoted plain => cases hn
    | escape plain => cases hn
    | _ => exact absurd h hv

/-- What has been looked at beyond a match closes no double quote. -/
theorem unquoting_beyond {text : List Char} {r : LexRule} {m : Nat}
    (hb : (Scanner.longest text).best = some (r, m)) :
    Unquoting ((text.take (Scanner.longest text).examined).drop m) := by
  have hstart : Scanner.longest text = lexDfa.scan .start text 0 (some (.blanks, 0)) := by
    cases text <;> rfl
  rw [hstart] at hb ⊢
  exact lexDfa.scan_beyond (P := LexState.Beyond) (G := Unquoting)
    (fun _ _ => LexState.Beyond.of_accept) (fun _ _ _ _ => LexState.Beyond.next)
    (fun _ _ _ => LexState.Beyond.stop) (fun _ _ h => unquoting_of_guarded h.guarded) text []
    .start .blanks 0 (Nat.le_refl _) (fun ha => (nomatch ha)) r m hb

/-! ## The scanner after some lines -/

namespace Scanner

theorem unquoting_consume {sc : Scanner} (h : Unquoting sc.buffer) {r : LexRule} {m : Nat}
    (hb : (longest sc.unread).best = some (r, m)) (hm : 0 < m)
    (hle : m ≤ (longest sc.unread).examined) (e : Bool) :
    Unquoting (sc.consume m (longest sc.unread).examined e).buffer := by
  by_cases hex : (longest sc.unread).examined < sc.buffer.length
  · have hbuf : (sc.consume m (longest sc.unread).examined e).buffer = sc.buffer.drop m := by
      simp only [consume, Nat.max_eq_right (Nat.le_of_lt hex)]
      exact congrArg (List.drop m) List.take_left
    rw [hbuf]
    exact h.drop hb hm hle hex
  · have hbuf : (sc.consume m (longest sc.unread).examined e).buffer =
        (sc.unread.take (longest sc.unread).examined).drop m := by
      simp only [consume, Nat.max_eq_left (Nat.le_of_not_lt hex)]
    rw [hbuf]
    exact unquoting_beyond hb

theorem unquoting_yylex {sc : Scanner} (h : Unquoting sc.buffer) :
    Unquoting (yylex sc).2.buffer := by
  have fuel : ∀ (n : Nat) (sc : Scanner), Unquoting sc.buffer →
      Unquoting (yylexFuel n sc).2.buffer := by
    intro n
    induction n with
    | zero => intro sc h; exact h
    | succ n ih =>
      intro sc h
      unfold yylexFuel
      split
      · exact unquoting_of_guarded .nil
      · rename_i hne
        obtain ⟨c, text, hu⟩ := List.exists_cons_of_ne_nil hne
        obtain ⟨r, m, hb, hm, hle⟩ := longest_cons c text
        rw [← hu] at hb hle
        have hnext := unquoting_consume h hb hm hle (longest sc.unread).hitEnd
        simp only [hb]
        split
        · exact ih _ hnext
        · exact hnext
  exact fuel _ sc h

end Scanner

end Cush
