import Cush.Grammar.Verify.Scan

/-!
# Words and quoted tokens

A lexeme that starts with a double quote is matched by two rules: as a quoted token up to the first
double quote without a backslash before it, and as a plain word up to the first blank or operator.
The longer match wins. The action of the quoted rule takes the quotes off and leaves the backslashes
in the value, so that quoting a text and scanning it gives the text back only where there was
nothing to escape and the plain word does not reach beyond the closing quote.
-/

namespace Cush

/-! ## Plain words -/

/-- From the state of a word a scan matches the word characters at the start of the text. -/
theorem scan_word : ∀ (text : List Char) (n : Nat) (best : Option (LexRule × Nat)),
    (lexDfa.scan .word text n best).best =
      some (.word, n + (text.takeWhile isWordChar).length) := by
  have ha : lexDfa.accept .word = some .word := rfl
  have hl : lexDfa.live .word = true := rfl
  intro text
  induction text with
  | nil =>
    intro n best
    simp only [Dfa.scan, ha]
    split <;> rfl
  | cons c text ih =>
    intro n best
    by_cases hc : isWordChar c = true
    · have hn : lexDfa.next .word c = some .word := if_pos hc
      rw [lexDfa.scan_step hl hn, ih, List.takeWhile_cons, if_pos hc, List.length_cons,
        Nat.add_right_comm, Nat.add_assoc]
    · have hn : lexDfa.next .word c = none := if_neg hc
      simp [Dfa.scan, hl, hn, ha, hc]

/-! ## Quoted tokens -/

/-- A text with a backslash before each double quote and each backslash. -/
def backslashed (s : List Char) : List Char :=
  s.flatMap fun c => if c = '"' ∨ c = '\\' then ['\\', c] else [c]

/-- The text of a quoted token. -/
def quotedText (s : List Char) : List Char :=
  '"' :: (backslashed s ++ ['"'])

theorem length_le_backslashed (s : List Char) : s.length ≤ (backslashed s).length := by
  induction s with
  | nil => exact Nat.le_refl _
  | cons c s ih =>
    simp only [backslashed, List.flatMap_cons, List.length_append, List.length_cons] at ih ⊢
    split <;> simp only [List.length_cons, List.length_nil] <;> omega

/-- Escaping leaves a text as it is exactly where there is nothing to escape. -/
theorem backslashed_eq_iff (s : List Char) : backslashed s = s ↔ '"' ∉ s ∧ '\\' ∉ s := by
  induction s with
  | nil => simp [backslashed]
  | cons c s ih =>
    have hcons : backslashed (c :: s) =
        (if c = '"' ∨ c = '\\' then ['\\', c] else [c]) ++ backslashed s := rfl
    rw [hcons]
    by_cases hc : c = '"' ∨ c = '\\'
    · rw [if_pos hc]
      refine ⟨fun h => ?_, fun h => ?_⟩
      · -- the escaped text is longer
        have hlen := congrArg List.length h
        have := length_le_backslashed s
        simp only [List.length_append, List.length_cons, List.length_nil] at hlen
        omega
      · rcases hc with rfl | rfl
        · exact absurd List.mem_cons_self h.1
        · exact absurd List.mem_cons_self h.2
    · rw [if_neg hc, List.singleton_append, List.cons.injEq, ih]
      simp only [not_or] at hc
      simp [Ne.symm hc.1, Ne.symm hc.2]

/-- Scanning an escaped text inside a quoted token: the closing quote ends it, and what has been
read is a plain word as well if all the characters are. -/
theorem scan_backslashed (t : List Char) : ∀ (s : List Char) (plain : Bool) (n : Nat)
    (best : Option (LexRule × Nat)), ∃ best',
      lexDfa.scan (.quoted plain) (backslashed s ++ '"' :: t) n best =
        lexDfa.scan (.closed (plain && s.all isWordChar)) t (n + (backslashed s).length + 1)
          best' := by
  have hl : ∀ b, lexDfa.live (.quoted b) = true := fun _ => rfl
  have hle : ∀ b, lexDfa.live (.escape b) = true := fun _ => rfl
  intro s
  induction s with
  | nil =>
    intro plain n best
    have hn : lexDfa.next (.quoted plain) '"' = some (.closed plain) := rfl
    rw [List.all_nil, Bool.and_true]
    exact ⟨_, lexDfa.scan_step (hl plain) hn t n best⟩
  | cons c s ih =>
    intro plain n best
    have hcons : backslashed (c :: s) =
        (if c = '"' ∨ c = '\\' then ['\\', c] else [c]) ++ backslashed s := rfl
    rw [hcons, List.append_assoc, List.all_cons, ← Bool.and_assoc]
    by_cases hc : c = '"' ∨ c = '\\'
    · have hw : isWordChar c = true := by rcases hc with rfl | rfl <;> rfl
      have hb : lexDfa.next (.quoted plain) '\\' = some (.escape plain) := rfl
      have hn : lexDfa.next (.escape plain) c = some (.quoted plain) := by
        rcases hc with rfl | rfl <;> cases plain <;> rfl
      rw [if_pos hc, hw, Bool.and_true]
      simp only [List.cons_append, List.nil_append, lexDfa.scan_step (hl plain) hb,
        lexDfa.scan_step (hle plain) hn, List.length_cons]
      refine (ih plain (n + 1 + 1) _).imp fun best' h => h.trans ?_
      congr 1
      omega
    · have hn : lexDfa.next (.quoted plain) c = some (.quoted (plain && isWordChar c)) := by
        rw [not_or] at hc
        exact (if_neg hc.1).trans (if_neg hc.2)
      rw [if_neg hc]
      simp only [List.cons_append, List.nil_append, lexDfa.scan_step (hl plain) hn,
        List.length_cons]
      refine (ih (plain && isWordChar c) (n + 1) _).imp fun best' h => h.trans ?_
      congr 1
      omega

/-- After the closing quote of a text that is no plain word the quoted token is matched. -/
theorem scan_closed (plain : Bool) (t : List Char) (n : Nat) (best : Option (LexRule × Nat)) :
    (lexDfa.scan (.closed plain) t n best).best =
      if (plain && t.head?.any isWordChar) = true then
        some (.word, n + (t.takeWhile isWordChar).length)
      else some (.quoted, n) := by
  have ha : lexDfa.accept (.closed plain) = some .quoted := rfl
  have hl : lexDfa.live (.closed plain) = plain := rfl
  cases t with
  | nil =>
    rw [List.head?_nil, Option.any_none, Bool.and_false]
    simp only [Dfa.scan, ha]
    split <;> rfl
  | cons c t =>
    rw [List.head?_cons, Option.any_some]
    by_cases hc : (plain && isWordChar c) = true
    · have hn : lexDfa.next (.closed plain) c = some .word := if_pos hc
      rw [Bool.and_eq_true] at hc
      rw [if_pos (by simp [hc]), lexDfa.scan_step (hl.trans hc.1) hn, scan_word,
        List.takeWhile_cons, if_pos hc.2, List.length_cons, Nat.add_right_comm, Nat.add_assoc]
    · have hn : lexDfa.next (.closed plain) c = none := if_neg hc
      rw [if_neg hc]
      simp only [Dfa.scan, ha, hn]
      split <;> rfl

/-- **The longest match at a quoted text**: the quoted token, unless the text is a plain word that
goes on behind the closing quote. -/
theorem longest_quoted (s t : List Char) :
    (Scanner.longest (quotedText s ++ t)).best =
      if (s.all isWordChar && t.head?.any isWordChar) = true then
        some (.word, (quotedText s).length + (t.takeWhile isWordChar).length)
      else some (.quoted, (quotedText s).length) := by
  have hn : lexDfa.next .start '"' = some (.quoted true) := rfl
  have htext : quotedText s ++ t = '"' :: (backslashed s ++ '"' :: t) := by simp [quotedText]
  have hlen : (quotedText s).length = 0 + 1 + (backslashed s).length + 1 := by
    simp [quotedText, Nat.add_comm]
  obtain ⟨best', h⟩ := scan_backslashed t s true 1 (((lexDfa.accept .start).map (·, 0)).or none)
  have hscan : Scanner.longest (quotedText s ++ t) =
      lexDfa.scan (.closed (s.all isWordChar)) t (0 + 1 + (backslashed s).length + 1) best' := by
    rw [htext]
    exact (lexDfa.scan_step rfl hn _ 0 none).trans h
  rw [hscan, scan_closed, hlen]

/-! ## One call of the scanner -/

namespace Scanner

/-- A lexeme at the start of the unread text whose action returns a token. -/
theorem yylex_of_best {sc : Scanner} {r : LexRule} {m : Nat} {tok : Token}
    (hb : (longest sc.unread).best = some (r, m)) (ht : r.token (sc.unread.take m) = some tok) :
    (yylex sc).1 = some tok ∧ (yylex sc).2.unread = sc.unread.drop m := by
  have hne : sc.unread ≠ [] := by
    intro hnil
    rw [hnil] at hb
    obtain rfl : LexRule.blanks = r := congrArg Prod.fst (Option.some.inj hb)
    cases ht
  obtain ⟨c, text, hu⟩ := List.exists_cons_of_ne_nil hne
  obtain ⟨r', m', hb', -, hex⟩ := longest_cons c text
  rw [← hu, hb] at hb'
  obtain ⟨rfl, rfl⟩ := Prod.mk.inj (Option.some.inj hb')
  rw [← hu] at hex
  have hcall : yylex sc =
      (some tok, sc.consume m (longest sc.unread).examined (longest sc.unread).hitEnd) := by
    simp only [yylex, yylexFuel, if_neg hne, hb, ht]
  rw [hcall]
  exact ⟨rfl, unread_consume hex (examined_le _) examined_hitEnd⟩

end Scanner

/-! ## Main result -/

/-- The text after a quoted token is taken for a part of it: there is nothing in the token that ends
a plain word, and a word goes on behind it. -/
def Glued (s t : List Char) : Prop :=
  (∀ c ∈ s, isWordChar c = true) ∧ ∃ c, t.head? = some c ∧ isWordChar c = true

theorem glued_iff (s t : List Char) :
    (s.all isWordChar && t.head?.any isWordChar) = true ↔ Glued s t := by
  rw [Bool.and_eq_true, List.all_eq_true, Option.any_eq_true_iff_get]
  unfold Glued
  cases t <;> simp

/-- **Quoting**: a quoted text is scanned as the word it stands for, and the scanner goes on behind
it, if and only if there is no double quote and no backslash in it and the text behind it is not
taken for a part of it. -/
theorem quoted_iff (sc : Scanner) (s t : List Char) (hu : sc.unread = quotedText s ++ t) :
    (sc.yylex.1 = some (.word s) ∧ sc.yylex.2.unread = t) ↔
      '"' ∉ s ∧ '\\' ∉ s ∧ ¬ Glued s t := by
  have hbest := longest_quoted s t
  by_cases hg : Glued s t
  · -- the plain word is longer than the text
    rw [if_pos ((glued_iff s t).2 hg), ← hu] at hbest
    obtain ⟨hw, hrest⟩ := Scanner.yylex_of_best hbest rfl
    refine ⟨fun h => ?_, fun h => absurd hg h.2.2⟩
    have hval := hw.symm.trans h.1
    simp only [Option.some.injEq, Token.word.injEq] at hval
    have hlen := congrArg List.length hval
    have hle := length_le_backslashed s
    have htake := (List.takeWhile_prefix isWordChar (l := t)).length_le
    rw [hu, List.length_take, List.length_append] at hlen
    simp only [quotedText, List.length_cons, List.length_append, List.length_nil] at hlen
    omega
  · rw [if_neg (mt (glued_iff s t).1 hg), ← hu] at hbest
    have htok : LexRule.quoted.token (sc.unread.take (quotedText s).length) =
        some (.word (backslashed s)) := by
      rw [hu, List.take_left]
      simp [LexRule.token, quotedText]
    obtain ⟨hw, hrest⟩ := Scanner.yylex_of_best hbest htok
    rw [hw, hrest, hu, List.drop_left]
    simp only [Option.some.injEq, Token.word.injEq, and_true, backslashed_eq_iff, hg,
      not_false_eq_true]

theorem quoted_iff_blank : (Scanner.yylex ⟨['"', 'a', ' ', 'b', '"', 'c'], false, []⟩).1 =
    some (.word ['a', ' ', 'b']) :=
  ((quoted_iff ⟨['"', 'a', ' ', 'b', '"', 'c'], false, []⟩ ['a', ' ', 'b'] ['c'] rfl).2
    ⟨by decide, by decide, fun h => absurd (h.1 ' ' (by decide)) (by decide)⟩).1

/-- The backslash of `"a\"b"` stays in the word. -/
theorem quoted_backslash : ¬ ∀ (sc : Scanner) (s t : List Char), '\n' ∉ s → '\x00' ∉ s →
    sc.unread = quotedText s ++ t → sc.yylex.1 = some (.word s) ∧ sc.yylex.2.unread = t := by
  intro h
  have hs := h ⟨[], false, quotedText ['a', '"', 'b']⟩ ['a', '"', 'b'] [] (by decide) (by decide)
    rfl
  exact absurd hs.1 (by decide)

/-- `"a"b` is one word with its quotes. -/
example :
    (Scanner.yylex ⟨[], false, ['"', 'a', '"', 'b']⟩).1 = some (.word ['"', 'a', '"', 'b']) := by
  decide

end Cush
