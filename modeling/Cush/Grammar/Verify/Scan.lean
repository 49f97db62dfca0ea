import Cush.Grammar.Scanner

/-!
# What the scanner delivers

`yylex` works on a buffer that is refilled as it scans. Its tokens depend on the unread text alone,
and a call that reports the end leaves the scanner as if it had just been initialised, except for
the input line, which the next parse replaces.
-/

namespace Cush

/-- Every character starts a token or a run of blanks. -/
theorem LexState.start_next (c : Char) :
    ∃ q r, LexState.next .start c = some q ∧ q.accept = some r := by
  unfold LexState.next
  dsimp only
  split
  · exact ⟨_, _, rfl, rfl⟩
  split
  · exact ⟨_, _, rfl, rfl⟩
  split
  · exact ⟨_, _, rfl, rfl⟩
  split
  · exact ⟨_, _, rfl, rfl⟩
  split
  · exact ⟨_, _, rfl, rfl⟩
  · exact ⟨_, _, rfl, rfl⟩

namespace Scanner

/-- The longest match after the first character. -/
theorem longest_best {c : Char} {q : LexState} {r : LexRule} (hq : LexState.next .start c = some q)
    (hr : q.accept = some r) (text : List Char) :
    (longest (c :: text)).best = (lexDfa.scan q text 1 (some (r, 1))).best := by
  have hscan : longest (c :: text) = lexDfa.scan q text 1 (some (.blanks, 0)) := by
    simp [longest, lexDfa, Dfa.scan, LexState.live, LexState.accept, hq]
  have ha : lexDfa.accept q = some r := hr
  rw [hscan]
  cases text with
  | nil => simp [Dfa.scan, ha]
  | cons d text => simp [Dfa.scan, ha]

/-- A match is found in every nonempty text, inside what has been looked at. -/
theorem longest_cons (c : Char) (text : List Char) :
    ∃ r m, (longest (c :: text)).best = some (r, m) ∧ 0 < m ∧
      m ≤ (longest (c :: text)).examined := by
  obtain ⟨q, r, hq, hr⟩ := LexState.start_next c
  have hbest := longest_best hq hr text
  obtain ⟨r', m, hb, hm⟩ := lexDfa.scan_best_some text q 1 r 1 (Nat.le_refl _)
  refine ⟨r', m, hbest.trans hb, hm, ?_⟩
  rcases lexDfa.scan_best_le (c :: text) .start 0 none (hbest.trans hb) with h | h
  · cases h
  · exact h.2

theorem examined_le (text : List Char) : (longest text).examined ≤ text.length := by
  have h := (lexDfa.scan_examined text .start 0 none).2.1
  rwa [Nat.zero_add] at h

theorem examined_hitEnd {text : List Char} (h : (longest text).hitEnd = true) :
    (longest text).examined = text.length := by
  have h' := (lexDfa.scan_examined text .start 0 none).2.2 h
  rwa [Nat.zero_add] at h'

/-- Consuming a match removes it from the unread text. -/
theorem unread_consume {s : Scanner} {m n : Nat} {e : Bool} (hm : m ≤ n)
    (hn : n ≤ s.unread.length) (he : e = true → n = s.unread.length) :
    (s.consume m n e).unread = s.unread.drop m := by
  obtain ⟨buffer, pending, line⟩ := s
  cases pending with
  | true =>
    simp only [unread, if_true, List.append_nil] at hn
    have hmax : max n buffer.length = buffer.length := by omega
    simp [unread, consume, hmax]
  | false =>
    have hu : unread ⟨buffer, false, line⟩ = buffer ++ line := rfl
    have hlen : (buffer ++ line).length = buffer.length + line.length := List.length_append
    rw [hu, hlen] at hn he
    cases e with
    | true =>
      have hmax : max n buffer.length = (buffer ++ line).length := by
        have := he rfl
        omega
      simp only [unread, consume, Bool.false_or, if_true, List.append_nil, Bool.false_eq_true,
        if_false, hmax, List.take_length]
    | false =>
      have hu' : (consume ⟨buffer, false, line⟩ m n false).unread =
          ((buffer ++ line).take (max n buffer.length)).drop m ++
            line.drop (max n buffer.length - buffer.length) := rfl
      generalize hk : max n buffer.length = k at hu'
      have hmk : m ≤ k := by omega
      have hbk : buffer.length ≤ k := by omega
      have hkl : k ≤ (buffer ++ line).length := by omega
      have hrest : line.drop (k - buffer.length) = (buffer ++ line).drop k := by
        rw [List.drop_append, List.drop_eq_nil_of_le hbk, List.nil_append]
      have htake : m ≤ ((buffer ++ line).take k).length := by
        rw [List.length_take_of_le hkl]
        exact hmk
      rw [hu', hu, hrest, ← List.drop_append_of_le_length htake, List.take_append_drop]

end Scanner

/-! ## The tokens of a text -/

theorem lexFuel_congr : ∀ (f g : Nat) (text : List Char), text.length ≤ f → text.length ≤ g →
    lexFuel f text = lexFuel g text := by
  intro f
  induction f with
  | zero =>
    intro g text hf _
    obtain rfl := List.length_eq_zero_iff.1 (Nat.le_zero.1 hf)
    cases g <;> rfl
  | succ f ih =>
    intro g text hf hg
    cases text with
    | nil => cases g <;> rfl
    | cons c text =>
      cases g with
      | zero => exact absurd hg (Nat.not_succ_le_zero _)
      | succ g =>
        obtain ⟨r, m, hb, hm, -⟩ := Scanner.longest_cons c text
        have hlen : ((c :: text).drop m).length ≤ text.length := by
          rw [List.length_drop, List.length_cons]
          omega
        rw [List.length_cons] at hf hg
        have hrest := ih g ((c :: text).drop m) (by omega) (by omega)
        simp only [lexFuel, hb, hrest]

/-- The first lexeme of a text and the tokens after it. -/
theorem lex_cons {c : Char} {text : List Char} {r : LexRule} {m : Nat}
    (hb : (Scanner.longest (c :: text)).best = some (r, m)) (hm : 0 < m) :
    lex (c :: text) = (r.token ((c :: text).take m)).toList ++ lex ((c :: text).drop m) := by
  have hlen : ((c :: text).drop m).length ≤ text.length := by
    rw [List.length_drop, List.length_cons]
    omega
  have hrest : lexFuel text.length ((c :: text).drop m) = lex ((c :: text).drop m) :=
    lexFuel_congr _ _ _ hlen (Nat.le_refl _)
  rw [lex, List.length_cons, lexFuel, hb]
  dsimp only
  rw [hrest]
  cases r.token ((c :: text).take m) <;> rfl

theorem lex_length_le (text : List Char) : (lex text).length ≤ text.length := by
  induction hn : text.length using Nat.strongRecOn generalizing text with
  | ind n ih =>
    cases text with
    | nil => exact Nat.zero_le _
    | cons c text =>
      obtain ⟨r, m, hb, hm, -⟩ := Scanner.longest_cons c text
      have hlen : ((c :: text).drop m).length < n := by
        rw [List.length_drop, hn]
        rw [List.length_cons] at hn
        omega
      have hrest := ih _ hlen ((c :: text).drop m) rfl
      have htok : (r.token ((c :: text).take m)).toList.length ≤ 1 := by
        cases r.token ((c :: text).take m) <;> simp
      rw [lex_cons hb hm, List.length_append]
      omega

/-! ## Blanks and semicolons -/

/-- From the state of the blanks a scan matches the blanks at the start of the text. -/
theorem scan_blanks : ∀ (text : List Char) (n : Nat) (best : Option (LexRule × Nat)),
    (lexDfa.scan .blanks text n best).best =
      some (.blanks, n + (text.takeWhile isBlank).length) := by
  have ha : lexDfa.accept .blanks = some .blanks := rfl
  intro text
  induction text with
  | nil =>
    intro n best
    simp only [Dfa.scan, ha]
    split <;> rfl
  | cons c text ih =>
    intro n best
    have hl : lexDfa.live .blanks = true := rfl
    by_cases hc : isBlank c = true
    · have hn : lexDfa.next .blanks c = some .blanks := if_pos hc
      simp only [Dfa.scan, hl, hn, if_true, ih, List.takeWhile_cons, hc, List.length_cons]
      rw [Nat.add_right_comm, Nat.add_assoc]
    · have hn : lexDfa.next .blanks c = none := if_neg hc
      simp [Dfa.scan, hl, hn, ha, hc]

theorem longest_blank {c : Char} (hc : isBlank c = true) (text : List Char) :
    (Scanner.longest (c :: text)).best = some (.blanks, 1 + (text.takeWhile isBlank).length) := by
  have hn : lexDfa.next .start c = some .blanks := if_pos hc
  have hl : lexDfa.live .start = true := rfl
  have hs : Scanner.longest (c :: text) = lexDfa.scan .blanks text 1 (some (.blanks, 0)) := by
    have ha : lexDfa.accept .start = some .blanks := rfl
    show lexDfa.scan .start (c :: text) 0 none = _
    simp [Dfa.scan, hl, hn, ha]
  rw [hs, scan_blanks]

theorem lex_blanks {c : Char} (hc : isBlank c = true) (text : List Char) :
    lex (c :: text) = lex (text.dropWhile isBlank) := by
  rw [lex_cons (longest_blank hc text) (by omega)]
  have hdrop : (c :: text).drop (1 + (text.takeWhile isBlank).length) =
      text.dropWhile isBlank := by
    rw [Nat.add_comm, List.drop_succ_cons]
    have hsplit : text = text.takeWhile isBlank ++ text.dropWhile isBlank :=
      List.takeWhile_append_dropWhile.symm
    exact (congrArg (List.drop _) hsplit).trans List.drop_left
  rw [hdrop]
  rfl

/-- A blank at the start of a text does not change its tokens. -/
theorem lex_blank {c : Char} (hc : isBlank c = true) (text : List Char) :
    lex (c :: text) = lex text := by
  rw [lex_blanks hc]
  cases text with
  | nil => rfl
  | cons d text =>
    by_cases hd : isBlank d = true
    · rw [lex_blanks hd, List.dropWhile_cons, if_pos hd]
    · rw [List.dropWhile_cons, if_neg hd]

theorem lex_semicolon (text : List Char) : lex (';' :: text) = .semicolon :: lex text := by
  have hb : (Scanner.longest (';' :: text)).best = some (.operator, 1) := by
    cases text <;> rfl
  rw [lex_cons hb Nat.one_pos]
  rfl

/-- The states after the first character of a lexeme that is no run of blanks. -/
def LexState.Inside : LexState → Prop
  | .start | .blanks | .matched .blanks => False
  | _ => True

theorem LexState.inside_next {q q' : LexState} {c : Char} (h : q.Inside)
    (hn : q.next c = some q') : q'.Inside := by
  cases q <;> simp only [LexState.next] at hn
  case start => exact h.elim
  case blanks => exact h.elim
  all_goals
    repeat' split at hn
    all_goals cases hn <;> trivial

theorem LexState.inside_accept {q : LexState} {r : LexRule} (h : q.Inside)
    (hr : q.accept = some r) : r ≠ .blanks := by
  rintro rfl
  cases q with
  | start => exact h
  | blanks => exact h
  | matched r => cases hr; exact h
  | quoted plain => cases plain <;> cases hr
  | escape plain => cases plain <;> cases hr
  | _ => cases hr

/-- A character other than a blank starts a lexeme that is no run of blanks. -/
theorem longest_nonblank {c : Char} (hb : isBlank c = false) (text : List Char) :
    ∃ r m, (Scanner.longest (c :: text)).best = some (r, m + 1) ∧ r ≠ .blanks := by
  have hin : ∃ q r, LexState.next .start c = some q ∧ q.accept = some r ∧ q.Inside := by
    unfold LexState.next
    simp only [hb, Bool.false_eq_true, if_false]
    repeat' split
    all_goals exact ⟨_, _, rfl, rfl, trivial⟩
  obtain ⟨q, r, hq, hr, hin⟩ := hin
  obtain ⟨r', m, hbest, hm, -⟩ := Scanner.longest_cons c text
  obtain ⟨m, rfl⟩ : ∃ k, m = k + 1 := ⟨m - 1, by omega⟩
  refine ⟨r', m, hbest, ?_⟩
  rw [Scanner.longest_best hq hr] at hbest
  refine lexDfa.scan_best_rule (P := LexState.Inside) (R := (· ≠ .blanks))
    (fun _ _ => LexState.inside_accept) (fun _ _ _ => LexState.inside_next) text q 1 _ hin ?_
    r' (m + 1) hbest
  intro r1 _ h1
  cases h1
  exact LexState.inside_accept hin hr

theorem token_ne_semicolon {c : Char} {r : LexRule} (hr : r ≠ .blanks) (hc : c ≠ ';')
    (yytext : List Char) : ∃ t, r.token (c :: yytext) = some t ∧ t ≠ .semicolon := by
  cases r with
  | blanks => exact absurd rfl hr
  | operator =>
    simp only [LexRule.token, List.head?_cons]
    split
    · exact ⟨_, rfl, by simp⟩
    · exact ⟨_, rfl, by simp⟩
    · rename_i h
      exact absurd (Option.some.inj h) hc
    · exact ⟨_, rfl, by simp⟩
    · exact ⟨_, rfl, by simp⟩
    · exact ⟨_, rfl, by simp⟩
  | _ => exact ⟨_, rfl, by simp⟩

/-- A character other than a blank or a semicolon starts a token that is no semicolon. -/
theorem lex_other {c : Char} (hb : isBlank c = false) (hc : c ≠ ';') (text : List Char) :
    ∃ t ts, lex (c :: text) = t :: ts ∧ t ≠ .semicolon := by
  obtain ⟨r, m, hbest, hr⟩ := longest_nonblank hb text
  obtain ⟨t, ht, hne⟩ := token_ne_semicolon hr hc (text.take m)
  refine ⟨t, lex ((c :: text).drop (m + 1)), ?_, hne⟩
  rw [lex_cons hbest (Nat.succ_pos m), List.take_succ_cons, ht]
  rfl

/-- Whether a character is skipped, or a separator that adds nothing at the start of a line. -/
def isFiller (c : Char) : Bool :=
  isBlank c || c == ';'

/-- Blanks and semicolons before a text add semicolons to its tokens. -/
theorem lex_filler : ∀ (pre : List Char), pre.all isFiller = true → ∀ text : List Char,
    ∃ n, lex (pre ++ text) = List.replicate n .semicolon ++ lex text := by
  intro pre
  induction pre with
  | nil => intro _ text; exact ⟨0, rfl⟩
  | cons c pre ih =>
    intro h text
    rw [List.all_cons, Bool.and_eq_true] at h
    obtain ⟨n, hn⟩ := ih h.2 text
    rw [List.cons_append]
    by_cases hb : isBlank c = true
    · exact ⟨n, (lex_blank hb _).trans hn⟩
    · have hc : c = ';' := by simpa [isFiller, hb] using h.1
      refine ⟨n + 1, ?_⟩
      rw [hc, lex_semicolon, hn]
      rfl

/-- Conversely a text whose tokens are semicolons consists of blanks and semicolons. -/
theorem filler_of_lex : ∀ (text : List Char) (n : Nat), lex text = List.replicate n .semicolon →
    text.all isFiller = true := by
  intro text
  induction text with
  | nil => intro _ _; rfl
  | cons c text ih =>
    intro n h
    rw [List.all_cons, Bool.and_eq_true]
    by_cases hb : isBlank c = true
    · rw [lex_blank hb] at h
      exact ⟨by simp [isFiller, hb], ih n h⟩
    · by_cases hc : c = ';'
      · rw [hc, lex_semicolon] at h
        cases n with
        | zero => cases h
        | succ n => exact ⟨by simp [isFiller, hc], ih n (List.cons.inj h).2⟩
      · obtain ⟨t, ts, hlex, hne⟩ := lex_other (Bool.eq_false_iff.2 hb) hc text
        rw [hlex] at h
        cases n with
        | zero => cases h
        | succ n => exact absurd (List.cons.inj h).1 hne

/-! ## One call -/

namespace Scanner

/-- A call either finds no further token and restarts the scanner, or returns the first token of
the unread text and leaves the others unread. -/
theorem yylexFuel_spec : ∀ (fuel : Nat) (s : Scanner), s.unread.length < fuel →
    ((yylexFuel fuel s).1 = none ∧ lex s.unread = [] ∧
        (yylexFuel fuel s).2.buffer = [] ∧ (yylexFuel fuel s).2.eofPending = false) ∨
      ∃ t, (yylexFuel fuel s).1 = some t ∧ lex s.unread = t :: lex (yylexFuel fuel s).2.unread := by
  intro fuel
  induction fuel with
  | zero => intro s h; exact absurd h (Nat.not_lt_zero _)
  | succ fuel ih =>
    intro s hlt
    unfold yylexFuel
    split
    · rename_i hu
      rw [hu]
      exact Or.inl ⟨rfl, rfl, rfl, rfl⟩
    · rename_i hu
      obtain ⟨c, text, hu⟩ := List.exists_cons_of_ne_nil hu
      obtain ⟨r, m, hb, hm, hex⟩ := longest_cons c text
      have hle : (longest s.unread).examined ≤ s.unread.length := examined_le _
      have hend := @examined_hitEnd s.unread
      have hcons : (s.consume m (longest s.unread).examined (longest s.unread).hitEnd).unread =
          s.unread.drop m := unread_consume (by rw [hu]; exact hex) hle hend
      rw [← hu] at hb
      have hlex : lex s.unread = (r.token (s.unread.take m)).toList ++ lex (s.unread.drop m) := by
        rw [hu] at hb ⊢
        exact lex_cons hb hm
      simp only [hb]
      cases htok : r.token (s.unread.take m) with
      | none =>
        rw [htok, ← hcons] at hlex
        have hlt' : (s.consume m (longest s.unread).examined
            (longest s.unread).hitEnd).unread.length < fuel := by
          rw [hcons, List.length_drop]
          have : 0 < s.unread.length := by rw [hu]; exact Nat.succ_pos _
          omega
        rw [show lex s.unread = _ from hlex]
        exact ih _ hlt'
      | some t =>
        rw [htok] at hlex
        exact Or.inr ⟨t, rfl, by rw [hcons]; exact hlex⟩

theorem yylex_spec (s : Scanner) :
    ((yylex s).1 = none ∧ lex s.unread = [] ∧ (yylex s).2.buffer = [] ∧
        (yylex s).2.eofPending = false) ∨
      ∃ t, (yylex s).1 = some t ∧ lex s.unread = t :: lex (yylex s).2.unread :=
  yylexFuel_spec _ s (Nat.lt_succ_self _)

end Scanner

end Cush
