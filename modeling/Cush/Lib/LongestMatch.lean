/-!
# Longest match with lookahead accounting

A generated scanner runs the automaton of its rules over the unread text and remembers the last
accepting state it was in. It stops where no transition is possible. A state without any outgoing
transition stops it before it looks at the next character; elsewhere it has to read one more
character, or meet the end of the text, to find out. `Dfa.scan` returns the match together with how
much text has been looked at, since what has been read beyond the match stays in the buffer.
-/

/-- An automaton with prioritised accepting rules; `live` marks the states with an outgoing
transition. -/
structure Dfa (σ α ρ : Type) where
  start : σ
  next : σ → α → Option σ
  accept : σ → Option ρ
  live : σ → Bool

/-- The outcome of one scan: the rule and length of the longest match, how many characters were
looked at, and whether the end of the text was. -/
structure Scan (ρ : Type) where
  best : Option (ρ × Nat)
  examined : Nat
  hitEnd : Bool
  deriving Repr, DecidableEq

namespace Dfa

variable {σ α ρ : Type} (M : Dfa σ α ρ)

def scan : σ → List α → Nat → Option (ρ × Nat) → Scan ρ
  | q, [], n, best =>
    let best := ((M.accept q).map (·, n)).or best
    if M.live q then ⟨best, n, true⟩ else ⟨best, n, false⟩
  | q, x :: xs, n, best =>
    let best := ((M.accept q).map (·, n)).or best
    if M.live q then
      match M.next q x with
      | none => ⟨best, n + 1, false⟩
      | some q' => scan q' xs (n + 1) best
    else ⟨best, n, false⟩

theorem scan_step {q q' : σ} {x : α} (hl : M.live q = true) (hn : M.next q x = some q')
    (xs : List α) (n : Nat) (best : Option (ρ × Nat)) :
    M.scan q (x :: xs) n best = M.scan q' xs (n + 1) (((M.accept q).map (·, n)).or best) := by
  simp only [scan, hl, hn, if_true]

theorem scan_examined : ∀ (xs : List α) (q : σ) (n : Nat) (best : Option (ρ × Nat)),
    n ≤ (M.scan q xs n best).examined ∧ (M.scan q xs n best).examined ≤ n + xs.length ∧
      ((M.scan q xs n best).hitEnd = true → (M.scan q xs n best).examined = n + xs.length) := by
  intro xs
  induction xs with
  | nil =>
    intro q n best
    unfold scan
    dsimp only
    split <;> simp
  | cons x xs ih =>
    intro q n best
    unfold scan
    dsimp only
    split
    · split
      · simp
      · rename_i q' _
        obtain ⟨h1, h2, h3⟩ := ih q' (n + 1) (((M.accept q).map (·, n)).or best)
        refine ⟨by omega, by simp only [List.length_cons]; omega, fun h => ?_⟩
        have := h3 h
        simp only [List.length_cons]
        omega
    · simp

/-- A match found by a scan is one of before, or it ends inside the text looked at. -/
theorem scan_best_le : ∀ (xs : List α) (q : σ) (n : Nat) (best : Option (ρ × Nat)) {r : ρ}
    {m : Nat},
    (M.scan q xs n best).best = some (r, m) →
      best = some (r, m) ∨ n ≤ m ∧ m ≤ (M.scan q xs n best).examined := by
  have pick : ∀ {q : σ} {n : Nat} {best : Option (ρ × Nat)} {r : ρ} {m : Nat},
      ((M.accept q).map (·, n)).or best = some (r, m) → best = some (r, m) ∨ m = n := by
    intro q n best r m h
    cases ha : M.accept q with
    | none => rw [ha] at h; exact Or.inl h
    | some a =>
      rw [ha] at h
      simp only [Option.map_some, Option.some_or, Option.some.injEq, Prod.mk.injEq] at h
      exact Or.inr h.2.symm
  intro xs
  induction xs with
  | nil =>
    intro q n best r m h
    unfold scan at h ⊢
    dsimp only at h ⊢
    split at h
    · rename_i hl
      rw [if_pos hl]
      rcases pick h with hb | rfl
      · exact Or.inl hb
      · exact Or.inr ⟨Nat.le_refl _, Nat.le_refl _⟩
    · rename_i hl
      rw [if_neg hl]
      rcases pick h with hb | rfl
      · exact Or.inl hb
      · exact Or.inr ⟨Nat.le_refl _, Nat.le_refl _⟩
  | cons x xs ih =>
    intro q n best r m h
    have hex := M.scan_examined (x :: xs) q n best
    unfold scan at h
    dsimp only at h
    split at h
    · rename_i hl
      split at h
      · rcases pick h with hb | rfl
        · exact Or.inl hb
        · exact Or.inr ⟨Nat.le_refl _, hex.1⟩
      · rename_i q' hq
        have e : M.scan q (x :: xs) n best =
            M.scan q' xs (n + 1) (((M.accept q).map (·, n)).or best) := by
          simp only [scan, hl, hq, if_true]
        rcases ih q' (n + 1) _ h with hb | ⟨h1, h2⟩
        · rcases pick hb with hb | rfl
          · exact Or.inl hb
          · exact Or.inr ⟨Nat.le_refl _, hex.1⟩
        · exact Or.inr ⟨by omega, by rw [e]; exact h2⟩
    · rcases pick h with hb | rfl
      · exact Or.inl hb
      · exact Or.inr ⟨Nat.le_refl _, hex.1⟩

/-- Once a match is known, a scan returns one at least as long. -/
theorem scan_best_some : ∀ (xs : List α) (q : σ) (n : Nat) (r : ρ) (m : Nat), m ≤ n →
    ∃ r' m', (M.scan q xs n (some (r, m))).best = some (r', m') ∧ m ≤ m' := by
  have pick : ∀ (q : σ) (n : Nat) (r : ρ) (m : Nat), m ≤ n →
      ∃ r' m', ((M.accept q).map (·, n)).or (some (r, m)) = some (r', m') ∧ m ≤ m' ∧ m' ≤ n := by
    intro q n r m hmn
    cases M.accept q with
    | none => exact ⟨r, m, rfl, Nat.le_refl _, hmn⟩
    | some a => exact ⟨a, n, rfl, hmn, Nat.le_refl _⟩
  intro xs
  induction xs with
  | nil =>
    intro q n r m hmn
    obtain ⟨r', m', he, hle, -⟩ := pick q n r m hmn
    unfold scan
    dsimp only
    split <;> exact ⟨r', m', he, hle⟩
  | cons x xs ih =>
    intro q n r m hmn
    obtain ⟨r', m', he, hle, hn⟩ := pick q n r m hmn
    unfold scan
    dsimp only
    rw [he]
    split
    · split
      · exact ⟨r', m', rfl, hle⟩
      · rename_i q' _
        obtain ⟨r'', m'', he', hle'⟩ := ih q' (n + 1) r' m' (by omega)
        exact ⟨r'', m'', he', by omega⟩
    · exact ⟨r', m', rfl, hle⟩

/-- A property of the rules that accept in the states of a scan holds of the rule it returns. -/
theorem scan_best_rule {P : σ → Prop} {R : ρ → Prop} (hacc : ∀ q r, P q → M.accept q = some r → R r)
    (hnext : ∀ q x q', P q → M.next q x = some q' → P q') :
    ∀ (xs : List α) (q : σ) (n : Nat) (best : Option (ρ × Nat)), P q →
      (∀ r m, best = some (r, m) → R r) → ∀ r m, (M.scan q xs n best).best = some (r, m) → R r := by
  have pick : ∀ (q : σ) (n : Nat) (best : Option (ρ × Nat)), P q →
      (∀ r m, best = some (r, m) → R r) →
      ∀ r m, ((M.accept q).map (·, n)).or best = some (r, m) → R r := by
    intro q n best hq hbest r m h
    cases ha : M.accept q with
    | none => rw [ha] at h; exact hbest r m h
    | some a =>
      rw [ha] at h
      simp only [Option.map_some, Option.some_or, Option.some.injEq, Prod.mk.injEq] at h
      exact h.1 ▸ hacc q a hq ha
  intro xs
  induction xs with
  | nil =>
    intro q n best hq hbest r m h
    unfold scan at h
    dsimp only at h
    split at h <;> exact pick q n best hq hbest r m h
  | cons x xs ih =>
    intro q n best hq hbest r m h
    unfold scan at h
    dsimp only at h
    split at h
    · split at h
      · exact pick q n best hq hbest r m h
      · rename_i q' hq'
        exact ih q' (n + 1) _ (hnext q x q' hq hq') (pick q n best hq hbest) r m h
    · exact pick q n best hq hbest r m h

/-! ## Where a scan stops -/

/-- A scan that has not looked beyond a prefix of the text does not depend on what follows it. -/
theorem scan_append : ∀ (xs ys zs : List α) (q : σ) (n : Nat) (best : Option (ρ × Nat)),
    (M.scan q (xs ++ ys) n best).examined ≤ n + xs.length →
      (M.scan q (xs ++ ys) n best).hitEnd = false →
      M.scan q (xs ++ zs) n best = M.scan q (xs ++ ys) n best := by
  intro xs
  induction xs with
  | nil =>
    intro ys zs q n best hex hend
    rw [List.nil_append, List.length_nil, Nat.add_zero] at hex
    rw [List.nil_append] at hend
    have hdead : M.live q = false := by
      apply Bool.eq_false_iff.2
      intro hl
      cases ys with
      | nil => simp [scan, hl] at hend
      | cons y ys =>
        cases hn : M.next q y with
        | none =>
          simp only [scan, hl, hn, if_true] at hex
          omega
        | some q' =>
          rw [M.scan_step hl hn] at hex
          have := (M.scan_examined ys q' (n + 1) (((M.accept q).map (·, n)).or best)).1
          omega
    rw [List.nil_append, List.nil_append]
    cases ys <;> cases zs <;> simp [scan, hdead]
  | cons x xs ih =>
    intro ys zs q n best hex hend
    rw [List.cons_append, List.length_cons] at hex
    rw [List.cons_append] at hend ⊢
    rw [List.cons_append]
    by_cases hl : M.live q = true
    · cases hn : M.next q x with
      | none => simp only [scan, hl, hn, if_true]
      | some q' =>
        rw [M.scan_step hl hn] at hex hend
        rw [M.scan_step hl hn, M.scan_step hl hn]
        exact ih ys zs q' _ _ (by omega) hend
    · simp only [scan, if_neg hl]

/-- What a scan has looked at beyond its match: `P` speaks of the text read since the last accepting
state, in every state, and `G` of that text where the scan stops. -/
theorem scan_beyond {P : σ → List α → Prop} {G : List α → Prop}
    (hstart : ∀ q r, M.accept q = some r → P q [])
    (hnext : ∀ q v x q', P q v → M.next q x = some q' → M.accept q' = none → P q' (v ++ [x]))
    (hstop : ∀ q v x, P q v → M.next q x = none → G (v ++ [x])) (hend : ∀ q v, P q v → G v) :
    ∀ (xs pre : List α) (q : σ) (r0 : ρ) (m0 : Nat), m0 ≤ pre.length →
      (M.accept q = none → P q (pre.drop m0)) → ∀ (r : ρ) (m : Nat),
      (M.scan q xs pre.length (some (r0, m0))).best = some (r, m) →
        G (((pre ++ xs).take (M.scan q xs pre.length (some (r0, m0))).examined).drop m) := by
  have pick : ∀ (pre : List α) (q : σ) (r0 : ρ) (m0 : Nat), m0 ≤ pre.length →
      (M.accept q = none → P q (pre.drop m0)) →
      ∃ r1 m1, ((M.accept q).map (·, pre.length)).or (some (r0, m0)) = some (r1, m1) ∧
        m1 ≤ pre.length ∧ P q (pre.drop m1) := by
    intro pre q r0 m0 hm hP
    cases ha : M.accept q with
    | none => exact ⟨r0, m0, rfl, hm, hP ha⟩
    | some r => exact ⟨r, pre.length, rfl, Nat.le_refl _, by simpa using hstart q r ha⟩
  intro xs
  induction xs with
  | nil =>
    intro pre q r0 m0 hm hP r m hb
    obtain ⟨r1, m1, hbest, -, hP1⟩ := pick pre q r0 m0 hm hP
    have hscan : (M.scan q [] pre.length (some (r0, m0))).best = some (r1, m1) ∧
        (M.scan q [] pre.length (some (r0, m0))).examined = pre.length := by
      simp only [scan, hbest]
      split <;> exact ⟨rfl, rfl⟩
    rw [hscan.1, Option.some.injEq, Prod.mk.injEq] at hb
    obtain ⟨rfl, rfl⟩ := hb
    rw [hscan.2, List.append_nil, List.take_length]
    exact hend q _ hP1
  | cons x xs ih =>
    intro pre q r0 m0 hm hP r m hb
    obtain ⟨r1, m1, hbest, hm1, hP1⟩ := pick pre q r0 m0 hm hP
    have hsnoc : (pre ++ [x]).drop m1 = pre.drop m1 ++ [x] := List.drop_append_of_le_length hm1
    by_cases hl : M.live q = true
    · cases hn : M.next q x with
      | none =>
        simp only [scan, hl, hn, if_true, hbest, Option.some.injEq, Prod.mk.injEq] at hb ⊢
        obtain ⟨rfl, rfl⟩ := hb
        have htake : (pre ++ x :: xs).take (pre.length + 1) = pre ++ [x] := by
          rw [List.take_length_add_append, List.take_succ_cons, List.take_zero]
        rw [htake, hsnoc]
        exact hstop q _ x hP1 hn
      | some q' =>
        have hlen : pre.length + 1 = (pre ++ [x]).length := by simp
        rw [M.scan_step hl hn, hbest, hlen] at hb ⊢
        have hrest := ih (pre ++ [x]) q' r1 m1 (by rw [List.length_append]; omega)
          (fun ha => hsnoc ▸ hnext q _ x q' hP1 hn ha) r m hb
        rwa [List.append_assoc] at hrest
    · simp only [scan, if_neg hl, hbest, Option.some.injEq, Prod.mk.injEq] at hb ⊢
      obtain ⟨rfl, rfl⟩ := hb
      rw [List.take_left]
      exact hend q _ hP1

end Dfa
