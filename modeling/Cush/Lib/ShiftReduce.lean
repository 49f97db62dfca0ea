/-!
# Shift-reduce parsers with default reductions

The skeleton of a table-driven LALR(1) parser as parser generators emit it, over arbitrary states,
tokens, rules and semantic values. Three features of the generated code are kept because they decide
how much input a failing parse has read: a state whose only entry is a default reduction reduces
without asking for a lookahead token, a default reduction is taken before an error is detected, and
on an error the stack is popped to the nearest state that shifts the error token. Semantic actions
may stop the parse.

`Tables.feed` is the reaction to one lookahead token (`none` is the end marker), `Tables.run` feeds
a token list, `Tables.drive` pulls the tokens from a lexer. `Simulates` relates the stacks of a
parser to the configurations of a smaller machine, one token at a time; `Simulates.run` lifts it to
whole inputs.
-/

namespace ShiftReduce

/-- What a parser does next: ask for a token, accept, stop in an action, give up on a syntax error.
`stuck` stands for a table lookup that the generated code never makes. -/
inductive Result (κ Val Stop : Type) where
  | more (k : κ)
  | accept (v : Val)
  | stop (e : Stop)
  | syntaxError
  | stuck

def Result.map {κ κ' Val Stop : Type} (f : κ → κ') : Result κ Val Stop → Result κ' Val Stop
  | .more k => .more (f k)
  | .accept v => .accept v
  | .stop e => .stop e
  | .syntaxError => .syntaxError
  | .stuck => .stuck

/-- The tables of a parser: shifts, default reductions, gotos, and the semantic actions. `final`
marks the state that shifts the end marker, `depth` bounds the reductions between two shifts. -/
structure Tables (St Nt Tok Rule Val Stop : Type) where
  start : St
  bottom : Val
  shift : St → Tok → Option St
  value : Tok → Val
  shiftError : St → Option St
  final : St → Bool
  reduce : St → Option Rule
  consistent : St → Bool
  arity : Rule → Nat
  lhs : Rule → Nt
  action : Rule → List Val → Option (Except Stop Val)
  goto : St → Nt → Option St
  depth : Nat

namespace Tables

variable {St Nt Tok Rule Val Stop : Type} (T : Tables St Nt Tok Rule Val Stop)

/-- A parser stack, top first: states with the semantic values of their accessing symbols. -/
abbrev Stack (_ : Tables St Nt Tok Rule Val Stop) := List (St × Val)

def initial : T.Stack :=
  [(T.start, T.bottom)]

/-- Run the action of `r` on the values of its right-hand side, pop them and push the left-hand
side. -/
def reduceBy (r : Rule) (stk : T.Stack) : Result T.Stack Val Stop :=
  match T.action r ((stk.take (T.arity r)).reverse.map Prod.snd) with
  | none => .stuck
  | some (.error e) => .stop e
  | some (.ok v) =>
    match stk.drop (T.arity r) with
    | [] => .stuck
    | (q, w) :: rest =>
      match T.goto q (T.lhs r) with
      | none => .stuck
      | some q' => .more ((q', v) :: (q, w) :: rest)

/-- Default reductions of consistent states, up to a state that needs a lookahead token. -/
def settle : Nat → T.Stack → Result T.Stack Val Stop
  | 0, _ => .stuck
  | _ + 1, [] => .stuck
  | fuel + 1, (q, v) :: rest =>
    if T.consistent q then
      match T.reduce q with
      | none => .stuck
      | some r =>
        match T.reduceBy r ((q, v) :: rest) with
        | .more stk => settle fuel stk
        | res => res
    else .more ((q, v) :: rest)

/-- Error recovery: pop to a state that shifts the error token. An error production here ends the
parse in its action, so nothing is resynchronised. -/
def recover : T.Stack → Result T.Stack Val Stop
  | [] => .syntaxError
  | (q, v) :: rest =>
    match T.shiftError q with
    | some q' => T.settle T.depth ((q', T.bottom) :: (q, v) :: rest)
    | none => recover rest

/-- One lookahead token: reduce until it is shifted, accepted or in error. -/
def feedFuel : Nat → T.Stack → Option Tok → Result T.Stack Val Stop
  | 0, _, _ => .stuck
  | _ + 1, [], _ => .stuck
  | fuel + 1, (q, v) :: rest, tok =>
    match tok, tok.bind (T.shift q) with
    | some t, some q' => T.settle T.depth ((q', T.value t) :: (q, v) :: rest)
    | _, _ =>
      if tok.isNone && T.final q then .accept v
      else
        match T.reduce q with
        | some r =>
          match T.reduceBy r ((q, v) :: rest) with
          | .more stk => feedFuel fuel stk tok
          | res => res
        | none => T.recover ((q, v) :: rest)

def feed (stk : T.Stack) (tok : Option Tok) : Result T.Stack Val Stop :=
  T.feedFuel T.depth stk tok

variable {T}

/-- A default reduction, taken with any lookahead token the state does not shift. -/
theorem feedFuel_reduce {fuel : Nat} {q : St} {v : Val} {rest : T.Stack} {tok : Option Tok}
    {r : Rule}
    (hs : tok.bind (T.shift q) = none) (hf : (tok.isNone && T.final q) = false)
    (hr : T.reduce q = some r) :
    T.feedFuel (fuel + 1) ((q, v) :: rest) tok =
      match T.reduceBy r ((q, v) :: rest) with
      | .more stk => T.feedFuel fuel stk tok
      | res => res := by
  simp only [feedFuel, hs, hf, hr, Bool.false_eq_true, if_false]

variable (T)

/-- Feed a list of tokens and then the end marker. -/
def run : T.Stack → List Tok → Result T.Stack Val Stop
  | stk, [] => T.feed stk none
  | stk, t :: ts =>
    match T.feed stk (some t) with
    | .more stk' => run stk' ts
    | res => res

/-- Feed the tokens a lexer delivers, at most `fuel` of them; also the state the lexer is left in.
-/
def drive {σ : Type} (lex : σ → Option Tok × σ) :
    Nat → T.Stack → σ → Result T.Stack Val Stop × σ
  | 0, _, s => (.stuck, s)
  | fuel + 1, stk, s =>
    match lex s with
    | (none, s') => (T.feed stk none, s')
    | (some t, s') =>
      match T.feed stk (some t) with
      | .more stk' => drive lex fuel stk' s'
      | res => (res, s')

end Tables

/-! ## Machines that follow a parser -/

section Machine

variable {κ Tok Val Stop : Type}

/-- Run a machine on a list of tokens and the end marker. -/
def runMachine (next : κ → Option Tok → Result κ Val Stop) : κ → List Tok → Result κ Val Stop
  | k, [] => next k none
  | k, t :: ts =>
    match next k (some t) with
    | .more k' => runMachine next k' ts
    | res => res

/-- Run a machine on a list of tokens without the end marker. -/
def feedAll (next : κ → Option Tok → Result κ Val Stop) : κ → List Tok → Result κ Val Stop
  | k, [] => .more k
  | k, t :: ts =>
    match next k (some t) with
    | .more k' => feedAll next k' ts
    | res => res

variable {next : κ → Option Tok → Result κ Val Stop}

theorem runMachine_append {k k' : κ} {ts us : List Tok} (h : feedAll next k ts = .more k') :
    runMachine next k (ts ++ us) = runMachine next k' us := by
  induction ts generalizing k with
  | nil =>
    simp only [feedAll, Result.more.injEq] at h
    rw [h, List.nil_append]
  | cons t ts ih =>
    simp only [feedAll] at h
    simp only [List.cons_append, runMachine]
    split at h
    · exact ih h
    · rename_i hne
      exact absurd h (hne k')

theorem runMachine_of_feedAll {k k' : κ} {ts : List Tok} (h : feedAll next k ts = .more k') :
    runMachine next k ts = next k' none := by
  rw [← List.append_nil ts, runMachine_append h]
  rfl

theorem feedAll_append {k k' : κ} {ts us : List Tok} (h : feedAll next k ts = .more k') :
    feedAll next k (ts ++ us) = feedAll next k' us := by
  induction ts generalizing k with
  | nil =>
    simp only [feedAll, Result.more.injEq] at h
    rw [h, List.nil_append]
  | cons t ts ih =>
    simp only [feedAll] at h
    simp only [List.cons_append, feedAll]
    split at h
    · exact ih h
    · rename_i hne
      exact absurd h (hne k')

/-- A map of configurations that commutes with each token commutes with whole inputs. -/
theorem runMachine_map {g : κ → κ} (h : ∀ k tok, next (g k) tok = (next k tok).map g)
    (ts : List Tok) (k : κ) : runMachine next (g k) ts = (runMachine next k ts).map g := by
  induction ts generalizing k with
  | nil => exact h k none
  | cons t ts ih =>
    simp only [runMachine, h k (some t)]
    cases next k (some t) with
    | more k' => exact ih k'
    | _ => rfl

/-- An invariant of a machine that is carried along a run, together with the tokens read so far. -/
theorem feedAll_invariant {I : List Tok → κ → Prop}
    (hstep : ∀ us k t k', I us k → next k (some t) = .more k' → I (us ++ [t]) k') :
    ∀ {ts us : List Tok} {k k' : κ}, I us k → feedAll next k ts = .more k' → I (us ++ ts) k' := by
  intro ts
  induction ts with
  | nil =>
    intro us k k' hi h
    simp only [feedAll, Result.more.injEq] at h
    simpa [← h] using hi
  | cons t ts ih =>
    intro us k k' hi h
    simp only [feedAll] at h
    split at h
    · rename_i k1 h1
      have := ih (hstep us k t k1 hi h1) h
      simpa using this
    · rename_i hne
      exact absurd h (hne k')

/-- Every run ends at one token, which it has reached by feeding those before it. -/
theorem runMachine_ends : ∀ (ts : List Tok) (k : κ),
    ∃ us k', feedAll next k us = .more k' ∧
      ((us = ts ∧ runMachine next k ts = next k' none) ∨
        ∃ t vs, ts = us ++ t :: vs ∧ runMachine next k ts = next k' (some t) ∧
          ∀ k'', next k' (some t) ≠ .more k'') := by
  intro ts
  induction ts with
  | nil => intro k; exact ⟨[], k, rfl, Or.inl ⟨rfl, rfl⟩⟩
  | cons t ts ih =>
    intro k
    cases h : next k (some t) with
    | more k1 =>
      obtain ⟨us, k', hf, hend⟩ := ih k1
      refine ⟨t :: us, k', by simp only [feedAll, h]; exact hf, ?_⟩
      have hr : runMachine next k (t :: ts) = runMachine next k1 ts := by simp only [runMachine, h]
      rcases hend with ⟨rfl, he⟩ | ⟨u, vs, rfl, he, hne⟩
      · exact Or.inl ⟨rfl, hr.trans he⟩
      · exact Or.inr ⟨u, vs, rfl, hr.trans he, hne⟩
    | _ =>
      refine ⟨[], k, rfl, Or.inr ⟨t, ts, rfl, ?_, ?_⟩⟩
      · simp only [runMachine, h]
      · intro k''; simp [h]

end Machine

/-! ## Simulation -/

section Simulation

variable {St Nt Tok Rule Val Stop κ : Type} {T : Tables St Nt Tok Rule Val Stop}

/-- `next` does on configurations what the parser does on the stacks `stack` makes of them. -/
def Simulates (T : Tables St Nt Tok Rule Val Stop) (stack : κ → T.Stack)
    (next : κ → Option Tok → Result κ Val Stop) : Prop :=
  ∀ k tok, T.feed (stack k) tok = (next k tok).map stack

theorem Simulates.run {stack : κ → T.Stack} {next : κ → Option Tok → Result κ Val Stop}
    (h : Simulates T stack next) (ts : List Tok) (k : κ) :
    T.run (stack k) ts = (runMachine next k ts).map stack := by
  induction ts generalizing k with
  | nil => exact h k none
  | cons t ts ih =>
    simp only [Tables.run, runMachine, h k (some t)]
    cases next k (some t) with
    | more k' => exact ih k'
    | _ => rfl

theorem Simulates.feedAll {stack : κ → T.Stack} {next : κ → Option Tok → Result κ Val Stop}
    (h : Simulates T stack next) (ts : List Tok) (k : κ) :
    feedAll T.feed (stack k) ts = (feedAll next k ts).map stack := by
  induction ts generalizing k with
  | nil => rfl
  | cons t ts ih =>
    simp only [ShiftReduce.feedAll, h k (some t)]
    cases next k (some t) with
    | more k' => exact ih k'
    | _ => rfl

end Simulation

/-! ## Parsing from a lexer -/

section Driver

variable {St Nt Tok Rule Val Stop σ : Type} {T : Tables St Nt Tok Rule Val Stop}

/-- `toks s` are the tokens the lexer delivers from the state `s` on. -/
def Delivers (lex : σ → Option Tok × σ) (toks : σ → List Tok) : Prop :=
  ∀ s, match (lex s).1 with
    | none => toks s = []
    | some t => toks s = t :: toks (lex s).2

variable {lex : σ → Option Tok × σ} {toks : σ → List Tok}

/-- A parse that pulls its tokens from a lexer is a parse of the tokens the lexer delivers. -/
theorem Delivers.drive_fst (h : Delivers lex toks) : ∀ (fuel : Nat) (stk : T.Stack) (s : σ),
    (toks s).length < fuel → (T.drive lex fuel stk s).1 = T.run stk (toks s) := by
  intro fuel
  induction fuel with
  | zero => intro stk s hlt; exact absurd hlt (Nat.not_lt_zero _)
  | succ fuel ih =>
    intro stk s hlt
    have hs := h s
    rcases hl : lex s with ⟨_ | t, s'⟩
    · rw [hl] at hs
      have hnil : toks s = [] := hs
      simp only [Tables.drive, hl, hnil, Tables.run]
    · rw [hl] at hs
      dsimp only at hs
      rw [hs, List.length_cons] at hlt
      simp only [Tables.drive, hl, hs, Tables.run]
      cases T.feed stk (some t) with
      | more stk' => exact ih stk' s' (by omega)
      | _ => rfl

/-- A parse that reads every token leaves the lexer at its end. -/
theorem Delivers.drive_snd (h : Delivers lex toks) {done : σ → Prop}
    (hdone : ∀ s, (lex s).1 = none → done (lex s).2) :
    ∀ (fuel : Nat) (stk stk' : T.Stack) (s : σ), (toks s).length < fuel →
      feedAll T.feed stk (toks s) = .more stk' → done (T.drive lex fuel stk s).2 := by
  intro fuel
  induction fuel with
  | zero => intro stk stk' s hlt; exact absurd hlt (Nat.not_lt_zero _)
  | succ fuel ih =>
    intro stk stk' s hlt hf
    have hs := h s
    have hd := hdone s
    rcases hl : lex s with ⟨_ | t, s'⟩
    · rw [hl] at hd
      simp only [Tables.drive, hl]
      exact hd rfl
    · rw [hl] at hs
      dsimp only at hs
      rw [hs, List.length_cons] at hlt
      rw [hs] at hf
      simp only [feedAll] at hf
      simp only [Tables.drive, hl]
      cases hn : T.feed stk (some t) with
      | more stk1 =>
        rw [hn] at hf
        exact ih stk1 stk' s' (by omega) hf
      | _ => rw [hn] at hf; cases hf

/-- What every call of the lexer preserves is preserved by a parse. -/
theorem drive_invariant {I : σ → Prop} (hI : ∀ s, I s → I (lex s).2) :
    ∀ (fuel : Nat) (stk : T.Stack) (s : σ), I s → I (T.drive lex fuel stk s).2 := by
  intro fuel
  induction fuel with
  | zero => intro stk s hs; exact hs
  | succ fuel ih =>
    intro stk s hs
    have hnext := hI s hs
    rcases hl : lex s with ⟨_ | t, s'⟩
    · rw [hl] at hnext
      simp only [Tables.drive, hl]
      exact hnext
    · rw [hl] at hnext
      simp only [Tables.drive, hl]
      cases T.feed stk (some t) with
      | more stk' => exact ih stk' s' hnext
      | _ => exact hnext

end Driver

end ShiftReduce
