import Cush.Lib.Separation
import Cush.Lib.ShiftReduce

/-!
# Parsers whose actions work on a store

The semantic values of a generated parser are often pointers, and its actions programs that change
what they point at. Such actions run on the tables of a parser with values here, and `Implements`
says when each of them does in the store what the action on values does: a stack of pointers then
owns the memory of the stack of values, and a parse has the outcome of the parse with values
(`Implements.drive`), with nothing but the memory of its result if it accepts.
-/

namespace ShiftReduce

open Separation Separation.Assertion

/-- The actions of a parser as programs. The value of a token is made when the token is read; an
action does nothing with values that it is not made for. -/
structure StoreActions (Tok Rule Ptr Stop σ ε : Type) where
  bottom : Ptr
  value : Tok → StateT σ (Except ε) Ptr
  action : Rule → List Ptr → StateT σ (Except ε) (Option (Except Stop Ptr))

/-! ## The parser -/

namespace Tables

section Store

variable {St Nt Tok Rule Val Stop Ptr Stop' σ ε ρ : Type} (T : Tables St Nt Tok Rule Val Stop)
  (A : StoreActions Tok Rule Ptr Stop' σ ε)

/-- What the parser on a store does next. -/
abbrev StoreResult (St Ptr Stop' : Type) := Result (List (St × Ptr)) Ptr Stop'

def reduceOn (r : Rule) (stk : List (St × Ptr)) :
    StateT σ (Except ε) (StoreResult St Ptr Stop') := do
  match ← A.action r ((stk.take (T.arity r)).reverse.map Prod.snd) with
  | none => return .stuck
  | some (.error e) => return .stop e
  | some (.ok v) =>
    match stk.drop (T.arity r) with
    | [] => return .stuck
    | (q, w) :: rest =>
      match T.goto q (T.lhs r) with
      | none => return .stuck
      | some q' => return .more ((q', v) :: (q, w) :: rest)

def settleOn : Nat → List (St × Ptr) → StateT σ (Except ε) (StoreResult St Ptr Stop')
  | 0, _ => return .stuck
  | _ + 1, [] => return .stuck
  | fuel + 1, (q, v) :: rest =>
    if T.consistent q then
      match T.reduce q with
      | none => return .stuck
      | some r => do
        match ← T.reduceOn A r ((q, v) :: rest) with
        | .more stk => settleOn fuel stk
        | res => return res
    else return .more ((q, v) :: rest)

def recoverOn : List (St × Ptr) → StateT σ (Except ε) (StoreResult St Ptr Stop')
  | [] => return .syntaxError
  | (q, v) :: rest =>
    match T.shiftError q with
    | some q' => T.settleOn A T.depth ((q', A.bottom) :: (q, v) :: rest)
    | none => recoverOn rest

/-- One lookahead token, with the value that was made when it was read. -/
def feedOn : Nat → List (St × Ptr) → Option (Tok × Ptr) →
    StateT σ (Except ε) (StoreResult St Ptr Stop')
  | 0, _, _ => return .stuck
  | _ + 1, [], _ => return .stuck
  | fuel + 1, (q, v) :: rest, tok =>
    match tok, (tok.map Prod.fst).bind (T.shift q) with
    | some (_, p), some q' => T.settleOn A T.depth ((q', p) :: (q, v) :: rest)
    | _, _ =>
      if tok.isNone && T.final q then return .accept v
      else
        match T.reduce q with
        | some r => do
          match ← T.reduceOn A r ((q, v) :: rest) with
          | .more stk => feedOn fuel stk tok
          | res => return res
        | none => T.recoverOn A ((q, v) :: rest)

/-- Feed the tokens that a lexer delivers; also the state that the lexer is left in. -/
def driveOn (lex : ρ → Option Tok × ρ) : Nat → List (St × Ptr) → ρ →
    StateT σ (Except ε) (StoreResult St Ptr Stop' × ρ)
  | 0, _, s => return (.stuck, s)
  | fuel + 1, stk, s =>
    match lex s with
    | (none, s') => do return (← T.feedOn A T.depth stk none, s')
    | (some t, s') => do
      let p ← A.value t
      match ← T.feedOn A T.depth stk (some (t, p)) with
      | .more stk' => driveOn lex fuel stk' s'
      | res => return (res, s')

end Store

/-! ## Stacks that are reached -/

section Stacks

variable {St Nt Tok Rule Val Stop : Type} {T : Tables St Nt Tok Rule Val Stop}
  {Typed : St → Val → Prop} {q q' : St} {v w : Val} {x y : St × Val} {rest stk : T.Stack}

/-- The automaton goes from `q` to `q'` with some symbol. -/
def Next (T : Tables St Nt Tok Rule Val Stop) (q q' : St) : Prop :=
  (∃ t, T.shift q t = some q') ∨ T.shiftError q = some q' ∨ ∃ n, T.goto q n = some q'

/-- The stacks that the parser can have, with values that suit their states. -/
inductive Reached (T : Tables St Nt Tok Rule Val Stop) (Typed : St → Val → Prop) : T.Stack → Prop
  | initial : Reached T Typed T.initial
  | push {q q' : St} {v w : Val} {rest : T.Stack} (h : Reached T Typed ((q, w) :: rest))
    (hq : T.Next q q') (hv : Typed q' v) : Reached T Typed ((q', v) :: (q, w) :: rest)

theorem Reached.tail (h : Reached T Typed (x :: y :: rest)) : Reached T Typed (y :: rest) := by
  cases h with
  | push h => exact h

theorem Reached.drop (h : Reached T Typed stk) (n : Nat) (hne : stk.drop n ≠ []) :
    Reached T Typed (stk.drop n) := by
  induction n generalizing stk with
  | zero => exact h
  | succ n ih =>
    cases stk with
    | nil => simp at hne
    | cons x stk =>
      cases stk with
      | nil => simp at hne
      | cons y stk => exact ih h.tail hne

theorem Reached.typed (h : Reached T Typed stk) (h0 : Typed T.start T.bottom) :
    ∀ x ∈ stk, Typed x.1 x.2 := by
  induction h with
  | initial => exact fun x hx => List.mem_singleton.1 hx ▸ h0
  | push h hq hv ih => exact List.forall_mem_cons.2 ⟨hv, ih⟩

end Stacks

end Tables

/-! ## Outcomes -/

section Outcomes

variable {κ ν σ ε β γ : Type} {heap : σ → Heap κ ν} {o : Except ε β} {P P' F : Assertion κ ν}
  {c : StateT σ (Except ε) β} {k : β → StateT σ (Except ε) γ}

/-- The program `c` has the outcome `o`, whatever memory it leaves. -/
def Halts (heap : σ → Heap κ ν) (o : Except ε β) (P : Assertion κ ν) (c : StateT σ (Except ε) β) :
    Prop :=
  match o with
  | .ok v => Triple heap (fun _ => False) P c fun r => fact (r = v) * ⊤
  | .error f => Triple heap (· = f) P c fun _ => ⊥

theorem Halts.conseq (h : Halts heap o P c) (hP : P' ≤ P) : Halts heap o P' c := by
  cases o with
  | ok v => exact Triple.conseq h hP fun _ => le_rfl
  | error f => exact Triple.conseq h hP fun _ => le_rfl

theorem Halts.frame (h : Halts heap o P c) (F : Assertion κ ν) : Halts heap o (P * F) c := by
  cases o with
  | ok v =>
    refine (Triple.frame h F).conseq le_rfl fun r => ?_
    rw [mul_assoc]
    exact mul_le_mul_right le_top _
  | error f =>
    refine (Triple.frame h F).conseq le_rfl fun r => ?_
    rw [Quantale.bot_mul]

theorem Halts.pure {v : β} :
    Halts heap (.ok v : Except ε β) P (pure v : StateT σ (Except ε) β) := by
  unfold Halts
  exact Triple.pure (le_fact_mul rfl le_top)

theorem Halts.bind_ok {v : β} {w : γ} (h : Halts heap (.ok v : Except ε β) P c)
    (hk : k v = Pure.pure w) : Halts heap (.ok w : Except ε γ) P (c >>= k) := by
  refine Triple.bind h fun r => .fact fun hr => ?_
  rw [hr, hk]
  exact Triple.pure (le_fact_mul rfl le_top)

theorem Halts.bind_error {f : ε} (h : Halts heap (.error f : Except ε β) P c) :
    Halts heap (.error f : Except ε γ) P (c >>= k) :=
  Triple.bind h fun _ => .of_bot le_rfl

theorem Halts.of_bot (hP : P ≤ ⊥) : Halts heap o P c := by
  cases o with
  | ok v => exact Triple.of_bot hP
  | error f => exact Triple.of_bot hP

theorem Halts.iSup {ι : Sort*} {f : ι → Assertion κ ν} (h : ∀ i, Halts heap o (f i) c) :
    Halts heap o (⨆ i, f i) c := by
  cases o with
  | ok v => exact Triple.iSup h
  | error f => exact Triple.iSup h

/-- What comes first does not fail. -/
theorem Halts.after {o : Except ε γ} {Q : β → Assertion κ ν}
    (h : Triple heap (fun _ => False) P c Q) (hk : ∀ v, Halts heap o (Q v) (k v)) :
    Halts heap o P (c >>= k) := by
  cases o with
  | ok w => exact Triple.bind h hk
  | error f => exact Triple.bind (h.weaken fun _ he => he.elim) hk

end Outcomes

/-! ## Doing in a store what a parser does with values -/

section Simulation

variable {St Nt Tok Rule Val Stop Ptr Stop' σ ε κ ν ρ : Type}

/-- The memory of a stack of values, owned by a stack of pointers. -/
def stackAt (rep : Val → Ptr → Assertion κ ν) :
    List (St × Val) → List (St × Ptr) → Assertion κ ν :=
  each fun x y => fact (x.1 = y.1) * rep x.2 y.2

theorem stackAt_cons {rep : Val → Ptr → Assertion κ ν} {q : St} {v : Val} {p : Ptr}
    {stk : List (St × Val)} {stk' : List (St × Ptr)} :
    stackAt rep ((q, v) :: stk) ((q, p) :: stk') = rep v p * stackAt rep stk stk' := by
  simp [stackAt]

/-- How the actions on a store stand for those on values. `rep` is the memory of a value, `typed`
what is known of a value from the state that was entered with it, and `out` the outcome of an action
that stops the parse. -/
structure Implements (T : Tables St Nt Tok Rule Val Stop)
    (A : StoreActions Tok Rule Ptr Stop' σ ε) (heap : σ → Heap κ ν)
    (rep : Val → Ptr → Assertion κ ν) (typed : St → Val → Prop) (out : Stop → Except ε Stop') :
    Prop where
  bottom : 1 ≤ rep T.bottom A.bottom
  value : ∀ t, Triple heap (fun _ => False) 1 (A.value t) (rep (T.value t))
  typed_bottom : typed T.start T.bottom
  typed_shift : ∀ q q' t, T.shift q t = some q' → typed q' (T.value t)
  typed_error : ∀ q q', T.shiftError q = some q' → typed q' T.bottom
  typed_goto : ∀ q v rest r w q₁ q₂, T.reduce q = some r →
    (∀ x ∈ (q, v) :: rest, typed x.1 x.2) →
    T.action r ((((q, v) :: rest).take (T.arity r)).reverse.map Prod.snd) = some (.ok w) →
    T.goto q₁ (T.lhs r) = some q₂ → typed q₂ w
  /-- an error production ends the parse -/
  error_stops : ∀ q q', T.shiftError q = some q' → T.consistent q' = true ∧
    ∃ r, T.reduce q' = some r ∧ ∀ vs v, T.action r vs ≠ some (.ok v)
  action : ∀ q v rest r ps, T.reduce q = some r → (∀ x ∈ (q, v) :: rest, typed x.1 x.2) →
    match T.action r ((((q, v) :: rest).take (T.arity r)).reverse.map Prod.snd) with
    | none => True
    | some (.ok w) =>
      Triple heap (fun _ => False)
        (each rep ((((q, v) :: rest).take (T.arity r)).reverse.map Prod.snd) ps) (A.action r ps)
        fun res => ⨆ p, fact (res = some (.ok p)) * rep w p
    | some (.error e) =>
      Halts heap ((out e).map fun e => some (.error e))
        (each rep ((((q, v) :: rest).take (T.arity r)).reverse.map Prod.snd) ps) (A.action r ps)

variable {T : Tables St Nt Tok Rule Val Stop} {A : StoreActions Tok Rule Ptr Stop' σ ε}
  {heap : σ → Heap κ ν} {rep : Val → Ptr → Assertion κ ν} {typed : St → Val → Prop}
  {out : Stop → Except ε Stop'} {res : Result T.Stack Val Stop} {P P' F : Assertion κ ν}
  {c : StateT σ (Except ε) (Tables.StoreResult St Ptr Stop')} {stk : T.Stack}
  {stk' : List (St × Ptr)} {q : St} {v : Val} {rest : T.Stack} {r : Rule}

/-- On a part of the heap that is as `P` says, `c` does what the result `res` says: with the memory
of what is on the stack afterwards, and besides it that of `F`. -/
def Does (heap : σ → Heap κ ν)
    (rep : Val → Ptr → Assertion κ ν) (typed : St → Val → Prop) (out : Stop → Except ε Stop')
    (res : Result T.Stack Val Stop) (P F : Assertion κ ν)
    (c : StateT σ (Except ε) (Tables.StoreResult St Ptr Stop')) : Prop :=
  match res with
  | .more stk => Triple heap (fun _ => False) P c fun r =>
      ⨆ stk', fact (r = .more stk' ∧ T.Reached typed stk) * (stackAt rep stk stk' * F)
  | .accept v => Triple heap (fun _ => False) P c fun r => ⨆ q, ⨆ p, ⨆ rest, ⨆ rest',
      fact (r = .accept p ∧ T.Reached typed ((q, v) :: rest) ∧ T.final q = true) *
        (rep v p * stackAt rep rest rest' * F)
  | .stop e => Halts heap ((out e).map .stop) P c
  | .syntaxError => Halts heap (.ok .syntaxError) P c
  | .stuck => True

theorem Does.conseq (h : Does heap rep typed out res P F c) (hP : P' ≤ P) :
    Does heap rep typed out res P' F c := by
  cases res with
  | more stk => exact Triple.conseq h hP fun _ => le_rfl
  | accept v => exact Triple.conseq h hP fun _ => le_rfl
  | stop e =>
    have hh : Halts heap ((out e).map .stop) P c := h
    exact hh.conseq hP
  | syntaxError =>
    have hh : Halts heap (.ok .syntaxError) P c := h
    exact hh.conseq hP
  | stuck => trivial

theorem Does.of_bot (hP : P ≤ ⊥) : Does heap rep typed out res P F c := by
  cases res with
  | more stk => exact Triple.of_bot hP
  | accept v => exact Triple.of_bot hP
  | stop e => exact Halts.of_bot hP
  | syntaxError => exact Halts.of_bot (o := .ok _) hP
  | stuck => trivial

theorem Does.after {β : Type} {d : StateT σ (Except ε) β} {Q : β → Assertion κ ν}
    {k : β → StateT σ (Except ε) (Tables.StoreResult St Ptr Stop')}
    (h : Triple heap (fun _ => False) P d Q)
    (hk : ∀ v, Does heap rep typed out res (Q v) F (k v)) :
    Does heap rep typed out res P F (d >>= k) := by
  cases res with
  | more stk => exact Triple.bind h hk
  | accept v => exact Triple.bind h hk
  | stop e => exact Halts.after h hk
  | syntaxError => exact Halts.after (o := .ok _) h hk
  | stuck => trivial

theorem Does.more (hr : T.Reached typed stk) (hP : P ≤ stackAt rep stk stk' * F) :
    Does heap rep typed out (.more stk) P F
      (pure (.more stk') : StateT σ (Except ε) (Tables.StoreResult St Ptr Stop')) := by
  unfold Does
  exact Triple.pure (le_iSup_of_le stk' (le_fact_mul ⟨rfl, hr⟩ hP))

theorem Does.accept {p : Ptr} {rest' : List (St × Ptr)} (hr : T.Reached typed ((q, v) :: rest))
    (hf : T.final q = true) (hP : P ≤ rep v p * stackAt rep rest rest' * F) :
    Does heap rep typed out (.accept v : Result T.Stack Val Stop) P F
      (pure (.accept p) : StateT σ (Except ε) (Tables.StoreResult St Ptr Stop')) := by
  unfold Does
  exact Triple.pure (le_iSup_of_le q (le_iSup_of_le p (le_iSup_of_le rest (le_iSup_of_le rest'
    (le_fact_mul ⟨rfl, hr, hf⟩ hP)))))

theorem Does.syntaxError : Does heap rep typed out (.syntaxError : Result T.Stack Val Stop) P F
    (pure .syntaxError : StateT σ (Except ε) (Tables.StoreResult St Ptr Stop')) := by
  unfold Does
  exact Halts.pure

theorem Does.iSup {ι : Sort*} {f : ι → Assertion κ ν}
    (h : ∀ i, Does heap rep typed out res (f i) F c) :
    Does heap rep typed out res (⨆ i, f i) F c := by
  cases res with
  | more stk => exact Triple.iSup h
  | accept v => exact Triple.iSup h
  | stop e =>
    have hh : ∀ i, Halts heap ((out e).map .stop) (f i) c := h
    exact Halts.iSup hh
  | syntaxError => exact Triple.iSup h
  | stuck => trivial

theorem Does.fact {φ : Prop} (h : φ → Does heap rep typed out res P F c) :
    Does heap rep typed out res (fact φ * P) F c := by
  rw [fact_mul]
  exact .iSup h

/-- The pointers of a stack stand on the same states as the values. -/
theorem Does.cons {d : List (St × Ptr) → StateT σ (Except ε) (Tables.StoreResult St Ptr Stop')}
    (h : ∀ p rest', Does heap rep typed out res
      (stackAt rep ((q, v) :: rest) ((q, p) :: rest') * P) F (d ((q, p) :: rest'))) :
    Does heap rep typed out res (stackAt rep ((q, v) :: rest) stk' * P) F (d stk') := by
  cases stk' with
  | nil => exact .of_bot (by simp [stackAt])
  | cons y rest' =>
    obtain ⟨q', p⟩ := y
    by_cases hq : q = q'
    · subst hq
      exact h p rest'
    · exact .of_bot (by simp [stackAt, hq])

/-- The memory of the values that a rule is applied to. -/
theorem stackAt_le (stk : List (St × Val)) (n : Nat) : stackAt rep stk stk' ≤
    each rep ((stk.take n).reverse.map Prod.snd) ((stk'.take n).reverse.map Prod.snd) *
      stackAt rep (stk.drop n) (stk'.drop n) := by
  rw [stackAt, each_split n, each_map, each_reverse]
  exact mul_le_mul_left (each_mono fun x y => fact_mul_le fun _ => le_rfl) _

theorem Implements.reduceBy (hI : Implements T A heap rep typed out)
    (hr : T.Reached typed ((q, v) :: rest)) (hq : T.reduce q = some r) (F : Assertion κ ν) :
    Does heap rep typed out (T.reduceBy r ((q, v) :: rest))
      (stackAt rep ((q, v) :: rest) stk' * F) F (T.reduceOn A r stk') := by
  have htyped := hr.typed hI.typed_bottom
  have hact := hI.action q v rest r ((stk'.take (T.arity r)).reverse.map Prod.snd) hq htyped
  have hP : stackAt rep ((q, v) :: rest) stk' * F ≤ _ :=
    mul_le_mul_left (stackAt_le _ (T.arity r)) F
  rw [mul_assoc] at hP
  have hgoto := hI.typed_goto q v rest r
  generalize hstk : (q, v) :: rest = stk at *
  unfold Tables.reduceBy Tables.reduceOn
  split at hact
  · next hnone =>
    rw [hnone]
    trivial
  · next w hok =>
    rw [hok]
    cases hd : stk.drop (T.arity r) with
    | nil => trivial
    | cons x rest₀ =>
      obtain ⟨q₀, w₀⟩ := x
      cases hg : T.goto q₀ (T.lhs r) with
      | none =>
        simp only [hg]
        trivial
      | some q' =>
        simp only [hg]
        have hreach : T.Reached typed ((q₀, w₀) :: rest₀) := hd ▸ hr.drop _ (by simp [hd])
        have hnew := hreach.push (.inr (.inr ⟨_, hg⟩)) (hgoto w q₀ q' hq htyped hok hg)
        refine Triple.step hact _ hP fun res => ?_
        simp only [iSup_mul, mul_assoc]
        refine .iSup fun p => .fact fun hres => ?_
        subst hres
        rw [hd]
        cases hd' : stk'.drop (T.arity r) with
        | nil => exact .of_bot (by simp [stackAt])
        | cons y rest' =>
          obtain ⟨q₁, w₁⟩ := y
          simp only [stackAt, each_cons]
          rw [mul_left_comm, mul_assoc, mul_assoc]
          refine .fact fun hq₁ => ?_
          subst hq₁
          simp only [hg]
          refine .pure (le_iSup_of_le ((q', p) :: (q₀, w₁) :: rest') (le_fact_mul ⟨rfl, hnew⟩ ?_))
          simp only [each_cons, fact_true, one_mul]
          exact le_of_eq (by ac_rfl)
  · next e herr =>
    rw [herr]
    have hhalts := (hact.frame _).conseq hP
    change Halts heap ((out e).map Result.stop) _ _
    cases ho : out e with
    | ok e' =>
      rw [ho] at hhalts
      exact hhalts.bind_ok rfl
    | error f =>
      rw [ho] at hhalts
      exact hhalts.bind_error

/-- What is done with the stack that is left, if the parse goes on. -/
theorem Does.next {F' : Assertion κ ν} {f : T.Stack → Result T.Stack Val Stop}
    {k : List (St × Ptr) → StateT σ (Except ε) (Tables.StoreResult St Ptr Stop')}
    (h : Does heap rep typed out res P F c) (hacc : ∀ v, res ≠ .accept v)
    (hk : ∀ stk stk', res = .more stk → T.Reached typed stk →
      Does heap rep typed out (f stk) (stackAt rep stk stk' * F) F' (k stk')) :
    Does heap rep typed out
      (match res with
        | .more stk => f stk
        | res => res) P F'
      (c >>= fun
        | .more stk => k stk
        | res => pure res) := by
  cases res with
  | more stk =>
    refine Does.after h fun r => .iSup fun stk' => .fact fun hr => ?_
    rw [hr.1]
    exact hk stk stk' rfl hr.2
  | accept v => exact absurd rfl (hacc v)
  | stop e =>
    change Halts heap ((out e).map Result.stop) _ _
    have hh : Halts heap ((out e).map Result.stop) P c := h
    cases ho : out e with
    | ok e' =>
      rw [ho] at hh
      exact hh.bind_ok rfl
    | error f =>
      rw [ho] at hh
      exact hh.bind_error
  | syntaxError => exact Halts.bind_ok h rfl
  | stuck => trivial

theorem reduceBy_ne_accept (stk : T.Stack) (r : Rule) (v : Val) : T.reduceBy r stk ≠ .accept v := by
  unfold Tables.reduceBy
  split
  · simp
  · simp
  · split
    · simp
    · split <;> simp

theorem Implements.settle (hI : Implements T A heap rep typed out) (F : Assertion κ ν) :
    ∀ (fuel : Nat) (stk : T.Stack) (stk' : List (St × Ptr)), T.Reached typed stk →
      Does heap rep typed out (T.settle fuel stk) (stackAt rep stk stk' * F) F
        (T.settleOn A fuel stk') := by
  intro fuel
  induction fuel with
  | zero => exact fun _ _ _ => trivial
  | succ fuel ih =>
    intro stk stk' hr
    match stk with
    | [] => exact trivial
    | (q, v) :: rest =>
      refine Does.cons (d := T.settleOn A (fuel + 1)) fun p rest' => ?_
      simp only [Tables.settle, Tables.settleOn]
      by_cases hc : T.consistent q = true
      · simp only [hc, if_true]
        cases hq : T.reduce q with
        | none => exact trivial
        | some r =>
          exact (hI.reduceBy hr hq F).next (reduceBy_ne_accept _ _) fun stk₁ stk₁' _ hr₁ =>
            ih stk₁ stk₁' hr₁
      · simp only [hc]
        exact .more hr le_rfl

theorem Does.of_ne {F' : Assertion κ ν} (h : Does heap rep typed out res P F c)
    (hmore : ∀ stk, res ≠ .more stk) (hacc : ∀ v, res ≠ .accept v) :
    Does heap rep typed out res P F' c := by
  cases res with
  | more stk => exact absurd rfl (hmore stk)
  | accept v => exact absurd rfl (hacc v)
  | stop e => exact h
  | syntaxError => exact h
  | stuck => trivial

/-- The state that shifts the error token ends the parse. -/
theorem Implements.settle_error (hI : Implements T A heap rep typed out) {q' : St}
    (hq : T.shiftError q = some q') (fuel : Nat) (stk : T.Stack) :
    (∀ stk₁, T.settle fuel ((q', T.bottom) :: stk) ≠ .more stk₁) ∧
      ∀ v, T.settle fuel ((q', T.bottom) :: stk) ≠ .accept v := by
  obtain ⟨hc, r, hr, hstop⟩ := hI.error_stops q q' hq
  cases fuel with
  | zero => simp [Tables.settle]
  | succ fuel =>
    simp only [Tables.settle, hc, if_true, hr]
    unfold Tables.reduceBy
    generalize hact :
      T.action r ((((q', T.bottom) :: stk).take (T.arity r)).reverse.map Prod.snd) = o
    match o with
    | none => simp
    | some (.error e) => simp
    | some (.ok v) => exact absurd hact (hstop _ v)

theorem Implements.recover (hI : Implements T A heap rep typed out) {F' : Assertion κ ν} :
    ∀ (stk : T.Stack) (stk' : List (St × Ptr)) (F : Assertion κ ν),
      (stk ≠ [] → T.Reached typed stk) →
      Does heap rep typed out (T.recover stk) (stackAt rep stk stk' * F) F'
        (T.recoverOn A stk') := by
  intro stk
  induction stk with
  | nil =>
    intro stk' F _
    cases stk' with
    | nil => exact .syntaxError
    | cons y stk' => exact .of_bot (by simp [stackAt])
  | cons x rest ih =>
    obtain ⟨q, v⟩ := x
    intro stk' F hr
    refine Does.cons (d := T.recoverOn A) fun p rest' => ?_
    simp only [Tables.recover, Tables.recoverOn]
    cases hq : T.shiftError q with
    | none =>
      refine (ih rest' (rep v p * F) fun hne => ?_).conseq (le_of_eq ?_)
      · obtain ⟨y, ys, rfl⟩ := List.exists_cons_of_ne_nil hne
        exact (hr (List.cons_ne_nil _ _)).tail
      · rw [stackAt_cons]
        ac_rfl
    | some q' =>
      obtain ⟨hmore, hacc⟩ := hI.settle_error hq T.depth ((q, v) :: rest)
      have hpush := (hr (List.cons_ne_nil _ _)).push (.inr (.inl hq)) (hI.typed_error q q' hq)
      have hsettle := hI.settle F T.depth _ ((q', A.bottom) :: (q, p) :: rest') hpush
      refine Does.of_ne (hsettle.conseq ?_) hmore hacc
      rw [stackAt_cons (q := q')]
      exact mul_le_mul_left (le_mul_of_one_le_left' hI.bottom) F

/-- The memory of a lookahead token. -/
def tokenAt (T : Tables St Nt Tok Rule Val Stop) (rep : Val → Ptr → Assertion κ ν) :
    Option (Tok × Ptr) → Assertion κ ν
  | none => 1
  | some (t, p) => rep (T.value t) p

theorem Implements.feed (hI : Implements T A heap rep typed out) (tok : Option (Tok × Ptr)) :
    ∀ (fuel : Nat) (stk : T.Stack) (stk' : List (St × Ptr)), T.Reached typed stk →
      Does heap rep typed out (T.feedFuel fuel stk (tok.map Prod.fst))
        (stackAt rep stk stk' * tokenAt T rep tok) 1 (T.feedOn A fuel stk' tok) := by
  intro fuel
  induction fuel with
  | zero => exact fun _ _ _ => trivial
  | succ fuel ih =>
    intro stk stk' hr
    match stk with
    | [] => exact trivial
    | (q, v) :: rest =>
      refine Does.cons (d := fun stk' => T.feedOn A (fuel + 1) stk' tok) fun p rest' => ?_
      -- the rest of a round, where the token is not shifted
      have hreduce : Does heap rep typed out
          (match T.reduce q with
            | some r =>
              match T.reduceBy r ((q, v) :: rest) with
              | .more stk => T.feedFuel fuel stk (tok.map Prod.fst)
              | res => res
            | none => T.recover ((q, v) :: rest))
          (stackAt rep ((q, v) :: rest) ((q, p) :: rest') * tokenAt T rep tok) 1
          (match T.reduce q with
            | some r => do
              match ← T.reduceOn A r ((q, p) :: rest') with
              | .more stk => T.feedOn A fuel stk tok
              | res => return res
            | none => T.recoverOn A ((q, p) :: rest')) := by
        cases hq : T.reduce q with
        | none => exact hI.recover _ _ _ fun _ => hr
        | some r =>
          exact (hI.reduceBy hr hq _).next (reduceBy_ne_accept _ _) fun stk₁ stk₁' _ hr₁ =>
            ih stk₁ stk₁' hr₁
      match tok with
      | none =>
        simp only [Tables.feedFuel, Tables.feedOn, Option.map_none, Option.bind_none,
          Option.isNone_none, Bool.true_and]
        by_cases hf : T.final q = true
        · simp only [hf, if_true]
          exact .accept hr hf (le_of_eq (by rw [stackAt_cons, tokenAt]))
        · simp only [hf]
          exact hreduce
      | some (t, p₁) =>
        simp only [Tables.feedFuel, Tables.feedOn, Option.map_some, Option.bind_some,
          Option.isNone_some, Bool.false_and]
        cases hs : T.shift q t with
        | none => exact hreduce
        | some q' =>
          have hpush := hr.push (.inl ⟨t, hs⟩) (hI.typed_shift q q' t hs)
          refine (hI.settle 1 T.depth _ ((q', p₁) :: (q, p) :: rest') hpush).conseq (le_of_eq ?_)
          rw [stackAt_cons (q := q'), tokenAt]
          ac_rfl

/-- On a part of the heap that is as `P` says, the parse `c` has the outcome `res`. If it accepts,
it leaves the memory of its result and of what is below on the stack. -/
def Parses (heap : σ → Heap κ ν) (rep : Val → Ptr → Assertion κ ν) (typed : St → Val → Prop)
    (out : Stop → Except ε Stop') (res : Result T.Stack Val Stop × ρ) (P : Assertion κ ν)
    (c : StateT σ (Except ε) (Tables.StoreResult St Ptr Stop' × ρ)) : Prop :=
  match res with
  | (.accept v, s) => Triple heap (fun _ => False) P c fun r => ⨆ q, ⨆ p, ⨆ rest, ⨆ rest',
      fact (r = (.accept p, s) ∧ T.Reached typed ((q, v) :: rest) ∧ T.final q = true) *
        (rep v p * stackAt rep rest rest')
  | (.stop e, s) => Halts heap ((out e).map fun e => (.stop e, s)) P c
  | (.syntaxError, s) => Halts heap (.ok (.syntaxError, s)) P c
  | _ => True

/-- A parse that ends with a token. -/
theorem Does.parses {s : ρ} (h : Does heap rep typed out res P 1 c)
    {k : Tables.StoreResult St Ptr Stop' →
      StateT σ (Except ε) (Tables.StoreResult St Ptr Stop' × ρ)}
    (hres : ∀ stk, res ≠ .more stk) (hk : ∀ r, (∀ stk, r ≠ .more stk) → k r = pure (r, s)) :
    Parses heap rep typed out (res, s) P (c >>= k) := by
  cases res with
  | more stk => exact absurd rfl (hres stk)
  | accept v =>
    unfold Parses
    refine Triple.bind h fun r => .iSup fun q => .iSup fun p => .iSup fun rest => .iSup fun rest' =>
      .fact fun hr => ?_
    rw [hk r (by simp [hr.1]), mul_one]
    exact Triple.pure (le_iSup_of_le q (le_iSup_of_le p (le_iSup_of_le rest (le_iSup_of_le rest'
      (le_fact_mul ⟨by rw [hr.1], hr.2⟩ le_rfl)))))
  | stop e =>
    change Halts heap ((out e).map fun e => (Result.stop e, s)) _ _
    have hh : Halts heap ((out e).map .stop) P c := h
    cases ho : out e with
    | ok e' =>
      rw [ho] at hh
      exact hh.bind_ok (hk _ (by simp))
    | error f =>
      rw [ho] at hh
      exact hh.bind_error
  | syntaxError => exact Halts.bind_ok h (hk _ (by simp))
  | stuck => trivial

theorem Parses.after {β : Type} {d : StateT σ (Except ε) β} {Q : β → Assertion κ ν}
    {res : Result T.Stack Val Stop × ρ}
    {k : β → StateT σ (Except ε) (Tables.StoreResult St Ptr Stop' × ρ)}
    (h : Triple heap (fun _ => False) P d Q)
    (hk : ∀ v, Parses heap rep typed out res (Q v) (k v)) :
    Parses heap rep typed out res P (d >>= k) := by
  obtain ⟨res, s⟩ := res
  cases res with
  | accept v => exact Triple.bind h hk
  | stop e => exact Halts.after h hk
  | syntaxError => exact Halts.after (o := .ok _) h hk
  | more stk => trivial
  | stuck => trivial

theorem Parses.iSup {ι : Sort*} {f : ι → Assertion κ ν} {res : Result T.Stack Val Stop × ρ}
    {d : StateT σ (Except ε) (Tables.StoreResult St Ptr Stop' × ρ)}
    (h : ∀ i, Parses heap rep typed out res (f i) d) :
    Parses heap rep typed out res (⨆ i, f i) d := by
  obtain ⟨res, s⟩ := res
  cases res with
  | accept v => exact Triple.iSup h
  | stop e =>
    have hh : ∀ i, Halts heap ((out e).map fun e => (.stop e, s)) (f i) d := h
    exact Halts.iSup hh
  | syntaxError => exact Triple.iSup h
  | more stk => trivial
  | stuck => trivial

theorem Parses.fact {φ : Prop} {res : Result T.Stack Val Stop × ρ}
    {d : StateT σ (Except ε) (Tables.StoreResult St Ptr Stop' × ρ)}
    (h : φ → Parses heap rep typed out res P d) :
    Parses heap rep typed out res (fact φ * P) d := by
  rw [fact_mul]
  exact .iSup h

theorem Implements.drive (hI : Implements T A heap rep typed out) (lex : ρ → Option Tok × ρ) :
    ∀ (fuel : Nat) (stk : T.Stack) (stk' : List (St × Ptr)) (s : ρ), T.Reached typed stk →
      Parses heap rep typed out (T.drive lex fuel stk s) (stackAt rep stk stk')
        (T.driveOn A lex fuel stk' s) := by
  intro fuel
  induction fuel with
  | zero => exact fun _ _ _ _ => trivial
  | succ fuel ih =>
    intro stk stk' s hr
    simp only [Tables.drive, Tables.driveOn]
    rcases lex s with ⟨_ | t, s'⟩
    · -- the end of the input
      have hfeed := hI.feed none T.depth stk stk' hr
      by_cases hmore : ∃ stk₁, T.feed stk none = .more stk₁
      · obtain ⟨stk₁, hstk₁⟩ := hmore
        dsimp only
        rw [hstk₁]
        trivial
      · exact (hfeed.conseq (mul_one _).ge).parses (fun stk₁ hstk₁ => hmore ⟨stk₁, hstk₁⟩)
          fun _ _ => rfl
    · dsimp only
      refine Parses.after ((hI.value t).frame (stackAt rep stk stk') |>.conseq (one_mul _).ge
        fun _ => le_rfl) fun p => ?_
      have hfeed : Does heap rep typed out (T.feed stk (some t)) (rep (T.value t) p *
          stackAt rep stk stk') 1 (T.feedOn A T.depth stk' (some (t, p))) :=
        (hI.feed (some (t, p)) T.depth stk stk' hr).conseq (mul_comm _ _).le
      cases hres : T.feed stk (some t) with
      | more stk₁ =>
        rw [hres] at hfeed
        refine Parses.after hfeed fun r => .iSup fun stk₁' => .fact fun hr₁ => ?_
        rw [hr₁.1, mul_one]
        exact ih stk₁ stk₁' s' hr₁.2
      | accept | stop | syntaxError | stuck =>
        rw [hres] at hfeed
        exact hfeed.parses (by simp) fun r hr => by cases r <;> simp_all

end Simulation

end ShiftReduce
