import Mathlib.Init

/-!
# Programs with a state that may fail

What a program of `StateT σ (Except ε)` comes to when it does not fail, and what a program of
`EStateM` comes to however it stops, with the rules by which runs of such programs are put together.
-/

namespace Program

variable {σ ε β γ : Type} {act other : StateT σ (Except ε) β} {f : β → StateT σ (Except ε) γ}
  {s s' s'' : σ} {v v' : β} {w : γ}

/-- The program `act`, started in `s`, ends with the result `v` in `s'`. -/
def Ends (act : StateT σ (Except ε) β) (s : σ) (v : β) (s' : σ) : Prop :=
  act s = .ok (v, s')

theorem Ends.pure (v : β) (s : σ) : Ends (pure v : StateT σ (Except ε) β) s v s :=
  rfl

theorem Ends.bind (h : Ends act s v s') (h' : Ends (f v) s' w s'') :
    Ends (act >>= f) s w s'' := by
  change (act s >>= fun r => f r.1 r.2) = _
  rw [h]
  exact h'

theorem Ends.ite_pos {c : Prop} [Decidable c] (hc : c) (h : Ends act s v s') :
    Ends (if c then act else other) s v s' := by
  rw [if_pos hc]
  exact h

theorem Ends.ite_neg {c : Prop} [Decidable c] (hc : ¬ c) (h : Ends other s v s') :
    Ends (if c then act else other) s v s' := by
  rw [if_neg hc]
  exact h

/-! ## Programs that keep their state when they stop -/

section Leads

variable {x y : EStateM ε σ β} {g : β → EStateM ε σ γ} {Q Q' : β → σ → Prop} {R : γ → σ → Prop}
  {E E' : ε → σ → Prop}

/-- The program `x`, started in `s`, returns as `Q` says or stops as `E` says. -/
def Leads (x : EStateM ε σ β) (s : σ) (Q : β → σ → Prop) (E : ε → σ → Prop) : Prop :=
  match x s with
  | .ok v s' => Q v s'
  | .error e s' => E e s'

theorem Leads.pure (h : Q v s) : Leads (pure v) s Q E :=
  h

theorem Leads.throw {e : ε} (h : E e s) : Leads (throw e) s Q E :=
  h

theorem Leads.update {Q : PUnit → σ → Prop} {f : σ → σ} (h : Q ⟨⟩ (f s)) :
    Leads (modify f : EStateM ε σ PUnit) s Q E :=
  h

theorem Leads.bind (h : Leads x s Q E) (h' : ∀ v s', Q v s' → Leads (g v) s' R E) :
    Leads (x >>= g) s R E := by
  change match (EStateM.bind x g) s with
    | .ok v s' => R v s'
    | .error e s' => E e s'
  unfold Leads at h
  unfold EStateM.bind
  split at h
  · rename_i v s' hx
    rw [hx]
    exact h' v s' h
  · rename_i e s' hx
    rw [hx]
    exact h

theorem Leads.mono (h : Leads x s Q E) (hQ : ∀ v s', Q v s' → Q' v s')
    (hE : ∀ e s', E e s' → E' e s') : Leads x s Q' E' := by
  unfold Leads at h ⊢
  split at h
  · exact hQ _ _ h
  · exact hE _ _ h

theorem Leads.ite {c : Prop} [Decidable c] (h : c → Leads x s Q E) (h' : ¬ c → Leads y s Q E) :
    Leads (if c then x else y) s Q E := by
  split
  · exact h ‹_›
  · exact h' ‹_›

/-- A handler starts in the state in which the program has stopped. -/
theorem Leads.tryCatch {k : ε → EStateM ε σ β} (h : Leads x s Q E')
    (h' : ∀ e s', E' e s' → Leads (k e) s' Q E) : Leads (tryCatch x k) s Q E := by
  change match (EStateM.tryCatch x k) s with
    | .ok v s' => Q v s'
    | .error e s' => E e s'
  unfold Leads at h
  unfold EStateM.tryCatch
  split at h
  · rename_i v s' hx
    dsimp only
    rw [hx]
    exact h
  · rename_i e s' hx
    dsimp only
    rw [hx]
    exact h' e s' h

end Leads

end Program
