import Mathlib.Logic.Basic

/-!
# Guarded runs of an executable transition function

`step s e` is the state after event `e`, or `none` where the event cannot happen. `Reach` collects
the states of all runs whose every step meets a guard `ok`: the assumptions one makes about the
environment, or the condition under which a property holds, are such guards. `Reach.invariant` is
the induction principle of a run, and `exec_reach` turns a list of events that evaluates into a run.
`Path` keeps in addition the states a run has passed, for what is said of a whole run. `Later` is
the order in which a run passes its states: where it is well-founded, a run goes on until no step
meets the guard.
-/

namespace Lts

variable {σ ε : Type} {step : σ → ε → Option σ} {ok ok' : σ → ε → Prop} {init : σ → Prop}

/-- The states of the runs from `init` whose steps all meet `ok`. -/
inductive Reach (step : σ → ε → Option σ) (ok : σ → ε → Prop) (init : σ → Prop) : σ → Prop
  | init {s : σ} (h : init s) : Reach step ok init s
  | step {s t : σ} {e : ε} (hr : Reach step ok init s) (hok : ok s e) (hs : step s e = some t) :
      Reach step ok init t

/-- The run rule: what holds at first and survives every guarded step from a state of a run holds
of every state of a run. -/
theorem Reach.invariant {I : σ → Prop} (h0 : ∀ s, init s → I s)
    (hstep : ∀ s e t, Reach step ok init s → I s → ok s e → step s e = some t → I t) {s : σ}
    (hr : Reach step ok init s) : I s := by
  induction hr with
  | init h => exact h0 _ h
  | step hr hok hs ih => exact hstep _ _ _ hr ih hok hs

/-- A run under a guard is a run under every weaker one. -/
theorem Reach.mono (h : ∀ s e, ok s e → ok' s e) {s : σ} (hr : Reach step ok init s) :
    Reach step ok' init s := by
  induction hr with
  | init h0 => exact .init h0
  | step _ hok hs ih => exact .step ih (h _ _ hok) hs

/-- The runs from `s`, with the states they have passed and the event that led on from each. -/
inductive Path (step : σ → ε → Option σ) (ok : σ → ε → Prop) (s : σ) : List (σ × ε) → σ → Prop
  | nil : Path step ok s [] s
  | snoc {l : List (σ × ε)} {t u : σ} {e : ε} (h : Path step ok s l t) (hok : ok t e)
      (hs : step t e = some u) : Path step ok s (l ++ [(t, e)]) u

theorem Path.reach {s t : σ} {l : List (σ × ε)} (h : Path step ok s l t)
    (hr : Reach step ok init s) : Reach step ok init t := by
  induction h with
  | nil => exact hr
  | snoc _ hok hs ih => exact .step ih hok hs

theorem Path.mono (h : ∀ s e, ok s e → ok' s e) {s t : σ} {l : List (σ × ε)}
    (hp : Path step ok s l t) : Path step ok' s l t := by
  induction hp with
  | nil => exact .nil
  | snoc _ hok hs ih => exact .snoc ih (h _ _ hok) hs

/-- What has been picked last along a path: the value of the last step at which `f` has one. -/
def last {β : Type} (f : σ → ε → Option β) (l : List (σ × ε)) : Option β :=
  (l.filterMap fun x => f x.1 x.2).getLast?

theorem last_snoc {β : Type} (f : σ → ε → Option β) (l : List (σ × ε)) (s : σ) (e : ε) :
    last f (l ++ [(s, e)]) = (f s e).or (last f l) := by
  unfold last
  rw [List.filterMap_append, List.getLast?_append]
  congr 1
  cases h : f s e with
  | none => simp [h]
  | some b => simp [h]

/-- Evaluate a list of events; `none` once an event is disabled or misses its guard. -/
def exec (step : σ → ε → Option σ) (guard : σ → ε → Bool) : σ → List ε → Option σ
  | s, [] => some s
  | s, e :: es =>
    if guard s e then
      match step s e with
      | some t => exec step guard t es
      | none => none
    else none

theorem exec_reach {guard : σ → ε → Bool} (hg : ∀ s e, guard s e = true → ok s e) :
    ∀ {es : List ε} {s t : σ}, Reach step ok init s → exec step guard s es = some t →
      Reach step ok init t := by
  intro es
  induction es with
  | nil =>
    intro s t hr h
    obtain rfl : s = t := by simpa [exec] using h
    exact hr
  | cons e es ih =>
    intro s t hr h
    unfold exec at h
    split at h
    · rename_i hgu
      split at h
      · rename_i u hu
        exact ih (.step hr (hg _ _ hgu) hu) h
      · cases h
    · cases h

/-- The states a list of events passes, with the event that leads on from each. -/
def record (step : σ → ε → Option σ) : σ → List ε → List (σ × ε)
  | _, [] => []
  | s, e :: es =>
    (s, e) ::
      match step s e with
      | some t => record step t es
      | none => []

theorem mem_record {x : σ × ε} {es : List ε} : ∀ {s : σ}, x ∈ record step s es → x.2 ∈ es := by
  induction es with
  | nil => exact fun hx => nomatch hx
  | cons e es ih =>
    intro s hx
    rcases List.mem_cons.1 hx with rfl | hx
    · exact List.mem_cons_self
    · split at hx
      · exact List.mem_cons_of_mem _ (ih hx)
      · cases hx

/-- The path of a list of events that evaluates. -/
theorem exec_path {guard : σ → ε → Bool} (hg : ∀ s e, guard s e = true → ok s e) {s : σ} :
    ∀ {es : List ε} {t u : σ} {l : List (σ × ε)}, Path step ok s l t →
      exec step guard t es = some u → Path step ok s (l ++ record step t es) u := by
  intro es
  induction es with
  | nil =>
    intro t u l hp h
    obtain rfl : t = u := by simpa [exec] using h
    rw [record, List.append_nil]
    exact hp
  | cons e es ih =>
    intro t u l hp h
    unfold exec at h
    split at h
    · rename_i hgu
      split at h
      · rename_i v hv
        have hpath := ih (.snoc hp (hg _ _ hgu) hv) h
        rw [List.append_assoc] at hpath
        unfold record
        rw [hv]
        exact hpath
      · cases h
    · cases h

/-! ## Coming to rest -/

/-- `t` is a state to which a step that meets `ok` leads from `s`. -/
def Later (step : σ → ε → Option σ) (ok : σ → ε → Prop) (t s : σ) : Prop :=
  ∃ e, ok s e ∧ step s e = some t

/-- Steps that lower a measure come to an end. -/
theorem Later.wellFounded {β : Type} {r : β → β → Prop} (hr : WellFounded r) (μ : σ → β)
    (h : ∀ s e t, ok s e → step s e = some t → r (μ t) (μ s)) :
    WellFounded (Later step ok) := by
  refine Subrelation.wf (r := InvImage r μ) ?_ (InvImage.wf μ hr)
  rintro t s ⟨e, hok, hs⟩
  exact h s e t hok hs

/-- Where steps come to an end, a path can be continued up to a state without a step. -/
theorem Path.rests (hwf : WellFounded (Later step ok)) {s t : σ} {l : List (σ × ε)}
    (hp : Path step ok s l t) :
    ∃ l' u, Path step ok s l' u ∧ ∀ e, ok u e → step u e = none := by
  induction t using hwf.induction generalizing l with
  | h t ih =>
    by_cases hlast : ∀ e, ok t e → step t e = none
    · exact ⟨l, t, hp, hlast⟩
    · simp only [not_forall] at hlast
      obtain ⟨e, hok, hne⟩ := hlast
      obtain ⟨u, hs⟩ := Option.ne_none_iff_exists'.1 hne
      exact ih u ⟨e, hok, hs⟩ (.snoc hp hok hs)

/-- A count of elements, as a measure: fewer have the property if one has lost it. -/
theorem countP_lt {α : Type} {p q : α → Bool} {l : List α} {a : α}
    (h : ∀ x ∈ l, p x = true → q x = true) (ha : a ∈ l) (hq : q a = true) (hp : p a = false) :
    l.countP p < l.countP q := by
  induction l with
  | nil => cases ha
  | cons x l ih =>
    have hl : ∀ y ∈ l, p y = true → q y = true := fun y hy => h y (List.mem_cons_of_mem x hy)
    rcases List.mem_cons.1 ha with rfl | ha
    · rw [List.countP_cons_of_neg (by rw [hp]; decide), List.countP_cons_of_pos hq]
      exact Nat.lt_succ_of_le (List.countP_mono_left hl)
    · have ih := ih hl ha
      have hx := h x List.mem_cons_self
      rw [List.countP_cons, List.countP_cons]
      split
      · rename_i hpx
        rw [if_pos (hx hpx)]
        exact Nat.succ_lt_succ ih
      · exact Nat.lt_of_lt_of_le ih (Nat.le_add_right _ _)

end Lts
