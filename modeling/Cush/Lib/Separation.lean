import Mathlib

/-!
# Assertions about parts of a heap

Separation logic for programs of `StateT σ (Except ε)` whose state has a heap, over arbitrary places
and contents. The product of two assertions splits the heap between them, and `1` says that it is
empty: assertions are a commutative monoid and a quantale, so that the laws of products and suprema
are those of Mathlib. A triple says what a program does on every heap that has a part as its
precondition says; the rest of the heap stays as it is.
-/

namespace Separation

/-- What is at each place, if anything. -/
abbrev Heap (κ ν : Type) := κ → Option ν

/-! ## Heaps -/

section Heaps

variable {κ ν : Type} {h h₁ h₂ h₃ : Heap κ ν} {k : κ} {v : ν}

def Heap.empty : Heap κ ν :=
  fun _ => none

/-- No place is in both heaps. -/
def Heap.Apart (h₁ h₂ : Heap κ ν) : Prop :=
  ∀ k, h₁ k = none ∨ h₂ k = none

def Heap.join (h₁ h₂ : Heap κ ν) : Heap κ ν :=
  fun k => (h₁ k).or (h₂ k)

theorem Heap.Apart.symm (h : h₁.Apart h₂) : h₂.Apart h₁ :=
  fun k => (h k).symm

theorem Heap.apart_empty : h.Apart .empty :=
  fun _ => .inr rfl

theorem Heap.apart_join : (h₁.join h₂).Apart h₃ ↔ h₁.Apart h₃ ∧ h₂.Apart h₃ := by
  simp only [Apart, join, Option.or_eq_none_iff, ← forall_and]
  exact forall_congr' fun k => by tauto

theorem Heap.apart_join_right : h₁.Apart (h₂.join h₃) ↔ h₁.Apart h₂ ∧ h₁.Apart h₃ := by
  simp only [Apart, join, Option.or_eq_none_iff, ← forall_and]
  exact forall_congr' fun k => by tauto

theorem Heap.join_empty : h.join .empty = h :=
  funext fun _ => Option.or_none

theorem Heap.join_assoc : (h₁.join h₂).join h₃ = h₁.join (h₂.join h₃) :=
  funext fun _ => Option.or_assoc

theorem Heap.join_comm (h : h₁.Apart h₂) : h₁.join h₂ = h₂.join h₁ := by
  funext k
  rcases h k with hk | hk <;> simp [join, hk]

theorem Heap.join_left (hk : h₁ k = some v) : h₁.join h₂ k = some v := by
  simp [join, hk]

theorem Heap.join_right (hk : h₁ k = none) : h₁.join h₂ k = h₂ k := by
  simp [join, hk]

/-- The other heap has nothing at a place of the one. -/
theorem Heap.Apart.right (h : h₁.Apart h₂) (hk : h₁ k = some v) : h₂ k = none := by
  rcases h k with h0 | h0
  · rw [hk] at h0
    cases h0
  · exact h0

end Heaps

/-! ## Assertions -/

/-- An assertion, as the heaps that it describes in full. -/
def Assertion (κ ν : Type) := Set (Heap κ ν)

namespace Assertion

variable {κ ν : Type} {P P' Q Q' R : Assertion κ ν} {h h₁ h₂ : Heap κ ν} {k : κ} {v w : ν}
  {φ : Prop}

instance : CompleteLattice (Assertion κ ν) :=
  inferInstanceAs (CompleteLattice (Set (Heap κ ν)))

instance : Membership (Heap κ ν) (Assertion κ ν) :=
  inferInstanceAs (Membership (Heap κ ν) (Set (Heap κ ν)))

instance : One (Assertion κ ν) :=
  ⟨fun h => h = .empty⟩

instance : Mul (Assertion κ ν) :=
  ⟨fun P Q h => ∃ h₁ h₂, h₁.Apart h₂ ∧ h = h₁.join h₂ ∧ h₁ ∈ P ∧ h₂ ∈ Q⟩

@[ext] theorem ext (he : ∀ h, h ∈ P ↔ h ∈ Q) : P = Q :=
  Set.ext he

theorem le_iff : P ≤ Q ↔ ∀ h ∈ P, h ∈ Q :=
  Iff.rfl

theorem mem_one : h ∈ (1 : Assertion κ ν) ↔ h = .empty :=
  Iff.rfl

theorem mem_mul : h ∈ P * Q ↔ ∃ h₁ h₂, h₁.Apart h₂ ∧ h = h₁.join h₂ ∧ h₁ ∈ P ∧ h₂ ∈ Q :=
  Iff.rfl

theorem mem_iSup {ι : Sort*} {f : ι → Assertion κ ν} : h ∈ ⨆ i, f i ↔ ∃ i, h ∈ f i :=
  Set.mem_iUnion

theorem mem_top : h ∈ (⊤ : Assertion κ ν) :=
  trivial

theorem notMem_bot : h ∉ (⊥ : Assertion κ ν) :=
  id

theorem join_mem (ha : h₁.Apart h₂) (hP : h₁ ∈ P) (hQ : h₂ ∈ Q) : h₁.join h₂ ∈ P * Q :=
  ⟨h₁, h₂, ha, rfl, hP, hQ⟩

instance : CommMonoid (Assertion κ ν) where
  mul_assoc P Q R := by
    ext h
    constructor
    · rintro ⟨_, h₃, ha, rfl, ⟨h₁, h₂, ha', rfl, hP, hQ⟩, hR⟩
      obtain ⟨ha₁, ha₂⟩ := Heap.apart_join.1 ha
      rw [Heap.join_assoc]
      exact join_mem (Heap.apart_join_right.2 ⟨ha', ha₁⟩) hP (join_mem ha₂ hQ hR)
    · rintro ⟨h₁, _, ha, rfl, hP, ⟨h₂, h₃, ha', rfl, hQ, hR⟩⟩
      obtain ⟨ha₁, ha₂⟩ := Heap.apart_join_right.1 ha
      rw [← Heap.join_assoc]
      exact join_mem (Heap.apart_join.2 ⟨ha₂, ha'⟩) (join_mem ha₁ hP hQ) hR
  mul_comm P Q := by
    ext h
    constructor
    · rintro ⟨h₁, h₂, ha, rfl, hP, hQ⟩
      rw [Heap.join_comm ha]
      exact join_mem ha.symm hQ hP
    · rintro ⟨h₁, h₂, ha, rfl, hP, hQ⟩
      rw [Heap.join_comm ha]
      exact join_mem ha.symm hQ hP
  one_mul P := by
    ext h
    constructor
    · rintro ⟨_, h₂, ha, rfl, rfl, hP⟩
      rwa [Heap.join_comm ha, Heap.join_empty]
    · intro hP
      refine ⟨.empty, h, Heap.apart_empty.symm, ?_, rfl, hP⟩
      rw [Heap.join_comm Heap.apart_empty.symm, Heap.join_empty]
  mul_one P := by
    ext h
    constructor
    · rintro ⟨h₁, _, -, rfl, hP, rfl⟩
      rwa [Heap.join_empty]
    · exact fun hP => ⟨h, .empty, Heap.apart_empty, Heap.join_empty.symm, hP, rfl⟩

instance : IsQuantale (Assertion κ ν) where
  mul_sSup_distrib P S := by
    ext h
    simp only [sSup_eq_iSup, mem_iSup, mem_mul]
    constructor
    · rintro ⟨h₁, h₂, ha, rfl, hP, Q, hQ, hh⟩
      exact ⟨Q, hQ, h₁, h₂, ha, rfl, hP, hh⟩
    · rintro ⟨Q, hQ, h₁, h₂, ha, rfl, hP, hh⟩
      exact ⟨h₁, h₂, ha, rfl, hP, Q, hQ, hh⟩
  sSup_mul_distrib S P := by
    ext h
    simp only [sSup_eq_iSup, mem_iSup, mem_mul]
    constructor
    · rintro ⟨h₁, h₂, ha, rfl, ⟨Q, hQ, hh⟩, hP⟩
      exact ⟨Q, hQ, h₁, h₂, ha, rfl, hh, hP⟩
    · rintro ⟨Q, hQ, h₁, h₂, ha, rfl, hh, hP⟩
      exact ⟨h₁, h₂, ha, rfl, ⟨Q, hQ, hh⟩, hP⟩

theorem iSup_mul {ι : Sort*} (f : ι → Assertion κ ν) (P : Assertion κ ν) :
    (⨆ i, f i) * P = ⨆ i, f i * P := by
  ext h
  simp only [mem_iSup, mem_mul]
  constructor
  · rintro ⟨h₁, h₂, ha, rfl, ⟨i, hi⟩, hP⟩
    exact ⟨i, h₁, h₂, ha, rfl, hi, hP⟩
  · rintro ⟨i, h₁, h₂, ha, rfl, hi, hP⟩
    exact ⟨h₁, h₂, ha, rfl, ⟨i, hi⟩, hP⟩

theorem mul_iSup {ι : Sort*} (f : ι → Assertion κ ν) (P : Assertion κ ν) :
    P * ⨆ i, f i = ⨆ i, P * f i := by
  simp only [mul_comm P, iSup_mul]

/-- A fact that has no heap to it. -/
def fact (φ : Prop) : Assertion κ ν :=
  ⨆ _ : φ, 1

theorem fact_mul (φ : Prop) (P : Assertion κ ν) : fact φ * P = ⨆ _ : φ, P := by
  rw [fact, iSup_mul]
  simp only [one_mul]

theorem mem_fact_mul : h ∈ fact φ * P ↔ φ ∧ h ∈ P := by
  rw [fact_mul, mem_iSup, exists_prop]

theorem fact_mul_le (hle : φ → P ≤ Q) : fact φ * P ≤ Q := by
  rw [fact_mul]
  exact iSup_le hle

theorem le_fact_mul (hφ : φ) (hle : P ≤ Q) : P ≤ fact φ * Q := by
  rw [fact_mul]
  exact hle.trans (le_iSup (fun _ : φ => Q) hφ)

@[simp] theorem fact_true : (fact True : Assertion κ ν) = 1 :=
  iSup_pos trivial

@[simp] theorem fact_false : (fact False : Assertion κ ν) = ⊥ :=
  iSup_neg not_false

/-- The heap that has `v` at `k`, and nothing else. -/
def cell (k : κ) (v : ν) : Assertion κ ν :=
  fun h => h k = some v ∧ ∀ k', k' ≠ k → h k' = none

theorem cell_mul_get (hc : h ∈ cell k v * P) : h k = some v := by
  obtain ⟨h₁, h₂, -, rfl, ⟨hk, -⟩, -⟩ := hc
  exact Heap.join_left hk

section Update

variable [DecidableEq κ]

theorem cell_mul_new (hP : h ∈ P) (hk : h k = none) :
    Function.update h k (some v) ∈ cell k v * P := by
  refine ⟨Function.update Heap.empty k (some v), h, fun k' => ?_, ?_,
    ⟨by simp, fun k' hne => ?_⟩, hP⟩
  · by_cases hne : k' = k
    · exact .inr (hne ▸ hk)
    · exact .inl (by simp [hne, Heap.empty])
  · funext k'
    by_cases hne : k' = k <;> simp [hne, Heap.join, Heap.empty]
  · simp [hne, Heap.empty]

theorem cell_mul_erase (hc : h ∈ cell k v * P) : Function.update h k none ∈ P := by
  obtain ⟨h₁, h₂, ha, rfl, ⟨hk, hne⟩, hP⟩ := hc
  convert hP using 1
  funext k'
  by_cases he : k' = k
  · rw [he, Function.update_self, ha.right hk]
  · rw [Function.update_of_ne he, Heap.join_right (hne k' he)]

theorem cell_mul_set (hc : h ∈ cell k v * P) (w : ν) :
    Function.update h k (some w) ∈ cell k w * P := by
  have hnew := cell_mul_new (v := w) (cell_mul_erase hc) (Function.update_self k none h)
  rwa [Function.update_idem] at hnew

end Update

/-- The product of an assertion about the members of two lists of the same length. -/
def each {α β : Type} (P : α → β → Assertion κ ν) : List α → List β → Assertion κ ν
  | [], [] => 1
  | a :: as, b :: bs => P a b * each P as bs
  | _, _ => ⊥

section Each

variable {α β : Type} {A : α → β → Assertion κ ν} {a : α} {b : β} {as : List α} {bs : List β}

@[simp] theorem each_nil : each A [] [] = 1 :=
  rfl

@[simp] theorem each_cons : each A (a :: as) (b :: bs) = A a b * each A as bs :=
  rfl

@[simp] theorem each_nil_cons : each A [] (b :: bs) = ⊥ :=
  rfl

@[simp] theorem each_cons_nil : each A (a :: as) [] = ⊥ :=
  rfl

theorem each_concat : each A (as ++ [a]) (bs ++ [b]) = each A as bs * A a b := by
  induction as generalizing bs with
  | nil =>
    cases bs with
    | nil => simp
    | cons c bs => cases bs <;> simp
  | cons c as ih =>
    cases bs with
    | nil => cases as <;> simp
    | cons d bs =>
      rw [List.cons_append, List.cons_append, each_cons, each_cons, ih, mul_assoc]

theorem each_reverse : each A as.reverse bs.reverse = each A as bs := by
  induction as generalizing bs with
  | nil =>
    cases bs with
    | nil => rfl
    | cons b bs =>
      obtain ⟨c, cs, hc⟩ := List.exists_cons_of_ne_nil (l := (b :: bs).reverse) (by simp)
      rw [hc]
      rfl
  | cons a as ih =>
    cases bs with
    | nil =>
      obtain ⟨c, cs, hc⟩ := List.exists_cons_of_ne_nil (l := (a :: as).reverse) (by simp)
      rw [hc]
      rfl
    | cons b bs =>
      rw [List.reverse_cons, List.reverse_cons, each_concat, ih, each_cons, mul_comm]

theorem each_split (n : Nat) :
    each A as bs = each A (as.take n) (bs.take n) * each A (as.drop n) (bs.drop n) := by
  induction n generalizing as bs with
  | zero => simp
  | succ n ih =>
    cases as <;> cases bs <;> simp
    rw [mul_assoc, ← ih]

theorem each_map {α' β' : Type} {A : α' → β' → Assertion κ ν} (f : α → α') (g : β → β') :
    each A (as.map f) (bs.map g) = each (fun a b => A (f a) (g b)) as bs := by
  induction as generalizing bs with
  | nil => cases bs <;> rfl
  | cons a as ih =>
    cases bs with
    | nil => rfl
    | cons b bs => rw [List.map_cons, List.map_cons, each_cons, each_cons, ih]

theorem each_mono {B : α → β → Assertion κ ν} (h : ∀ a b, A a b ≤ B a b) :
    each A as bs ≤ each B as bs := by
  induction as generalizing bs with
  | nil => cases bs <;> exact le_rfl
  | cons a as ih =>
    cases bs with
    | nil => exact le_rfl
    | cons b bs => exact mul_le_mul' (h a b) ih

theorem each_eq_bot (h : as.length ≠ bs.length) : each A as bs = ⊥ := by
  induction as generalizing bs with
  | nil =>
    cases bs with
    | nil => exact absurd rfl h
    | cons b bs => rfl
  | cons a as ih =>
    cases bs with
    | nil => rfl
    | cons b bs =>
      have hlen : as.length ≠ bs.length := fun he => h (congrArg Nat.succ he)
      rw [each_cons, ih hlen, Quantale.mul_bot]

theorem each_mul {B : α → β → Assertion κ ν} :
    each (fun a b => A a b * B a b) as bs = each A as bs * each B as bs := by
  induction as generalizing bs with
  | nil =>
    cases bs with
    | nil => exact (one_mul 1).symm
    | cons b bs => exact Quantale.bot_mul.symm
  | cons a as ih =>
    cases bs with
    | nil => exact Quantale.bot_mul.symm
    | cons b bs =>
      rw [each_cons, each_cons, each_cons, ih]
      ac_rfl

theorem each_le_one (h : ∀ a, ∀ b ∈ bs, A a b ≤ 1) : each A as bs ≤ 1 := by
  induction as generalizing bs with
  | nil => cases bs <;> simp
  | cons a as ih =>
    cases bs with
    | nil => simp
    | cons b bs =>
      refine (mul_le_mul' (h a b List.mem_cons_self) (ih fun a b hb => ?_)).trans (one_mul 1).le
      exact h a b (List.mem_cons_of_mem _ hb)

/-- What each member of the list has to it besides. -/
theorem each_iSup {γ : Type} {B : α × γ → β → Assertion κ ν} :
    each (fun a b => ⨆ c, B (a, c) b) as bs ≤
      ⨆ xs : List (α × γ), fact (xs.map Prod.fst = as) * each B xs bs := by
  induction as generalizing bs with
  | nil =>
    cases bs with
    | nil => exact le_iSup_of_le [] (le_fact_mul rfl le_rfl)
    | cons b bs => exact bot_le
  | cons a as ih =>
    cases bs with
    | nil => exact bot_le
    | cons b bs =>
      rw [each_cons, iSup_mul]
      refine iSup_le fun c => (mul_le_mul_right ih _).trans ?_
      rw [mul_iSup]
      refine iSup_le fun xs => ?_
      rw [mul_left_comm]
      refine fact_mul_le fun hxs => le_iSup_of_le ((a, c) :: xs) (le_fact_mul ?_ le_rfl)
      rw [List.map_cons, hxs]

end Each

end Assertion

/-! ## Triples -/

section Triples

open Assertion

variable {κ ν σ ε β γ : Type} {heap : σ → Heap κ ν} {E E' : ε → Prop}
  {P P' F : Assertion κ ν} {Q Q' : β → Assertion κ ν} {R : γ → Assertion κ ν}
  {c c' : StateT σ (Except ε) β} {k : β → StateT σ (Except ε) γ} {v : β} {φ : Prop}

/-- On a heap with a part that is as `P` says, the program `c` ends, and makes of that part what `Q`
says of its result, or it fails as `E` allows. -/
def Triple (heap : σ → Heap κ ν) (E : ε → Prop) (P : Assertion κ ν) (c : StateT σ (Except ε) β)
    (Q : β → Assertion κ ν) : Prop :=
  ∀ F s, heap s ∈ P * F →
    match c s with
    | .ok (v, s') => heap s' ∈ Q v * F
    | .error e => E e

theorem Triple.pure (h : P ≤ Q v) : Triple heap E P (pure v) Q := fun F _ hs =>
  le_iff.1 (mul_le_mul_left h F) _ hs

theorem Triple.bind (h : Triple heap E P c Q) (h' : ∀ v, Triple heap E (Q v) (k v) R) :
    Triple heap E P (c >>= k) R := by
  intro F s hs
  have hc := h F s hs
  change match (c s >>= fun r => k r.1 r.2) with
    | .ok (v, s') => heap s' ∈ R v * F
    | .error e => E e
  cases hr : c s with
  | error e =>
    rw [hr] at hc
    exact hc
  | ok r =>
    rw [hr] at hc
    exact h' r.1 F r.2 hc

theorem Triple.conseq (h : Triple heap E P c Q) (hP : P' ≤ P) (hQ : ∀ v, Q v ≤ Q' v) :
    Triple heap E P' c Q' := by
  intro F s hs
  have hc := h F s (le_iff.1 (mul_le_mul_left hP F) _ hs)
  split at hc
  · exact le_iff.1 (mul_le_mul_left (hQ _) F) _ hc
  · exact hc

theorem Triple.weaken (h : Triple heap E P c Q) (hE : ∀ e, E e → E' e) :
    Triple heap E' P c Q := by
  intro F s hs
  have hc := h F s hs
  split at hc
  · exact hc
  · exact hE _ hc

theorem Triple.frame (h : Triple heap E P c Q) (F : Assertion κ ν) :
    Triple heap E (P * F) c fun v => Q v * F := by
  intro F' s hs
  have hc := h (F * F') s (by rwa [← mul_assoc])
  simpa only [mul_assoc] using hc

theorem Triple.iSup {ι : Sort*} {f : ι → Assertion κ ν} (h : ∀ i, Triple heap E (f i) c Q) :
    Triple heap E (⨆ i, f i) c Q := by
  intro F s hs
  rw [iSup_mul] at hs
  obtain ⟨i, hi⟩ := mem_iSup.1 hs
  exact h i F s hi

theorem Triple.fact (h : φ → Triple heap E P c Q) : Triple heap E (fact φ * P) c Q := by
  rw [fact_mul]
  exact .iSup h

/-- The next call of a program, in the part of the heap that it needs. -/
theorem Triple.step (h : Triple heap E P c Q) (F : Assertion κ ν) (hP : P' ≤ P * F)
    (h' : ∀ v, Triple heap E (Q v * F) (k v) R) : Triple heap E P' (c >>= k) R :=
  ((h.frame F).conseq hP fun _ => le_rfl).bind h'

/-- The last call of a program. -/
theorem Triple.last (h : Triple heap E P c Q) (F : Assertion κ ν) (hP : P' ≤ P * F)
    (hQ : ∀ v, Q v * F ≤ Q' v) : Triple heap E P' c Q' :=
  (h.frame F).conseq hP hQ

/-- A call that finds something out. -/
theorem Triple.learn {ψ : β → Prop} (h : Triple heap E P c fun v => Assertion.fact (ψ v) * Q v)
    (F : Assertion κ ν) (hP : P' ≤ P * F) (h' : ∀ v, ψ v → Triple heap E (Q v * F) (k v) R) :
    Triple heap E P' (c >>= k) R := by
  refine h.step F hP fun v => ?_
  rw [mul_assoc]
  exact .fact (h' v)

/-- A call that reads `v`. -/
theorem Triple.read (h : Triple heap E P c fun r => Assertion.fact (r = v) * P)
    (F : Assertion κ ν) (hP : P' = P * F) (h' : Triple heap E P' (k v) R) :
    Triple heap E P' (c >>= k) R :=
  h.learn F hP.le fun _ hr => hr ▸ hP ▸ h'

theorem Triple.of_bot (h : P ≤ ⊥) : Triple heap E P c Q := by
  rintro F s ⟨_, _, -, -, hP, -⟩
  exact absurd (h hP) notMem_bot

/-- What a program does on a heap of which `h₁` is the part that it needs. -/
theorem Triple.run {h₁ h₂ : Heap κ ν} {s : σ} (h : Triple heap (fun _ => False) P c Q)
    (hP : h₁ ∈ P) (ha : h₁.Apart h₂) (hs : heap s = h₁.join h₂) :
    ∃ v s' h₁', c s = .ok (v, s') ∧ h₁' ∈ Q v ∧ h₁'.Apart h₂ ∧ heap s' = h₁'.join h₂ := by
  have hc := h (fun h' => h' = h₂) s ⟨h₁, h₂, ha, hs, hP, rfl⟩
  split at hc
  · next v s' heq =>
    obtain ⟨h₁', _, ha', hs', hQ, rfl⟩ := hc
    exact ⟨v, s', h₁', heq, hQ, ha', hs'⟩
  · exact hc.elim

/-- A program that fails in one way, if it ends as `⊥` says. -/
theorem Triple.fails {e : ε} {s : σ} (h : Triple heap (· = e) P c fun _ => ⊥)
    (hs : heap s ∈ P * ⊤) : c s = .error e := by
  have hc := h ⊤ s hs
  split at hc
  · rw [Quantale.bot_mul] at hc
    exact absurd hc notMem_bot
  · next e' heq => rw [heq, hc]

end Triples

end Separation
