import Mathlib.Data.List.SplitBy

/-!
# Merging runs

One pass of a natural merge sort: a list is cut into its runs (`List.splitBy`), and neighbouring
runs are merged (`List.merge`) two by two. A pass leaves at most half of the runs, rounded up, and
keeps what is already in order: two elements in order stay in order (`Keeps`), so that a sorted list
that comes out of such passes is sorted stably. Nothing is asked of the order but on the elements of
the list.
-/

namespace MergeRuns

open List

variable {α : Type} {le : α → α → Bool} {a b c : α} {l r xs ys zs : List α} {rs : List (List α)}

abbrev Run (le : α → α → Bool) (xs : List α) : Prop :=
  xs.IsChain fun a b => le a b

def TotalOn (le : α → α → Bool) (xs : List α) : Prop :=
  ∀ a ∈ xs, ∀ b ∈ xs, le a b ∨ le b a

def TransOn (le : α → α → Bool) (xs : List α) : Prop :=
  ∀ a ∈ xs, ∀ b ∈ xs, ∀ c ∈ xs, le a b → le b c → le a c

theorem TotalOn.mono (h : TotalOn le xs) (hsub : ∀ a ∈ ys, a ∈ xs) : TotalOn le ys :=
  fun a ha b hb => h a (hsub a ha) b (hsub b hb)

theorem TransOn.mono (h : TransOn le xs) (hsub : ∀ a ∈ ys, a ∈ xs) : TransOn le ys :=
  fun a ha b hb c hc => h a (hsub a ha) b (hsub b hb) c (hsub c hc)

/-- A run is sorted. -/
theorem Run.pairwise (h : Run le xs) (ht : TransOn le xs) : xs.Pairwise fun a b => le a b := by
  induction xs with
  | nil => exact .nil
  | cons x xs ih =>
    have hrest := ih h.tail (ht.mono fun a => mem_cons_of_mem x)
    refine pairwise_cons.2 ⟨fun y hy => ?_, hrest⟩
    cases xs with
    | nil => exact absurd hy not_mem_nil
    | cons z xs =>
      have hxz := (isChain_cons_cons.1 h).1
      rcases mem_cons.1 hy with rfl | hy
      · exact hxz
      · exact ht x (by simp) z (by simp) y (by simp [hy]) hxz ((pairwise_cons.1 hrest).1 y hy)

/-! ## Merging -/

theorem chain_cons_merge (hl : Run le (c :: l)) (hr : Run le (c :: r)) (ht : TotalOn le (l ++ r)) :
    Run le (c :: l.merge r le) := by
  induction l generalizing c r with
  | nil => simpa using hr
  | cons x l ihl =>
    induction r generalizing c with
    | nil => simpa using hl
    | cons y r ihr =>
      obtain ⟨hcx, hl⟩ := isChain_cons_cons.1 hl
      obtain ⟨hcy, hr⟩ := isChain_cons_cons.1 hr
      rw [cons_merge_cons]
      split
      next hxy =>
        refine isChain_cons_cons.2 ⟨hcx, ihl hl (isChain_cons_cons.2 ⟨hxy, hr⟩) ?_⟩
        exact ht.mono fun a => mem_cons_of_mem x
      next hxy =>
        have hyx : le y x := (ht x (by simp) y (by simp)).resolve_left hxy
        refine isChain_cons_cons.2 ⟨hcy, ihr (isChain_cons_cons.2 ⟨hyx, hl⟩) hr ?_⟩
        exact ht.mono fun a ha => by grind

theorem Run.merge (hl : Run le l) (hr : Run le r) (ht : TotalOn le (l ++ r)) :
    Run le (l.merge r le) := by
  cases l with
  | nil => simpa using hr
  | cons x l =>
    cases r with
    | nil => simpa using hl
    | cons y r =>
      rw [cons_merge_cons]
      split
      next hxy =>
        exact chain_cons_merge hl (isChain_cons_cons.2 ⟨hxy, hr⟩)
          (ht.mono fun a => mem_cons_of_mem x)
      next hxy =>
        have hyx : le y x := (ht x (by simp) y (by simp)).resolve_left hxy
        exact chain_cons_merge (isChain_cons_cons.2 ⟨hyx, hl⟩) hr (ht.mono fun a ha => by grind)

theorem sublist_merge_left (l r : List α) : l <+ l.merge r le := by
  induction l generalizing r with
  | nil => exact nil_sublist _
  | cons x l ihl =>
    induction r with
    | nil => simp
    | cons y r ihr =>
      rw [cons_merge_cons]
      split
      · exact (ihl _).cons_cons x
      · exact ihr.cons y

theorem sublist_merge_right (l r : List α) : r <+ l.merge r le := by
  induction l generalizing r with
  | nil => simp
  | cons x l ihl =>
    induction r with
    | nil => exact nil_sublist _
    | cons y r ihr =>
      rw [cons_merge_cons]
      split
      · exact (ihl _).cons x
      · exact ihr.cons_cons y

/-- An element of the left list stays in front of the elements of the right list that it is not
greater than. -/
theorem pair_sublist_merge (hl : l.Pairwise fun a b => le a b) (ht : TransOn le (l ++ r))
    (ha : a ∈ l) (hb : b ∈ r) (hab : le a b) : [a, b] <+ l.merge r le := by
  induction l generalizing r with
  | nil => exact absurd ha not_mem_nil
  | cons x l ihl =>
    obtain ⟨hx, hl⟩ := pairwise_cons.1 hl
    induction r with
    | nil => exact absurd hb not_mem_nil
    | cons y r ihr =>
      rw [cons_merge_cons]
      split
      next hxy =>
        rcases mem_cons.1 ha with rfl | ha
        · exact (singleton_sublist.2 (mem_merge_right _ hb)).cons_cons a
        · exact (ihl hl (ht.mono fun a => mem_cons_of_mem x) ha hb).cons x
      next hxy =>
        have hby : b ≠ y := by
          rintro rfl
          rcases mem_cons.1 ha with rfl | ha
          · exact hxy hab
          · exact hxy (ht x (by simp) a (by simp [ha]) b (by simp) (hx a ha) hab)
        have hb := (mem_cons.1 hb).resolve_left hby
        exact (ihr (ht.mono fun a ha => by grind) hb).cons y

/-! ## Keeping the order -/

/-- The list `ys` has the elements of `xs`, and where two of these were in order they still are. -/
structure Keeps (le : α → α → Bool) (xs ys : List α) : Prop where
  perm : ys.Perm xs
  order : ∀ a b, le a b → [a, b] <+ xs → [a, b] <+ ys

theorem Keeps.refl (xs : List α) : Keeps le xs xs :=
  ⟨.refl xs, fun _ _ _ h => h⟩

theorem Keeps.trans (h : Keeps le xs ys) (h' : Keeps le ys zs) : Keeps le xs zs :=
  ⟨h'.perm.trans h.perm, fun a b hab hsub => h'.order a b hab (h.order a b hab hsub)⟩

/-- A pair of an appended list comes from one of its parts, or from both. -/
theorem pair_sublist_append (h : [a, b] <+ l ++ r) :
    [a, b] <+ l ∨ (a ∈ l ∧ b ∈ r) ∨ [a, b] <+ r := by
  obtain ⟨l', r', he, hl, hr⟩ := sublist_append_iff.1 h
  cases l' with
  | nil => exact .inr (.inr (he ▸ hr))
  | cons x l' =>
    cases l' with
    | nil =>
      obtain ⟨rfl, rfl⟩ := cons.inj he
      exact .inr (.inl ⟨singleton_sublist.1 hl, singleton_sublist.1 hr⟩)
    | cons y l' =>
      have hxy : [a, b] = [x, y] := by simp_all
      rw [hxy]
      exact .inl (((nil_sublist l').cons_cons y |>.cons_cons x).trans hl)

theorem pair_sublist_or (ha : a ∈ xs) (hb : b ∈ xs) (hab : a ≠ b) :
    [a, b] <+ xs ∨ [b, a] <+ xs := by
  obtain ⟨as, bs, rfl⟩ := append_of_mem ha
  rcases mem_append.1 hb with hb | hb
  · refine .inr ((singleton_sublist.2 hb).append (singleton_sublist.2 ?_))
    exact mem_cons_self
  · have hb := (mem_cons.1 hb).resolve_left hab.symm
    exact .inl (((singleton_sublist.2 hb).cons_cons a).trans (sublist_append_right _ _))

theorem pair_sublist_asymm (h : [a, b] <+ xs) (h' : [b, a] <+ xs) (hn : xs.Nodup) : False := by
  induction xs with
  | nil => exact absurd h (by simp)
  | cons x xs ih =>
    obtain ⟨hx, hn⟩ := nodup_cons.1 hn
    rcases cons_sublist_cons'.1 h with hab | ⟨hax, hb⟩
    · rcases cons_sublist_cons'.1 h' with hba | ⟨hbx, -⟩
      · exact ih hab hba hn
      · exact hx (hbx ▸ hab.subset (mem_cons_of_mem a mem_cons_self))
    · rcases cons_sublist_cons'.1 h' with hba | ⟨hbx, -⟩
      · exact hx (hax ▸ hba.subset (mem_cons_of_mem b mem_cons_self))
      · exact hx (hbx ▸ singleton_sublist.1 hb)

theorem Keeps.append (hl : Keeps le xs l) (hr : Keeps le ys r) : Keeps le (xs ++ ys) (l ++ r) := by
  refine ⟨hl.perm.append hr.perm, fun a b hab h => ?_⟩
  rcases pair_sublist_append h with h | ⟨ha, hb⟩ | h
  · exact (hl.order a b hab h).trans (sublist_append_left l r)
  · exact (singleton_sublist.2 (hl.perm.mem_iff.2 ha)).append
      (singleton_sublist.2 (hr.perm.mem_iff.2 hb))
  · exact (hr.order a b hab h).trans (sublist_append_right l r)

theorem Keeps.merge (hl : Run le l) (ht : TransOn le (l ++ r)) :
    Keeps le (l ++ r) (l.merge r le) := by
  refine ⟨merge_perm_append le, fun a b hab h => ?_⟩
  rcases pair_sublist_append h with h | ⟨ha, hb⟩ | h
  · exact h.trans (sublist_merge_left l r)
  · exact pair_sublist_merge (hl.pairwise (ht.mono fun a => mem_append_left r)) ht ha hb hab
  · exact h.trans (sublist_merge_right l r)

/-- Distinct elements can be sorted in one way that keeps the order they have. -/
theorem Keeps.unique (h : Keeps le xs ys) (h' : Keeps le xs zs) (hn : xs.Nodup)
    (hys : ys.Pairwise fun a b => le a b) (hzs : zs.Pairwise fun a b => le a b) : ys = zs := by
  have order {l : List α} (hl : Keeps le xs l) (hsorted : l.Pairwise fun a b => le a b) :
      l.Pairwise fun a b => le a b ∧ (le b a → [a, b] <+ xs) := by
    refine pairwise_iff_forall_sublist.2 fun {a b} hab => ?_
    refine ⟨pairwise_iff_forall_sublist.1 hsorted hab, fun hba => ?_⟩
    have hnl := hl.perm.nodup_iff.2 hn
    have hne : a ≠ b := by
      rintro rfl
      exact pair_sublist_asymm hab hab hnl
    have ha := hl.perm.mem_iff.1 (hab.subset (by simp : a ∈ [a, b]))
    have hb := hl.perm.mem_iff.1 (hab.subset (by simp : b ∈ [a, b]))
    exact (pair_sublist_or ha hb hne).resolve_right fun hsub =>
      pair_sublist_asymm hab (hl.order b a hba hsub) hnl
  refine Perm.eq_of_pairwise (fun a b _ _ hab hba => ?_) (order h hys) (order h' hzs)
    (h.perm.trans h'.perm.symm)
  exact (pair_sublist_asymm (hab.2 hba.1) (hba.2 hab.1) hn).elim

/-! ## Passes -/

/-- Neighbouring runs are merged; the last one stays alone when their number is odd. -/
def mergePairs (le : α → α → Bool) : List (List α) → List (List α)
  | [] => []
  | [l] => [l]
  | l :: r :: rs => l.merge r le :: mergePairs le rs

/-- The list after one pass. -/
def onePass (le : α → α → Bool) (xs : List α) : List α :=
  (mergePairs le (xs.splitBy le)).flatten

theorem length_mergePairs (le : α → α → Bool) (rs : List (List α)) :
    (mergePairs le rs).length = (rs.length + 1) / 2 := by
  induction rs using mergePairs.induct with
  | case1 => simp [mergePairs]
  | case2 l => simp [mergePairs]
  | case3 l r rs ih =>
    rw [mergePairs, length_cons, ih, length_cons, length_cons]
    omega

theorem run_of_mem_mergePairs (h : ∀ r ∈ rs, Run le r) (ht : TotalOn le rs.flatten) :
    ∀ r ∈ mergePairs le rs, Run le r := by
  induction rs using mergePairs.induct with
  | case1 => exact h
  | case2 l => exact h
  | case3 l r rs ih =>
    intro x hx
    rcases mem_cons.1 hx with rfl | hx
    · exact (h l (by simp)).merge (h r (by simp)) (ht.mono fun a ha => by simp_all; tauto)
    · exact ih (fun r hr => h r (by simp [hr])) (ht.mono fun a ha => by simp_all) x hx

theorem mergePairs_keeps (h : ∀ r ∈ rs, Run le r) (ht : TransOn le rs.flatten) :
    Keeps le rs.flatten (mergePairs le rs).flatten := by
  induction rs using mergePairs.induct with
  | case1 => exact .refl _
  | case2 l => exact .refl _
  | case3 l r rs ih =>
    rw [mergePairs, flatten_cons, flatten_cons, flatten_cons, ← append_assoc]
    refine (Keeps.merge (h l (by simp)) (ht.mono fun a ha => by simp_all; tauto)).append ?_
    exact ih (fun r hr => h r (by simp [hr])) (ht.mono fun a ha => by simp_all)

theorem flatten_mergePairs_perm (le : α → α → Bool) (rs : List (List α)) :
    (mergePairs le rs).flatten.Perm rs.flatten := by
  induction rs using mergePairs.induct with
  | case1 => exact .refl _
  | case2 l => exact .refl _
  | case3 l r rs ih =>
    rw [mergePairs, flatten_cons, flatten_cons, flatten_cons, ← append_assoc]
    exact (merge_perm_append le).append ih

theorem onePass_perm (le : α → α → Bool) (xs : List α) : (onePass le xs).Perm xs := by
  have h := flatten_mergePairs_perm le (xs.splitBy le)
  rwa [flatten_splitBy] at h

theorem onePass_keeps (ht : TransOn le xs) : Keeps le xs (onePass le xs) := by
  have hruns : ∀ r ∈ xs.splitBy le, Run le r := fun r hr => isChain_of_mem_splitBy hr
  have h := mergePairs_keeps hruns (by rwa [flatten_splitBy])
  rwa [flatten_splitBy] at h

/-! ## Counting runs -/

/-- A run in front of a list adds one run at most. -/
theorem length_splitBy_append (hl : Run le l) (m : List α) :
    ((l ++ m).splitBy le).length ≤ (m.splitBy le).length + 1 := by
  rcases eq_or_ne l [] with rfl | hne
  · exact Nat.le_succ _
  · by_cases hbreak : ∀ x ∈ l.getLast?, ∀ y ∈ m.head?, le x y = false
    · rw [splitBy_append hbreak, splitBy_of_isChain hne hl, length_append, length_singleton]
      omega
    · -- the run goes on with the first run of the list
      obtain ⟨hm, hnil, hruns, hbreaks⟩ := splitBy_eq_iff.1 (rfl : m.splitBy le = m.splitBy le)
      cases hrs : m.splitBy le with
      | nil =>
        rw [hrs] at hm
        exact absurd (fun x _ y hy => by simp_all) hbreak
      | cons r rs =>
        rw [hrs] at hm hnil hruns hbreaks
        have hjoin : Run le (l ++ r) := by
          refine isChain_append.2 ⟨hl, hruns r (by simp), fun x hx y hy => ?_⟩
          by_contra hle
          refine hbreak fun x' hx' y' hy' => ?_
          have hy'' : y ∈ m.head? := by
            rw [hm, flatten_cons, head?_append, hy]
            rfl
          rw [← Option.mem_unique hx hx', ← Option.mem_unique hy'' hy']
          simpa using hle
        have hsplit : (l ++ m).splitBy le = (l ++ r) :: rs := by
          refine splitBy_eq_iff.2 ⟨by simp [hm], ?_, ?_, ?_⟩
          · simp_all
          · simp_all
          · cases rs with
            | nil => exact .singleton _
            | cons r' rs =>
              obtain ⟨⟨hr, hr', hle⟩, hrest⟩ := isChain_cons_cons.1 hbreaks
              refine isChain_cons_cons.2 ⟨⟨by simp [hr], hr', ?_⟩, hrest⟩
              rwa [getLast_append_of_ne_nil]
        rw [hsplit, length_cons, length_cons]
        omega

theorem length_splitBy_flatten (h : ∀ r ∈ rs, Run le r) :
    (rs.flatten.splitBy le).length ≤ rs.length := by
  induction rs with
  | nil => simp
  | cons r rs ih =>
    rw [flatten_cons, length_cons]
    have hrest := ih fun r hr => h r (mem_cons_of_mem _ hr)
    have happend := length_splitBy_append (h r mem_cons_self) rs.flatten
    omega

theorem length_splitBy_le (le : α → α → Bool) (xs : List α) :
    (xs.splitBy le).length ≤ xs.length := by
  have hruns : ∀ r ∈ xs.map fun a => [a], Run le r := by simp
  simpa [← flatMap_def] using length_splitBy_flatten hruns

/-- The pass that leaves one run. -/
theorem run_onePass (ht : TotalOn le xs) (h : (xs.splitBy le).length ≤ 2) :
    Run le (onePass le xs) := by
  have hsplit : ∀ r ∈ xs.splitBy le, Run le r := fun r hr => isChain_of_mem_splitBy hr
  have hruns := run_of_mem_mergePairs hsplit (by rwa [flatten_splitBy])
  have hlen := length_mergePairs le (xs.splitBy le)
  rw [onePass]
  match hm : mergePairs le (xs.splitBy le) with
  | [] => exact .nil
  | [r] =>
    rw [flatten_singleton]
    exact hruns r (by simp [hm])
  | _ :: _ :: _ =>
    rw [hm, length_cons, length_cons] at hlen
    omega

/-- A pass leaves half of the runs at most. -/
theorem length_splitBy_onePass (ht : TotalOn le xs) :
    ((onePass le xs).splitBy le).length ≤ ((xs.splitBy le).length + 1) / 2 := by
  rw [← length_mergePairs le]
  refine length_splitBy_flatten (run_of_mem_mergePairs (fun r hr => isChain_of_mem_splitBy hr) ?_)
  rwa [flatten_splitBy]

end MergeRuns
