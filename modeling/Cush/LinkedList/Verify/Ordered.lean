import Cush.LinkedList.Verify.Sort
import Mathlib.Data.List.Destutter
import Mathlib.Data.List.Sort

/-!
# Ordered insertion, duplicates and extremes

`list_insert_ordered` makes of a sorted list what `list_push_back` and `list_sort` make of it.
`list_unique` leaves the first element of each series of equal ones and appends the others to its
second list. `list_max` and `list_min` return the earliest extreme.
-/

namespace Cush.LinkedList

open LinkHeap Program MergeRuns

variable {α : Type} (less : α → α → Bool) {m m' : Memory α} {list dup : ListHdr α}
  {a b x y : α} {xs ys zs ds : List α} {fuel : Nat}

/-! ## Ordered insertion -/

/-- An element put into a sorted list by `list_insert_ordered` stands where sorting would put it if
it had been appended. -/
theorem sortedStably_orderedInsert (hsorted : xs.Pairwise fun a b => less b a = false)
    (hasymm : ∀ a ∈ x :: xs, ∀ b ∈ x :: xs, less a b → less b a = false)
    (htrans : ∀ a ∈ x :: xs, ∀ b ∈ x :: xs, ∀ c ∈ x :: xs, less b a = false →
      less c b = false → less c a = false) :
    SortedStably less (xs ++ [x]) (xs.orderedInsert (fun a b => less a b) x) := by
  induction xs with
  | nil => exact ⟨.refl _, by simp, fun a b _ h => h⟩
  | cons y xs ih =>
    obtain ⟨hy, hsorted⟩ := List.pairwise_cons.1 hsorted
    cases hless : less x y with
    | true =>
      have hxs : ∀ b ∈ y :: xs, less b x = false := by
        have hyx := hasymm x (by simp) y (by simp) hless
        intro b hb
        rcases List.mem_cons.1 hb with rfl | hb
        · exact hyx
        · exact htrans x (by simp) y (by simp) b (by simp [hb]) hyx (hy b hb)
      have hfirst : ∀ a ∈ y :: xs, less x a ≠ false := by
        intro a ha hxa
        rcases List.mem_cons.1 ha with rfl | ha
        · exact absurd hxa (by simp [hless])
        · have hxy := htrans y (by simp) a (by simp [ha]) x (by simp) (hy a ha) hxa
          exact absurd hxy (by simp [hless])
      rw [List.orderedInsert_cons, if_pos hless]
      refine ⟨(List.perm_append_singleton x (y :: xs)).symm, List.pairwise_cons.2 ⟨hxs,
        List.pairwise_cons.2 ⟨hy, hsorted⟩⟩, fun a b hab hsub => ?_⟩
      rcases pair_sublist_append hsub with hsub | ⟨ha, hb⟩ | hsub
      · exact hsub.cons x
      · rw [List.mem_singleton.1 hb] at hab
        exact absurd hab (hfirst a ha)
      · exact absurd hsub.length_le (by simp)
    | false =>
      obtain ⟨hperm, hins, hstable⟩ := ih hsorted
        (fun a ha b hb => hasymm a (by grind) b (by grind))
        fun a ha b hb c hc => htrans a (by grind) b (by grind) c (by grind)
      rw [List.orderedInsert_cons, if_neg (by simp [hless])]
      refine ⟨hperm.cons y, List.pairwise_cons.2 ⟨fun b hb => ?_, hins⟩, fun a b hab hsub => ?_⟩
      · rcases (List.mem_orderedInsert _).1 hb with rfl | hb
        · exact hless
        · exact hy b hb
      · rcases List.cons_sublist_cons'.1 hsub with hab' | ⟨rfl, hb⟩
        · exact (hstable a b hab hab').cons y
        · exact (List.singleton_sublist.2
            (hperm.mem_iff.2 (List.singleton_sublist.1 hb))).cons_cons a

/-! ## What the other operations are for -/

/-- Whether `list_unique` keeps `b` after `a`. -/
abbrev Differ (a b : α) : Prop :=
  less a b ∨ less b a

/-- The elements that `list_unique` removes after `a`. -/
def removed (a : α) : List α → List α
  | [] => []
  | b :: xs => if Differ less a b then removed b xs else b :: removed a xs

theorem removed_perm (a : α) (ys : List α) :
    (ys.destutter' (Differ less) a ++ removed less a ys).Perm (a :: ys) := by
  induction ys generalizing a with
  | nil => exact .refl _
  | cons y ys ih =>
    by_cases hdiff : Differ less a y
    · rw [List.destutter'_cons_pos _ hdiff, removed, if_pos hdiff]
      exact (ih y).cons a
    · rw [List.destutter'_cons_neg _ hdiff, removed, if_neg hdiff]
      exact List.perm_middle.trans (((ih a).cons y).trans (.swap a y ys))

theorem removed_sublist (a : α) (ys : List α) :
    (removed less a ys).Sublist ys := by
  induction ys generalizing a with
  | nil => exact .slnil
  | cons y ys ih =>
    rw [removed]
    split
    · exact (ih y).cons y
    · exact (ih a).cons_cons y

/-- What `list_max` and `list_min` look for: an element that no other is better than, and that is
better than those in front of it. -/
theorem foldl_extreme {better : α → α → Bool}
    (hasymm : ∀ a ∈ x :: xs, ∀ b ∈ x :: xs, better a b → better b a = false)
    (htrans : ∀ a ∈ x :: xs, ∀ b ∈ x :: xs, ∀ c ∈ x :: xs, better b a = false →
      better c b = false → better c a = false) :
    ∃ as r bs, x :: xs = as ++ r :: bs ∧
      xs.foldl (fun best e => if better e best then e else best) x = r ∧
      (∀ y ∈ as, better r y) ∧ ∀ y ∈ bs, better y r = false := by
  induction xs using List.reverseRecOn with
  | nil => exact ⟨[], x, [], rfl, rfl, by simp, by simp⟩
  | append_singleton xs e ih =>
    have hmem : ∀ a ∈ x :: xs, a ∈ x :: (xs ++ [e]) := by
      simp
      tauto
    obtain ⟨as, r, bs, hxs, hr, has, hbs⟩ := ih
      (fun a ha b hb => hasymm a (hmem a ha) b (hmem b hb))
      fun a ha b hb c hc => htrans a (hmem a ha) b (hmem b hb) c (hmem c hc)
    rw [List.foldl_concat, hr, ← List.cons_append]
    cases hbetter : better e r with
    | false =>
      refine ⟨as, r, bs ++ [e], by simp [hxs], by simp, has, fun y hy => ?_⟩
      rcases List.mem_append.1 hy with hy | hy
      · exact hbs y hy
      · rwa [List.mem_singleton.1 hy]
    | true =>
      refine ⟨x :: xs, e, [], rfl, by simp, fun y hy => ?_, by simp⟩
      have hrmem : r ∈ x :: xs := by simp [hxs]
      have hyr : better y r = false := by
        rw [hxs] at hy
        rcases List.mem_append.1 hy with hy' | hy'
        · exact hasymm r (hmem r hrmem) y (hmem y (hxs ▸ hy)) (has y hy')
        · rcases List.mem_cons.1 hy' with rfl | hy'
          · cases hrr : better y y with
            | false => rfl
            | true => exact absurd (hasymm y (hmem y hrmem) y (hmem y hrmem) hrr) (by simp [hrr])
          · exact hbs y hy'
      by_contra hey
      have her := htrans r (hmem r hrmem) y (hmem y hy) e (by simp) hyr (by simpa using hey)
      exact absurd her (by simp [hbetter])

/-! ## Ordered insertion in memory -/

variable [DecidableEq α]

theorem insertOrderedLoop_ends (x : α) (h : Holds m list (xs ++ ys)) (hfuel : ys.length < fuel) :
    ∃ as bs, ys = as ++ bs ∧ ys.orderedInsert (fun a b => less a b) x = as ++ x :: bs ∧
      Ends (insertOrderedLoop less list (some x) fuel (list.place ys)) m (list.place bs) m := by
  induction ys generalizing xs fuel with
  | nil =>
    obtain ⟨fuel, rfl⟩ := Nat.exists_eq_add_of_lt hfuel
    exact ⟨[], [], rfl, rfl, .ite_pos rfl (.pure _ _)⟩
  | cons y ys ih =>
    cases fuel with
    | zero => exact absurd hfuel (Nat.not_lt_zero _)
    | succ fuel =>
      have hend : list.place (y :: ys) ≠ listEnd list := fun he => nomatch (place_eq_end h).1 he
      cases hless : less x y with
      | true =>
        refine ⟨[], y :: ys, rfl, by simp [hless], ?_⟩
        refine .ite_neg hend ?_
        refine .bind (v := less x y) rfl ?_
        exact .ite_pos hless (.pure _ _)
      | false =>
        have hnext := listNext_ends h
        rw [List.append_cons] at h
        obtain ⟨as, bs, rfl, hinsert, hloop⟩ := ih h (Nat.lt_of_succ_lt_succ hfuel)
        refine ⟨y :: as, bs, rfl, by simp [hless, hinsert], ?_⟩
        refine .ite_neg hend ?_
        refine .bind (v := less x y) rfl ?_
        refine .ite_neg (by simp [hless]) ?_
        exact hnext.bind hloop

theorem listInsertOrdered_ends (h : Holds m list xs) (hx : (m x).isSome) (hfree : x ∉ list.nodes xs)
    (hfuel : xs.length < fuel) :
    ∃ m', Ends (listInsertOrdered less fuel list (some x)) m () m' ∧
      Holds m' list (xs.orderedInsert (fun a b => less a b) x) ∧
      Within (list.nodes (x :: xs)) m m' := by
  obtain ⟨as, bs, rfl, hinsert, hloop⟩ := insertOrderedLoop_ends less x h.nil_append hfuel
  obtain ⟨m', hm', hl, hw⟩ := listInsert_holds h hx hfree
  refine ⟨m', ?_, hinsert ▸ hl, hw.mono ?_⟩
  · refine (assert_ends rfl).bind ?_
    refine (listBegin_ends h).bind ?_
    exact hloop.bind hm'
  · simp
    tauto

/-- Ordered insertion into a sorted list leaves the list that appending and sorting would leave. -/
theorem listInsertOrdered_sorts (h : Holds m list xs) (hx : (m x).isSome)
    (hfree : x ∉ list.nodes xs) (hfuel : xs.length + 1 < fuel)
    (hsorted : xs.Pairwise fun a b => less b a = false)
    (hasymm : ∀ a ∈ x :: xs, ∀ b ∈ x :: xs, less a b → less b a = false)
    (htrans : ∀ a ∈ x :: xs, ∀ b ∈ x :: xs, ∀ c ∈ x :: xs, less b a = false →
      less c b = false → less c a = false) :
    ∃ ys m' m'', listInsertOrdered less fuel list (some x) m = .ok ((), m') ∧ Holds m' list ys ∧
      (do listPushBack list (some x); listSort less fuel list) m = .ok ((), m'') ∧
      Holds m'' list ys := by
  obtain ⟨m', hm', hl, -⟩ := listInsertOrdered_ends less h hx hfree (Nat.lt_of_succ_lt hfuel)
  obtain ⟨m₁, hm₁, hl₁, -⟩ := listPushBack_holds h hx hfree
  have hmem : ∀ a ∈ xs ++ [x], a ∈ x :: xs := by
    simp
    tauto
  have hlen : (xs ++ [x]).length < fuel := by simpa using hfuel
  obtain ⟨ys, m'', hm'', hl'', -, -, hrun, hkeeps⟩ := listSort_ends less hl₁ hlen
    (fun a ha b hb => hasymm a (hmem a ha) b (hmem b hb))
  have ht : TransOn (inOrder less) (xs ++ [x]) := transOn_inOrder
    fun a ha b hb c hc => htrans a (hmem a ha) b (hmem b hb) c (hmem c hc)
  have hs : SortedStably less (xs ++ [x]) ys := sortedStably_of_keeps ht hrun (hkeeps ht)
  have heq := hs.unique (sortedStably_orderedInsert less hsorted hasymm htrans) hl₁.nodup_elements
  exact ⟨ys, m', m'', hm', heq ▸ hl, Ends.bind hm₁ hm'', hl''⟩

/-- Three elements in order between the headers `0` and `1`, the empty list between `2` and `3`, and
an element in no list. -/
def sortedElems : Memory Nat
  | 0 => some ⟨none, some 20⟩
  | 20 => some ⟨some 0, some 31⟩
  | 31 => some ⟨some 20, some 32⟩
  | 32 => some ⟨some 31, some 1⟩
  | 1 => some ⟨some 32, none⟩
  | 2 => some ⟨none, some 3⟩
  | 3 => some ⟨some 2, none⟩
  | 30 => some ⟨none, none⟩
  | _ => none

theorem holds_sortedElems : Holds sortedElems ⟨0, 1⟩ [20, 31, 32] := by
  refine ⟨by decide, ?_, ⟨_, rfl⟩, ⟨_, rfl⟩⟩
  simp [Chain, Linked, sortedElems]

theorem listInsertOrdered_sorts_thirty :
    ∃ ys m' m'', listInsertOrdered (fun a b => decide (a / 10 < b / 10)) 5 ⟨0, 1⟩ (some 30)
        sortedElems = .ok ((), m') ∧ Holds m' ⟨0, 1⟩ ys ∧
      (do listPushBack ⟨0, 1⟩ (some 30); listSort (fun a b => decide (a / 10 < b / 10)) 5 ⟨0, 1⟩)
        sortedElems = .ok ((), m'') ∧ Holds m'' ⟨0, 1⟩ ys :=
  listInsertOrdered_sorts _ holds_sortedElems rfl (by decide) (by decide) (by decide) (by decide)
    (by decide)

/-! ## Duplicates -/

theorem uniqueLoop_ends {duplicates : Option (ListHdr α)} (h : Holds m list (xs ++ a :: ys))
    (hdup : ∀ dup ∈ duplicates, Holds m dup ds ∧
      ∀ y ∈ list.nodes (xs ++ a :: ys), y ∉ dup.nodes ds)
    (hfuel : ys.length < fuel) :
    ∃ m', Ends (uniqueLoop less list duplicates fuel (some a)) m () m' ∧
      Holds m' list (xs ++ ys.destutter' (Differ less) a) ∧
      ∀ dup ∈ duplicates, Holds m' dup (ds ++ removed less a ys) := by
  induction ys generalizing m xs a ds fuel with
  | nil =>
    obtain ⟨fuel, rfl⟩ := Nat.exists_eq_add_of_lt hfuel
    refine ⟨m, (listNext_ends h).bind (.ite_pos rfl (.pure _ _)), h, fun dup hd => ?_⟩
    simpa [removed] using (hdup dup hd).1
  | cons y ys ih =>
    cases fuel with
    | zero => exact absurd hfuel (Nat.not_lt_zero _)
    | succ fuel =>
      have hfuel := Nat.lt_of_succ_lt_succ hfuel
      have hnext := listNext_ends h
      have hsplit := h
      rw [List.append_cons] at hsplit
      have hend : list.place (y :: ys) ≠ listEnd list := fun he =>
        nomatch (place_eq_end hsplit).1 he
      by_cases hdiff : Differ less a y
      · obtain ⟨m', hm', hl, hd⟩ := ih hsplit (by simpa using hdup) hfuel
        refine ⟨m', ?_, by simpa [hdiff] using hl, by simpa [removed, hdiff] using hd⟩
        refine hnext.bind ?_
        refine .ite_neg hend ?_
        refine .bind (v := less a y) rfl ?_
        refine .bind (v := less y a) rfl ?_
        refine .ite_neg ?_ hm'
        rcases hdiff with hdiff | hdiff <;> simp [hdiff]
      · have hless : less a y = false ∧ less y a = false := by
          simpa [Differ] using hdiff
        obtain ⟨m₁, hm₁, hl₁, hw₁⟩ := listRemove_holds hsplit
        have hseg : Holds m list (xs ++ [a] ++ [y] ++ ys) := by rwa [← List.append_cons]
        have hyfree := hseg.segment_notMem y (List.mem_singleton_self y)
        have hsub : ∀ z ∈ list.nodes (xs ++ [a] ++ ys), z ∈ list.nodes (xs ++ a :: y :: ys) := by
          simp
          tauto
        have hcond : (!less a y && !less y a) = true := by
          simp [hless]
        cases duplicates with
        | none =>
          rw [← List.append_cons] at hl₁
          obtain ⟨m', hm', hl, -⟩ := @ih m₁ a xs ds fuel hl₁ (by simp) hfuel
          refine ⟨m', ?_, by simpa [hdiff] using hl, by simp⟩
          refine hnext.bind ?_
          refine .ite_neg hend ?_
          refine .bind (v := less a y) rfl ?_
          refine .bind (v := less y a) rfl ?_
          refine .ite_pos hcond ?_
          refine hm₁.bind ?_
          exact hm'
        | some dup =>
          obtain ⟨hdup, hdis⟩ := hdup dup rfl
          have hdup₁ : Holds m₁ dup ds := hw₁.isDList hdup fun z hz hmem => hdis z (hsub z hmem) hz
          have hy : (m₁ y).isSome := by
            rw [hw₁.allocated, h.isSome y (by simp)]
          obtain ⟨m₂, hm₂, hd₂, hw₂⟩ := listPushBack_holds hdup₁ hy (hdis y (by simp))
          have hdis₂ : ∀ z ∈ list.nodes (xs ++ [a] ++ ys), z ∉ dup.nodes (ds ++ [y]) := by
            intro z hz hmem
            have hzy : z ≠ y := ne_of_mem_of_not_mem hz hyfree
            refine hdis z (hsub z hz) ?_
            simp [hzy] at hmem ⊢
            tauto
          have hl₂ : Holds m₂ list (xs ++ [a] ++ ys) := hw₂.isDList hl₁ hdis₂
          rw [← List.append_cons] at hl₂ hdis₂
          obtain ⟨m', hm', hl, hd⟩ := ih hl₂
            (fun dup' hd => by cases hd; exact ⟨hd₂, hdis₂⟩) hfuel
          refine ⟨m', ?_, by simpa [hdiff] using hl, by simpa [removed, hdiff] using hd⟩
          refine hnext.bind ?_
          refine .ite_neg hend ?_
          refine .bind (v := less a y) rfl ?_
          refine .bind (v := less y a) rfl ?_
          refine .ite_pos hcond ?_
          refine hm₁.bind ?_
          refine hm₂.bind ?_
          exact hm'

/-- The elements that stay are the first ones of their series, and no two neighbours among them are
equal; the others have gone to the second list in their order, and nothing is lost. -/
theorem listUnique_keeps {duplicates : Option (ListHdr α)} (h : Holds m list xs)
    (hdup : ∀ dup ∈ duplicates, Holds m dup ds ∧ ∀ y ∈ list.nodes xs, y ∉ dup.nodes ds)
    (hfuel : xs.length < fuel) :
    ∃ kept gone m', listUnique less fuel list duplicates m = .ok ((), m') ∧ Holds m' list kept ∧
      (∀ dup ∈ duplicates, Holds m' dup (ds ++ gone)) ∧ kept = xs.destutter (Differ less) ∧
      gone.Sublist xs ∧ (kept ++ gone).Perm xs := by
  cases xs with
  | nil =>
    refine ⟨[], [], m, ?_, h, fun dup hd => by simpa using (hdup dup hd).1, rfl, .slnil, .refl _⟩
    exact (listEmpty_ends h).bind (.ite_pos rfl (.pure _ _))
  | cons x xs =>
    obtain ⟨m', hm', hl, hd⟩ := uniqueLoop_ends less h.nil_append hdup
      (Nat.lt_of_succ_lt hfuel)
    refine ⟨_, _, m', ?_, hl, hd, rfl, ?_, removed_perm less x xs⟩
    · refine (listEmpty_ends h).bind ?_
      refine .ite_neg (by simp) ?_
      exact (listBegin_ends h).bind hm'
    · exact (removed_sublist less x xs).cons x

theorem listUnique_keeps_two :
    ∃ kept gone m', listUnique (fun a b => decide (a / 10 < b / 10)) 4 ⟨0, 1⟩ (some ⟨2, 3⟩)
        sortedElems = .ok ((), m') ∧ Holds m' ⟨0, 1⟩ kept ∧
      (∀ dup ∈ some (⟨2, 3⟩ : ListHdr Nat), Holds m' dup ([] ++ gone)) ∧
      kept = [20, 31, 32].destutter (Differ fun a b => decide (a / 10 < b / 10)) ∧
      gone.Sublist [20, 31, 32] ∧ (kept ++ gone).Perm [20, 31, 32] := by
  refine listUnique_keeps _ holds_sortedElems (fun dup hd => ?_) (by decide)
  cases hd
  refine ⟨⟨by decide, ?_, ⟨_, rfl⟩, ⟨_, rfl⟩⟩, by decide⟩
  simp [Chain, Linked, sortedElems]

/-! ## Extremes -/

theorem extremeLoop_ends (better : α → α → Bool) (h : Holds m list (xs ++ ys)) (best : α)
    (hfuel : ys.length < fuel) :
    Ends (extremeLoop better list fuel (some best) (list.place ys)) m
      (some (ys.foldl (fun best e => if better e best then e else best) best)) m := by
  induction ys generalizing xs best fuel with
  | nil =>
    obtain ⟨fuel, rfl⟩ := Nat.exists_eq_add_of_lt hfuel
    exact .ite_pos rfl (.pure _ _)
  | cons y ys ih =>
    cases fuel with
    | zero => exact absurd hfuel (Nat.not_lt_zero _)
    | succ fuel =>
      have hend : list.place (y :: ys) ≠ listEnd list := fun he => nomatch (place_eq_end h).1 he
      have hnext := listNext_ends h
      rw [List.append_cons] at h
      refine .ite_neg hend ?_
      refine .bind (v := some (if better y best then y else best)) ?_
        (hnext.bind (ih h _ (Nat.lt_of_succ_lt_succ hfuel)))
      refine .bind (v := better y best) rfl ?_
      split
      · exact .pure _ _
      · exact .pure _ _

/-- What `list_max` and `list_min` share. For an empty list the tail is returned. -/
theorem listExtreme_ends {better : α → α → Bool} (h : Holds m list xs) (hfuel : xs.length < fuel)
    (hasymm : ∀ a ∈ xs, ∀ b ∈ xs, better a b → better b a = false)
    (htrans : ∀ a ∈ xs, ∀ b ∈ xs, ∀ c ∈ xs, better b a = false → better c b = false →
      better c a = false) :
    ∃ as bs, xs = as ++ bs ∧ Ends (listExtreme better fuel list) m (list.place bs) m ∧
      (bs = [] → xs = []) ∧
      ∀ r ∈ bs.head?, (∀ y ∈ as, better r y) ∧ ∀ y ∈ bs.tail, better y r = false := by
  cases xs with
  | nil =>
    refine ⟨[], [], rfl, ?_, fun _ => rfl, by simp⟩
    exact (listBegin_ends h).bind (.ite_pos rfl (.pure _ _))
  | cons x xs =>
    obtain ⟨as, r, bs, hxs, hr, has, hbs⟩ := foldl_extreme hasymm htrans
    refine ⟨as, r :: bs, hxs, ?_, by simp, fun r' hr' => ?_⟩
    · have hrest : Holds m list ([x] ++ xs) := h
      have hend : list.place (x :: xs) ≠ listEnd list := fun he =>
        nomatch (place_eq_end h.nil_append).1 he
      have hloop := extremeLoop_ends better hrest x (Nat.lt_of_succ_lt hfuel)
      rw [hr] at hloop
      refine (listBegin_ends h).bind ?_
      refine .ite_neg hend ?_
      exact (listNext_ends h.nil_append).bind hloop
    · cases hr'
      exact ⟨has, hbs⟩

/-- Sorting puts the earliest of the smallest elements first. -/
theorem SortedStably.head_eq (hs : SortedStably less xs ys) (hn : xs.Nodup)
    (hxs : xs = as ++ x :: bs) (has : ∀ y ∈ as, less x y) (hbs : ∀ y ∈ bs, less y x = false) :
    ys.head? = some x := by
  have hx : x ∈ ys := hs.perm.mem_iff.2 (by simp [hxs])
  cases ys with
  | nil => exact absurd hx List.not_mem_nil
  | cons y ys =>
    by_contra hne
    have hyx : y ≠ x := by simpa using hne
    have hxys : x ∈ ys := (List.mem_cons.1 hx).resolve_left hyx.symm
    have hy : y ∈ as ∨ y ∈ bs := by
      have hmem : y ∈ xs := hs.perm.mem_iff.1 List.mem_cons_self
      simpa [hxs, hyx] using hmem
    rcases hy with hy | hy
    · have hless := (List.pairwise_cons.1 hs.sorted).1 x hxys
      exact absurd (has y hy) (by simp [hless])
    · -- the two keep their order, and `y` would stand behind `x` once more
      have hsub : [x, y].Sublist xs := by
        rw [hxs]
        exact ((List.singleton_sublist.2 hy).cons_cons x).trans (List.sublist_append_right _ _)
      rcases List.cons_sublist_cons'.1 (hs.stable x y (hbs y hy) hsub) with hsub | ⟨he, -⟩
      · have hyys : y ∈ ys := hsub.subset (by simp)
        exact (List.nodup_cons.1 (hs.perm.nodup_iff.2 hn)).1 hyys
      · exact hyx he.symm

/-- The earliest extreme is what sorting puts at the front. -/
theorem listExtreme_sort (h : Holds m list xs) (hfuel : xs.length < fuel)
    (hasymm : ∀ a ∈ xs, ∀ b ∈ xs, less a b → less b a = false)
    (htrans : ∀ a ∈ xs, ∀ b ∈ xs, ∀ c ∈ xs, less b a = false → less c b = false →
      less c a = false) :
    ∃ p m', Ends (listExtreme less fuel list) m p m ∧
      Ends (do listSort less fuel list; listBegin list) m p m' := by
  obtain ⟨as, bs, hxs, hextreme, hnil, hfirst⟩ := listExtreme_ends h hfuel hasymm htrans
  obtain ⟨ys, m', hm', hl, -, -, hrun, hkeeps⟩ := listSort_ends less h hfuel hasymm
  have ht := transOn_inOrder htrans
  have hs := sortedStably_of_keeps ht hrun (hkeeps ht)
  refine ⟨list.place bs, m', hextreme, ?_⟩
  have hplace : list.place bs = list.place ys := by
    cases bs with
    | nil =>
      have hys : ys = [] := List.perm_nil.1 (hnil rfl ▸ hs.perm)
      rw [hys]
    | cons x bs =>
      obtain ⟨has, hbs⟩ := hfirst x rfl
      have hhead := hs.head_eq less h.nodup_elements hxs has hbs
      cases ys with
      | nil => cases hhead
      | cons y ys => simpa using hhead.symm
  rw [hplace]
  exact hm'.bind (listBegin_ends hl)

/-- `list_min` returns the element that `list_sort` would put at the front, and `list_max` the one
that sorting by the opposite order would. -/
theorem listMin_listMax_sort (h : Holds m list xs) (hfuel : xs.length < fuel)
    (hasymm : ∀ a ∈ xs, ∀ b ∈ xs, less a b → less b a = false)
    (htrans : ∀ a ∈ xs, ∀ b ∈ xs, ∀ c ∈ xs, less b a = false → less c b = false →
      less c a = false) :
    (∃ p m', listMin less fuel list m = .ok (p, m) ∧
      (do listSort less fuel list; listBegin list) m = .ok (p, m')) ∧
    (∃ p m', listMax less fuel list m = .ok (p, m) ∧
      (do listSort (fun a b => less b a) fuel list; listBegin list) m = .ok (p, m')) := by
  refine ⟨listExtreme_sort less h hfuel hasymm htrans, ?_⟩
  exact listExtreme_sort (fun a b => less b a) h hfuel
    (fun a ha b hb hab => hasymm b hb a ha hab)
    fun a ha b hb c hc hab hbc => htrans c hc b hb a ha hbc hab

theorem listMin_listMax_sort_three :
    (∃ p m', listMin (fun a b => decide (a / 10 < b / 10)) 4 ⟨0, 1⟩ threeElems =
        .ok (p, threeElems) ∧
      (do listSort (fun a b => decide (a / 10 < b / 10)) 4 ⟨0, 1⟩; listBegin ⟨0, 1⟩) threeElems =
        .ok (p, m')) ∧
    (∃ p m', listMax (fun a b => decide (a / 10 < b / 10)) 4 ⟨0, 1⟩ threeElems =
        .ok (p, threeElems) ∧
      (do listSort (fun a b => decide (b / 10 < a / 10)) 4 ⟨0, 1⟩; listBegin ⟨0, 1⟩) threeElems =
        .ok (p, m')) :=
  listMin_listMax_sort _ holds_threeElems (by decide) (by decide) (by decide)

end Cush.LinkedList
