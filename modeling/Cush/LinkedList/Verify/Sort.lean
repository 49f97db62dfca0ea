import Cush.LinkedList.Ordered
import Cush.LinkedList.Verify.Operations
import Cush.Lib.MergeRuns

/-!
# Sorting

`list_sort` sorts: the loops find the runs of the list and merge them in place two by two, so that
one round of the outer loop is one `MergeRuns.onePass` over the elements, and the rounds end because
each leaves fewer runs. The assertions of `list.c` about sorted ranges hold whatever `less` is, as
long as no two elements are less than each other.
-/

namespace Cush.LinkedList

open LinkHeap Program MergeRuns

variable {α : Type} {less : α → α → Bool} {m m' : Memory α} {list : ListHdr α}
  {a b x y : α} {xs ys zs pre post as bs : List α} {fuel : Nat}

/-! ## Orders -/

/-- The order in which `less` leaves two elements as they are. -/
abbrev inOrder (less : α → α → Bool) (a b : α) : Bool :=
  !less b a

/-- The elements `ys` are `xs` put in order, those of equal rank in the order that they had. -/
structure SortedStably (less : α → α → Bool) (xs ys : List α) : Prop where
  perm : ys.Perm xs
  sorted : ys.Pairwise fun a b => less b a = false
  stable : ∀ a b, less b a = false → [a, b].Sublist xs → [a, b].Sublist ys

theorem transOn_inOrder (htrans : ∀ a ∈ xs, ∀ b ∈ xs, ∀ c ∈ xs, less b a = false →
    less c b = false → less c a = false) : TransOn (inOrder less) xs := by
  intro a ha b hb c hc hab hbc
  simpa using htrans a ha b hb c hc (by simpa using hab) (by simpa using hbc)

theorem sortedStably_of_keeps (ht : TransOn (inOrder less) xs) (hrun : Run (inOrder less) ys)
    (hkeeps : Keeps (inOrder less) xs ys) : SortedStably less xs ys := by
  refine ⟨hkeeps.perm, ?_, fun a b hab hsub => hkeeps.order a b (by simpa using hab) hsub⟩
  simpa using hrun.pairwise (ht.mono fun a => hkeeps.perm.mem_iff.1)

/-- There is one way to sort distinct elements stably. -/
theorem SortedStably.unique (h : SortedStably less xs ys) (h' : SortedStably less xs zs)
    (hn : xs.Nodup) : ys = zs := by
  have keeps {l : List α} (hl : SortedStably less xs l) : Keeps (inOrder less) xs l :=
    ⟨hl.perm, fun a b hab => hl.stable a b (by simpa using hab)⟩
  exact (keeps h).unique (keeps h') hn (by simpa using h.sorted) (by simpa using h'.sorted)

/-! ## Runs -/

variable [DecidableEq α] (less)

theorem isSortedLoop_ends (h : Holds m list (xs ++ a :: (ys ++ zs)))
    (hrun : Run (inOrder less) (a :: ys)) (hfuel : ys.length < fuel) :
    Ends (isSortedLoop less (list.place zs) fuel (some a)) m true m := by
  induction ys generalizing xs a fuel with
  | nil =>
    obtain ⟨fuel, rfl⟩ := Nat.exists_eq_add_of_lt hfuel
    exact (listNext_ends h).bind (.ite_pos rfl (.pure _ _))
  | cons y ys ih =>
    cases fuel with
    | zero => exact absurd hfuel (Nat.not_lt_zero _)
    | succ fuel =>
      obtain ⟨hay, hrest⟩ := List.isChain_cons_cons.1 hrun
      refine (listNext_ends h).bind ?_
      have hprev := listPrev_cons h
      rw [List.append_cons] at h
      refine .ite_neg (place_ne h) ?_
      refine hprev.bind ?_
      refine .bind (v := less y a) rfl ?_
      refine .ite_neg (by simpa using hay) ?_
      exact ih h hrest (Nat.lt_of_succ_lt_succ hfuel)

/-- The assertions of `list.c`. -/
theorem isSorted_ends (h : Holds m list (xs ++ (ys ++ zs))) (hrun : Run (inOrder less) ys)
    (hfuel : ys.length < fuel) :
    Ends (isSorted less fuel (list.place (ys ++ zs)) (list.place zs)) m true m := by
  cases ys with
  | nil => exact .ite_pos rfl (.pure _ _)
  | cons y ys =>
    exact .ite_neg (place_ne h) (isSortedLoop_ends less h hrun (Nat.lt_of_succ_lt hfuel))

theorem findEndOfRunLoop_ends (h : Holds m list (xs ++ a :: ys)) (hfuel : ys.length < fuel) :
    ∃ run rest, a :: ys = a :: run ++ rest ∧ Run (inOrder less) (a :: run) ∧
      (∀ x ∈ (a :: run).getLast?, ∀ y ∈ rest.head?, inOrder less x y = false) ∧
      Ends (findEndOfRunLoop less (listEnd list) fuel (some a)) m (list.place rest) m := by
  induction ys generalizing xs a fuel with
  | nil =>
    obtain ⟨fuel, rfl⟩ := Nat.exists_eq_add_of_lt hfuel
    exact ⟨[], [], rfl, .singleton a, by simp, (listNext_ends h).bind (.ite_pos rfl (.pure _ _))⟩
  | cons y ys ih =>
    cases fuel with
    | zero => exact absurd hfuel (Nat.not_lt_zero _)
    | succ fuel =>
      have hnext := listNext_ends h
      have hprev := listPrev_cons h
      rw [List.append_cons] at h
      have hend : list.place (y :: ys) ≠ listEnd list := fun he => nomatch (place_eq_end h).1 he
      cases hless : less y a with
      | true =>
        refine ⟨[], y :: ys, rfl, .singleton a, by simp [hless], ?_⟩
        refine hnext.bind ?_
        refine .ite_neg hend ?_
        refine hprev.bind ?_
        refine .bind (v := less y a) rfl ?_
        exact .ite_pos hless (.pure _ _)
      | false =>
        obtain ⟨run, rest, he, hrun, hbreak, hloop⟩ := ih h (Nat.lt_of_succ_lt_succ hfuel)
        refine ⟨y :: run, rest, by rw [he]; rfl, List.isChain_cons_cons.2 ⟨by simp [hless], hrun⟩,
          by simpa using hbreak, ?_⟩
        refine hnext.bind ?_
        refine .ite_neg hend ?_
        refine hprev.bind ?_
        refine .bind (v := less y a) rfl ?_
        exact .ite_neg (by simp [hless]) hloop

/-- The first run of what is left of the list. -/
theorem findEndOfRun_ends (h : Holds m list (xs ++ ys)) (hne : ys ≠ []) (hfuel : ys.length < fuel) :
    ∃ run rest, run ≠ [] ∧ ys = run ++ rest ∧ Run (inOrder less) run ∧
      ys.splitBy (inOrder less) = run :: rest.splitBy (inOrder less) ∧
      Ends (findEndOfRun less fuel (list.place ys) (listEnd list)) m (list.place rest) m := by
  cases ys with
  | nil => exact absurd rfl hne
  | cons a ys =>
    have hend : list.place (a :: ys) ≠ listEnd list := fun he => nomatch (place_eq_end h).1 he
    obtain ⟨run, rest, he, hrun, hbreak, hloop⟩ :=
      findEndOfRunLoop_ends less h (Nat.lt_of_succ_lt hfuel)
    refine ⟨a :: run, rest, by simp, he, hrun, ?_, ?_⟩
    · rw [he, List.splitBy_append hbreak, List.splitBy_of_isChain (by simp) hrun]
      rfl
    · refine (assert_ends rfl).bind ?_
      refine (assert_ends rfl).bind ?_
      refine (assert_ends (bne_iff_ne.2 hend)).bind ?_
      exact hloop

/-! ## Merging in place -/

theorem inplaceMergeLoop_ends (h : Holds m list (pre ++ as ++ bs ++ post))
    (hfuel : as.length + bs.length < fuel) :
    ∃ m', Ends (inplaceMergeLoop less (list.place post) fuel (list.place (as ++ bs ++ post))
        (list.place (bs ++ post))) m () m' ∧
      Holds m' list (pre ++ as.merge bs (inOrder less) ++ post) ∧
      Within (list.nodes (pre ++ as ++ bs ++ post)) m m' := by
  induction fuel generalizing m pre as bs with
  | zero => exact absurd hfuel (Nat.not_lt_zero _)
  | succ fuel ih =>
    cases as with
    | nil => exact ⟨m, .ite_pos (by simp) (.pure _ _), by simpa using h, .refl _ _⟩
    | cons a as =>
      cases bs with
      | nil => exact ⟨m, .ite_pos (by simp) (.pure _ _), by simpa using h, .refl _ _⟩
      | cons b bs =>
        have ha : Holds m list (pre ++ a :: (as ++ b :: (bs ++ post))) := by
          simpa using h
        have hb : Holds m list (pre ++ a :: as ++ b :: (bs ++ post)) := by
          simpa using h
        have hnot : ¬ ((decide (list.place (a :: as ++ b :: bs ++ post) =
            list.place (b :: bs ++ post)) || decide (list.place (b :: bs ++ post) =
            list.place post)) = true) := by
          have hab : some a ≠ list.place (b :: (bs ++ post)) := place_ne ha
          have hbp : some b ≠ list.place post := place_ne hb
          simpa using ⟨by simpa using hab, by simpa using hbp⟩
        cases hless : less b a with
        | false =>
          have hrest : Holds m list (pre ++ [a] ++ as ++ b :: bs ++ post) := by simpa using h
          obtain ⟨m', hm', hl, hw⟩ := ih hrest (by simp at hfuel ⊢; omega)
          refine ⟨m', ?_, by simpa [hless] using hl, hw.mono (by simp)⟩
          refine .ite_neg hnot ?_
          refine .bind (v := less b a) rfl ?_
          refine .ite_pos (by simp [hless]) ?_
          have hnext : Ends (listNext (some a)) m (list.place (as ++ b :: bs ++ post)) m := by
            simpa using listNext_ends ha
          exact hnext.bind hm'
        | true =>
          have hmove : Holds m list (pre ++ a :: as ++ [b] ++ (bs ++ post)) := by simpa using h
          have hback : pre ++ a :: as ++ (bs ++ post) = pre ++ (a :: as ++ bs ++ post) := by simp
          obtain ⟨m₁, hm₁, hl₁, hw₁⟩ := listSplice_same hmove hback
          have hrest : Holds m₁ list (pre ++ [b] ++ a :: as ++ bs ++ post) := by simpa using hl₁
          obtain ⟨m', hm', hl, hw⟩ := ih hrest (by simp at hfuel ⊢; omega)
          refine ⟨m', ?_, by simpa [hless] using hl,
            (hw₁.mono ?_).trans (hw.mono ?_)⟩
          · refine .ite_neg hnot ?_
            refine .bind (v := less b a) rfl ?_
            refine .ite_neg (by simp [hless]) ?_
            refine (listNext_ends hb).bind ?_
            refine (listPrev_cons hb).bind ?_
            refine hm₁.bind ?_
            exact hm'
          · simp
            tauto
          · simp
            tauto

theorem inplaceMerge_ends (h : Holds m list (pre ++ as ++ bs ++ post))
    (ha : Run (inOrder less) as) (hb : Run (inOrder less) bs)
    (hfuel : as.length + bs.length < fuel) :
    ∃ m', Ends (inplaceMerge less fuel (list.place (as ++ bs ++ post)) (list.place (bs ++ post))
        (list.place post)) m () m' ∧
      Holds m' list (pre ++ as.merge bs (inOrder less) ++ post) ∧
      Within (list.nodes (pre ++ as ++ bs ++ post)) m m' := by
  obtain ⟨m', hm', hl, hw⟩ := inplaceMergeLoop_ends less h hfuel
  refine ⟨m', ?_, hl, hw⟩
  have h₁ : Holds m list (pre ++ (as ++ (bs ++ post))) := by simpa using h
  have h₂ : Holds m list (pre ++ as ++ (bs ++ post)) := by simpa using h
  have hfst := isSorted_ends less h₁ ha (Nat.lt_of_le_of_lt (Nat.le_add_right _ _) hfuel)
  have hsnd := isSorted_ends less h₂ hb (Nat.lt_of_le_of_lt (Nat.le_add_left _ _) hfuel)
  rw [← List.append_assoc] at hfst
  refine (assert_ends rfl).bind ?_
  refine (assert_ends rfl).bind ?_
  refine (assert_ends rfl).bind ?_
  refine hfst.bind ?_
  refine (assert_ends rfl).bind ?_
  refine hsnd.bind ?_
  refine (assert_ends rfl).bind ?_
  exact hm'

/-! ## Passes -/

/-- A round of the outer loop, which has been through `pre` and sees the runs of `ys` next. -/
theorem sortPass_ends {rounds : Nat} (h : Holds m list (pre ++ ys)) (hrounds : ys.length < rounds)
    (hfuel : ys.length < fuel) (cnt : Nat) :
    ∃ m', Ends (sortPass less fuel list rounds (list.place ys) cnt) m
        (cnt + (mergePairs (inOrder less) (ys.splitBy (inOrder less))).length) m' ∧
      Holds m' list (pre ++ onePass (inOrder less) ys) ∧ Within (list.nodes (pre ++ ys)) m m' := by
  induction rounds generalizing m pre ys cnt with
  | zero => exact absurd hrounds (Nat.not_lt_zero _)
  | succ rounds ih =>
    rcases eq_or_ne ys [] with rfl | hne
    · exact ⟨m, .ite_pos rfl (.pure _ _), h, .refl _ _⟩
    · have hend : list.place ys ≠ listEnd list := fun he => hne ((place_eq_end h).1 he)
      obtain ⟨as, rest, hane, rfl, ha, hsplit, hfst⟩ := findEndOfRun_ends less h hne hfuel
      rcases eq_or_ne rest [] with rfl | hrest
      · refine ⟨m, ?_, by rw [onePass, hsplit]; simpa [mergePairs] using h, .refl _ _⟩
        refine .ite_neg hend ?_
        refine hfst.bind ?_
        rw [hsplit]
        exact .ite_pos rfl (.pure _ _)
      · rw [← List.append_assoc] at h
        have hend' : list.place rest ≠ listEnd list := fun he => hrest ((place_eq_end h).1 he)
        have halen := List.length_pos_of_ne_nil hane
        rw [List.length_append] at hrounds hfuel
        have hfuel' : rest.length < fuel := by omega
        obtain ⟨bs, post, hbne, rfl, hb, hsplit', hsnd⟩ := findEndOfRun_ends less h hrest hfuel'
        rw [List.length_append] at hrounds hfuel
        rw [← List.append_assoc] at h
        have hruns : as.length + bs.length < fuel := by omega
        obtain ⟨m₁, hm₁, hl₁, hw₁⟩ := inplaceMerge_ends less h ha hb hruns
        obtain ⟨m', hm', hl, hw⟩ := ih hl₁ (by omega) (by omega) (cnt + 1)
        have hnodes : ∀ x ∈ list.nodes (pre ++ as.merge bs (inOrder less) ++ post),
            x ∈ list.nodes (pre ++ as ++ bs ++ post) := by
          simp [List.mem_merge]
          tauto
        refine ⟨m', ?_, ?_, ?_⟩
        · refine .ite_neg hend ?_
          refine hfst.bind ?_
          refine .ite_neg hend' ?_
          refine hsnd.bind ?_
          rw [← List.append_assoc]
          refine hm₁.bind ?_
          rw [List.append_assoc, hsplit, hsplit', mergePairs, List.length_cons]
          rwa [← Nat.add_assoc, Nat.add_right_comm cnt]
        · rw [onePass, hsplit, hsplit', mergePairs, List.flatten_cons, ← List.append_assoc]
          exact hl
        · rw [← List.append_assoc as, ← List.append_assoc pre, ← List.append_assoc pre]
          exact hw₁.trans (hw.mono hnodes)

/-- What the rounds come to: the elements in one run, with those that were in order still in order.
-/
theorem sortLoop_ends {rounds : Nat} (h : Holds m list xs) (ht : TotalOn (inOrder less) xs)
    (hrounds : (xs.splitBy (inOrder less)).length < rounds) (hfuel : xs.length < fuel) :
    ∃ ys m', Ends (sortLoop less fuel list rounds) m () m' ∧ Holds m' list ys ∧
      Within (list.nodes xs) m m' ∧ ys.Perm xs ∧ Run (inOrder less) ys ∧
      (TransOn (inOrder less) xs → Keeps (inOrder less) xs ys) := by
  induction rounds generalizing m xs with
  | zero => exact absurd hrounds (Nat.not_lt_zero _)
  | succ rounds ih =>
    have hperm := onePass_perm (inOrder less) xs
    obtain ⟨m₁, hm₁, hl₁, hw₁⟩ := sortPass_ends less h.nil_append hfuel hfuel 0
    rw [Nat.zero_add, length_mergePairs] at hm₁
    by_cases hfew : (xs.splitBy (inOrder less)).length ≤ 2
    · refine ⟨_, m₁, ?_, hl₁, hw₁, hperm, run_onePass ht hfew, onePass_keeps⟩
      refine (listBegin_ends h).bind ?_
      refine hm₁.bind ?_
      exact .ite_neg (by omega) (.pure _ _)
    · have hhalf := length_splitBy_onePass ht
      obtain ⟨ys, m', hm', hl, hw, hp, hrun, hkeeps⟩ := ih hl₁
        (ht.mono fun a => hperm.mem_iff.1) (by simp at *; omega)
        (by simpa [hperm.length_eq] using hfuel)
      refine ⟨ys, m', ?_, hl, hw₁.trans (hw.mono ?_), hp.trans hperm, hrun, fun htrans =>
        (onePass_keeps htrans).trans (hkeeps (htrans.mono fun a => hperm.mem_iff.1))⟩
      · refine (listBegin_ends h).bind ?_
        refine hm₁.bind ?_
        exact .ite_pos (by omega) hm'
      · simp [hperm.mem_iff]

/-- Without transitivity of `less` the neighbours are in order all the same, which is what the last
assertion of `list_sort` checks. -/
theorem listSort_ends (h : Holds m list xs) (hfuel : xs.length < fuel)
    (hasymm : ∀ a ∈ xs, ∀ b ∈ xs, less a b → less b a = false) :
    ∃ ys m', Ends (listSort less fuel list) m () m' ∧ Holds m' list ys ∧
      Within (list.nodes xs) m m' ∧ ys.Perm xs ∧ Run (inOrder less) ys ∧
      (TransOn (inOrder less) xs → Keeps (inOrder less) xs ys) := by
  have ht : TotalOn (inOrder less) xs := by
    intro a ha b hb
    have hab := hasymm a ha b hb
    cases hless : less a b <;> simp_all
  have hrounds := Nat.lt_of_le_of_lt (length_splitBy_le (inOrder less) xs) hfuel
  obtain ⟨ys, m', hm', hl, hw, hperm, hrun, hkeeps⟩ := sortLoop_ends less h ht hrounds hfuel
  refine ⟨ys, m', ?_, hl, hw, hperm, hrun, hkeeps⟩
  have hl' : Holds m' list ([] ++ (ys ++ [])) := by simpa using hl
  have hsorted := isSorted_ends less hl' hrun (hperm.length_eq ▸ hfuel)
  rw [List.append_nil] at hsorted
  refine hm'.bind ?_
  refine (listBegin_ends hl).bind ?_
  refine hsorted.bind ?_
  exact assert_ends rfl

theorem listSort_sorts (h : Holds m list xs) (hfuel : xs.length < fuel)
    (hasymm : ∀ a ∈ xs, ∀ b ∈ xs, less a b → less b a = false)
    (htrans : ∀ a ∈ xs, ∀ b ∈ xs, ∀ c ∈ xs, less b a = false → less c b = false →
      less c a = false) :
    ∃ ys m', listSort less fuel list m = .ok ((), m') ∧ Holds m' list ys ∧
      SortedStably less xs ys ∧ Within (list.nodes xs) m m' := by
  have ht := transOn_inOrder htrans
  obtain ⟨ys, m', hm', hl, hw, -, hrun, hkeeps⟩ := listSort_ends less h hfuel hasymm
  exact ⟨ys, m', hm', hl, sortedStably_of_keeps ht hrun (hkeeps ht), hw⟩

/-- Three elements between the headers `0` and `1`. -/
def threeElems : Memory Nat
  | 0 => some ⟨none, some 31⟩
  | 31 => some ⟨some 0, some 20⟩
  | 20 => some ⟨some 31, some 32⟩
  | 32 => some ⟨some 20, some 1⟩
  | 1 => some ⟨some 32, none⟩
  | _ => none

theorem holds_threeElems : Holds threeElems ⟨0, 1⟩ [31, 20, 32] := by
  refine ⟨by decide, ?_, ⟨_, rfl⟩, ⟨_, rfl⟩⟩
  simp [Chain, Linked, threeElems]

theorem listSort_sorts_three :
    ∃ ys m', listSort (fun a b => decide (a / 10 < b / 10)) 4 ⟨0, 1⟩ threeElems = .ok ((), m') ∧
      Holds m' ⟨0, 1⟩ ys ∧ SortedStably (fun a b => decide (a / 10 < b / 10)) [31, 20, 32] ys ∧
      Within (ListHdr.nodes ⟨0, 1⟩ [31, 20, 32]) threeElems m' :=
  listSort_sorts _ holds_threeElems (by decide) (by decide) (by decide)

end Cush.LinkedList
