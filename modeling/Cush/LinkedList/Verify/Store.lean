import Cush.LinkedList.Verify.Operations
import Mathlib.Data.Set.Insert
import Mathlib.Logic.Function.Basic

/-!
# Any number of lists under any calls

A store of lists, each a sequence of elements, and of elements that are in no list. Calls of
`list.c` and the allocation of elements change it as `Call.Spec` says. A memory in which the lists
have no node in common represents it, and does so after any sequence of calls that the store allows:
no call runs into a null pointer, an element that has been freed or a failing assertion, no list
loses its shape, and no element is lost.
-/

namespace Cush.LinkedList

open LinkHeap Program

/-- The lists, and the elements that have been allocated and are in none of them. -/
structure Store (ι α : Type) where
  lists : ι → List α
  loose : Set α

inductive Call (ι α : Type) where
  | malloc (x : α) (n : LinkNode α)
  | free (x : α)
  | insert (before : Ptr α) (x : α)
  | pushFront (i : ι) (x : α)
  | pushBack (i : ι) (x : α)
  | remove (x : α)
  | popFront (i : ι)
  | popBack (i : ι)
  | splice (before first last : Ptr α)
  | reverse (i : ι)

variable {ι α : Type}

section Calls

variable [DecidableEq α]

/-- `malloc` returns the address `x`, with whatever was in memory there. -/
def malloc (x : α) (n : LinkNode α) : ListM α (Ptr α) := fun m =>
  .ok (some x, fun y => if y = x then some n else m y)

def free (x : α) : ListM α (Ptr α) := fun m =>
  if (m x).isSome then .ok (none, fun y => if y = x then none else m y) else .error .freed

/-- The call as a program; those that return nothing return a null pointer here. -/
def Call.run (hdr : ι → ListHdr α) (fuel : Nat) : Call ι α → ListM α (Ptr α)
  | .malloc x n => LinkedList.malloc x n
  | .free x => LinkedList.free x
  | .insert before x => do
    listInsert before (some x)
    return none
  | .pushFront i x => do
    listPushFront (hdr i) (some x)
    return none
  | .pushBack i x => do
    listPushBack (hdr i) (some x)
    return none
  | .remove x => listRemove (some x)
  | .popFront i => listPopFront (hdr i)
  | .popBack i => listPopBack (hdr i)
  | .splice before first last => do
    listSplice before first last
    return none
  | .reverse i => do
    listReverse fuel (hdr i)
    return none

end Calls

/-! ## What the calls are for -/

section Spec

variable (hdr : ι → ListHdr α) (fuel : Nat)

/-- `x` is the address of no element and of no header. -/
def Store.Fresh (s : Store ι α) (x : α) : Prop :=
  x ∉ s.loose ∧ ∀ i, x ∉ (hdr i).nodes (s.lists i)

variable [DecidableEq ι]

def Store.setList (s : Store ι α) (i : ι) (xs : List α) : Store ι α :=
  { s with lists := Function.update s.lists i xs }

/-- A call, the pointer that it returns, and the store before and after it. A position is given by
the elements behind it; an empty range can be given by any pointer twice. A loop has to be given a
round for each element and one more. -/
inductive Call.Spec : Call ι α → Ptr α → Store ι α → Store ι α → Prop
  | malloc {s : Store ι α} {x : α} {n : LinkNode α} (hx : s.Fresh hdr x) :
    Spec (.malloc x n) (some x) s { s with loose := s.loose ∪ {x} }
  | free {s : Store ι α} {x : α} (hx : x ∈ s.loose) :
    Spec (.free x) none s { s with loose := s.loose \ {x} }
  | insert {s : Store ι α} {i : ι} {x : α} {xs ys : List α} (hx : x ∈ s.loose)
    (hi : s.lists i = xs ++ ys) :
    Spec (.insert ((hdr i).place ys) x) none s
      { s.setList i (xs ++ x :: ys) with loose := s.loose \ {x} }
  | pushFront {s : Store ι α} {i : ι} {x : α} (hx : x ∈ s.loose) :
    Spec (.pushFront i x) none s { s.setList i (x :: s.lists i) with loose := s.loose \ {x} }
  | pushBack {s : Store ι α} {i : ι} {x : α} (hx : x ∈ s.loose) :
    Spec (.pushBack i x) none s { s.setList i (s.lists i ++ [x]) with loose := s.loose \ {x} }
  | remove {s : Store ι α} {i : ι} {x : α} {xs ys : List α} (hi : s.lists i = xs ++ x :: ys) :
    Spec (.remove x) ((hdr i).place ys) s
      { s.setList i (xs ++ ys) with loose := s.loose ∪ {x} }
  | popFront {s : Store ι α} {i : ι} {x : α} {xs : List α} (hi : s.lists i = x :: xs) :
    Spec (.popFront i) (some x) s { s.setList i xs with loose := s.loose ∪ {x} }
  | popBack {s : Store ι α} {i : ι} {x : α} {xs : List α} (hi : s.lists i = xs ++ [x]) :
    Spec (.popBack i) (some x) s { s.setList i xs with loose := s.loose ∪ {x} }
  | splice {s : Store ι α} {i j : ι} {c : α} {xs ys zs xs' ys' : List α}
    (hi : s.lists i = xs ++ c :: zs ++ ys) (hj : (s.setList i (xs ++ ys)).lists j = xs' ++ ys') :
    Spec (.splice ((hdr j).place ys') (some c) ((hdr i).place ys)) none s
      ((s.setList i (xs ++ ys)).setList j (xs' ++ c :: zs ++ ys'))
  | spliceEmpty {s : Store ι α} {j : ι} {p : Ptr α} {xs ys : List α}
    (hj : s.lists j = xs ++ ys) : Spec (.splice ((hdr j).place ys) p p) none s s
  | reverse {s : Store ι α} {i : ι} (hfuel : (s.lists i).length < fuel) :
    Spec (.reverse i) none s (s.setList i (s.lists i).reverse)

end Spec

/-! ## Memories that hold a store -/

/-- The lists are in memory, apart from each other, and what is allocated besides their nodes are
the elements in no list. -/
structure Represents (hdr : ι → ListHdr α) (m : Memory α) (s : Store ι α) : Prop where
  holds : ∀ i, Holds m (hdr i) (s.lists i)
  apart : ∀ i j, i ≠ j → ∀ x ∈ (hdr i).nodes (s.lists i), x ∉ (hdr j).nodes (s.lists j)
  loose : ∀ x ∈ s.loose, ∀ i, x ∉ (hdr i).nodes (s.lists i)
  allocated : ∀ x, (m x).isSome ↔ x ∈ s.loose ∨ ∃ i, x ∈ (hdr i).nodes (s.lists i)

section Steps

variable {hdr : ι → ListHdr α} {m m' : Memory α} {s s' : Store ι α} {i j : ι}
  {xs ys : List α} {W : List α} {L : Set α} {fuel : Nat} {x : α}

section Allocation

variable [DecidableEq α]

theorem Represents.malloc (h : Represents hdr m s) (hx : s.Fresh hdr x) (n : LinkNode α) :
    Represents hdr (fun y => if y = x then some n else m y) { s with loose := s.loose ∪ {x} } := by
  refine ⟨fun i => (h.holds i).congr fun y hy => ?_, h.apart, fun y hy i => ?_, fun y => ?_⟩
  · exact if_neg (ne_of_mem_of_not_mem hy (hx.2 i))
  · rcases hy with hy | rfl
    · exact h.loose y hy i
    · exact hx.2 i
  · by_cases hyx : y = x
    · simp [hyx]
    · simp [hyx, h.allocated]

theorem Represents.free (h : Represents hdr m s) (hx : x ∈ s.loose) :
    Represents hdr (fun y => if y = x then none else m y) { s with loose := s.loose \ {x} } := by
  refine ⟨fun i => (h.holds i).congr fun y hy => ?_, h.apart, fun y hy => h.loose y hy.1,
    fun y => ?_⟩
  · exact if_neg (ne_of_mem_of_not_mem hy (h.loose x hx i))
  · by_cases hyx : y = x
    · have hxi := h.loose x hx
      simpa [hyx] using hxi
    · simp [hyx, h.allocated]

end Allocation

variable [DecidableEq ι]

@[simp] theorem lists_setList_self (s : Store ι α) (i : ι) (xs : List α) :
    (s.setList i xs).lists i = xs :=
  Function.update_self _ _ _

@[simp] theorem lists_setList_ne (s : Store ι α) (xs : List α) (h : j ≠ i) :
    (s.setList i xs).lists j = s.lists j :=
  Function.update_of_ne h _ _

/-- A call that changes one list, and takes an element from those in no list or gives one to them.
-/
theorem Represents.setList (h : Represents hdr m s) (hl : Holds m' (hdr i) xs)
    (hw : Within W m m') (hW : ∀ x ∈ W, x ∈ (hdr i).nodes (s.lists i) ∨ x ∈ s.loose)
    (hsame : ∀ x, x ∈ (hdr i).nodes xs ∨ x ∈ L ↔ x ∈ (hdr i).nodes (s.lists i) ∨ x ∈ s.loose)
    (hdis : ∀ x ∈ L, x ∉ (hdr i).nodes xs) :
    Represents hdr m' { s.setList i xs with loose := L } := by
  -- the nodes of the other lists are not involved
  have hother : ∀ j, j ≠ i → ∀ x ∈ (hdr j).nodes (s.lists j),
      ¬ (x ∈ (hdr i).nodes (s.lists i) ∨ x ∈ s.loose) := by
    rintro j hj x hx (hxi | hxl)
    · exact h.apart j i hj x hx hxi
    · exact h.loose x hxl j hx
  refine ⟨fun j => ?_, fun j k hjk x hx hx' => ?_, fun x hx j hx' => ?_, fun x => ?_⟩
  · by_cases hj : j = i
    · subst hj
      rwa [lists_setList_self]
    · rw [lists_setList_ne _ _ hj]
      exact hw.isDList (h.holds j) fun x hx hmem => hother j hj x hx (hW x hmem)
  · by_cases hj : j = i
    · subst hj
      rw [lists_setList_self] at hx
      rw [lists_setList_ne _ _ hjk.symm] at hx'
      exact hother k hjk.symm x hx' ((hsame x).1 (.inl hx))
    · rw [lists_setList_ne _ _ hj] at hx
      by_cases hk : k = i
      · subst hk
        rw [lists_setList_self] at hx'
        exact hother j hj x hx ((hsame x).1 (.inl hx'))
      · rw [lists_setList_ne _ _ hk] at hx'
        exact h.apart j k hjk x hx hx'
  · by_cases hj : j = i
    · subst hj
      rw [lists_setList_self] at hx'
      exact hdis x hx hx'
    · rw [lists_setList_ne _ _ hj] at hx'
      exact hother j hj x hx' ((hsame x).1 (.inr hx))
  · rw [hw.allocated, h.allocated]
    constructor
    · rintro (hx | ⟨j, hx⟩)
      · exact ((hsame x).2 (.inr hx)).symm.imp_right fun hx => ⟨i, by rwa [lists_setList_self]⟩
      · by_cases hj : j = i
        · subst hj
          exact ((hsame x).2 (.inl hx)).symm.imp_right fun hx => ⟨j, by rwa [lists_setList_self]⟩
        · exact .inr ⟨j, by rwa [lists_setList_ne _ _ hj]⟩
    · rintro (hx | ⟨j, hx⟩)
      · exact ((hsame x).1 (.inr hx)).symm.imp_right fun hx => ⟨i, hx⟩
      · by_cases hj : j = i
        · subst hj
          rw [lists_setList_self] at hx
          exact ((hsame x).1 (.inl hx)).symm.imp_right fun hx => ⟨j, hx⟩
        · rw [lists_setList_ne _ _ hj] at hx
          exact .inr ⟨j, hx⟩

theorem Represents.insert (h : Represents hdr m s) (hx : x ∈ s.loose) (hi : s.lists i = xs ++ ys)
    (hl : Holds m' (hdr i) (xs ++ x :: ys)) (hw : Within ((hdr i).nodes (xs ++ x :: ys)) m m') :
    Represents hdr m' { s.setList i (xs ++ x :: ys) with loose := s.loose \ {x} } := by
  have hxi := h.loose x hx i
  rw [hi] at hxi
  refine h.setList hl hw (fun y hy => ?_) (fun y => ?_) fun y hy hmem => ?_
  · by_cases hyx : y = x
    · exact .inr (hyx ▸ hx)
    · refine .inl ?_
      rw [hi]
      simp [hyx] at hy ⊢
      tauto
  · rw [hi]
    by_cases hyx : y = x
    · simp [hyx, hx]
    · simp [hyx]
  · have hyi := h.loose y hy.1 i
    have hyx : y ≠ x := by simpa using hy.2
    rw [hi] at hyi
    refine hyi ?_
    simp [hyx] at hmem ⊢
    tauto

theorem Represents.remove (h : Represents hdr m s) (hi : s.lists i = xs ++ x :: ys)
    (hl : Holds m' (hdr i) (xs ++ ys)) (hw : Within ((hdr i).nodes (xs ++ ys)) m m') :
    Represents hdr m' { s.setList i (xs ++ ys) with loose := s.loose ∪ {x} } := by
  have hx : x ∉ (hdr i).nodes (xs ++ ys) := by
    have hseg := h.holds i
    rw [hi, List.append_cons] at hseg
    exact hseg.segment_notMem x (List.mem_singleton_self x)
  refine h.setList hl hw (fun y hy => .inl ?_) (fun y => ?_) fun y hy hmem => ?_
  · rw [hi]
    simp at hy ⊢
    tauto
  · rw [hi]
    simp
    tauto
  · rcases hy with hy | rfl
    · refine h.loose y hy i ?_
      rw [hi]
      simp at hmem ⊢
      tauto
    · exact hx hmem

variable [DecidableEq α]

/-- A range is taken out of a list, and is in none before it is put into one. -/
theorem Represents.splice {c : α} {zs xs' ys' : List α} (h : Represents hdr m s)
    (hi : s.lists i = xs ++ c :: zs ++ ys) (hj : (s.setList i (xs ++ ys)).lists j = xs' ++ ys') :
    ∃ m', Ends (listSplice ((hdr j).place ys') (some c) ((hdr i).place ys)) m () m' ∧
      Represents hdr m' ((s.setList i (xs ++ ys)).setList j (xs' ++ c :: zs ++ ys')) := by
  have hl := h.holds i
  rw [hi] at hl
  have hcut : Represents hdr (m.link (before (hdr i).head xs) (after ys (hdr i).tail))
      { s.setList i (xs ++ ys) with loose := s.loose ∪ {x | x ∈ c :: zs} } := by
    refine h.setList hl.cut.1 (.link (before_mem _ _ _ _) (after_mem _ _ _ _)) ?_ ?_ ?_
    · rw [hi]
      simp
      tauto
    · rw [hi]
      simp
      tauto
    · rintro y (hy | hy) hmem
      · refine h.loose y hy i ?_
        rw [hi]
        simp at hmem ⊢
        tauto
      · exact hl.segment_notMem y hy hmem
  have hb : ∃ a q, m (after ys' (hdr j).tail) = some ⟨some a, q⟩ := by
    refine (h.holds j).prev_of_mem ?_
    have hmem : after ys' (hdr j).tail ∈ xs' ++ ys' ++ [(hdr j).tail] := by
      rw [List.append_assoc]
      exact List.mem_append_right _ (after_mem_concat ys' (hdr j).tail)
    rw [← hj] at hmem
    by_cases hij : j = i
    · subst hij
      rw [lists_setList_self] at hmem
      rw [hi]
      simp at hmem ⊢
      tauto
    · rwa [lists_setList_ne _ _ hij] at hmem
  have hlists : ({ s.setList i (xs ++ ys) with loose := s.loose ∪ {x | x ∈ c :: zs} } :
      Store ι α).lists j = xs' ++ ys' := hj
  have hholds := hcut.holds j
  have hloose := fun x hx => hcut.loose x hx j
  rw [hlists] at hholds hloose
  obtain ⟨m', hm', hl', hw⟩ := listSplice_range hl hb hholds fun x hx => hloose x (.inr hx)
  refine ⟨m', hm', hcut.setList (L := s.loose) hl' hw ?_ ?_ fun x hx hmem => ?_⟩
  · rw [hlists]
    simp
    tauto
  · rw [hlists]
    simp
    tauto
  · have hxi := h.loose x hx i
    have hxj := hloose x (.inl hx)
    rw [hi] at hxi
    simp at hmem hxi hxj
    tauto

/-- What a call does in memory is what it does to the store. -/
theorem Call.Spec.ends {c : Call ι α} {p : Ptr α} (hc : c.Spec hdr fuel p s s')
    (h : Represents hdr m s) : ∃ m', Ends (c.run hdr fuel) m p m' ∧ Represents hdr m' s' := by
  cases hc with
  | malloc hx => exact ⟨_, rfl, h.malloc hx _⟩
  | @free s x hx => exact ⟨_, if_pos ((h.allocated x).2 (.inl hx)), h.free hx⟩
  | @insert s i x xs ys hx hi =>
    have hl := h.holds i
    have hfree := h.loose x hx i
    rw [hi] at hl hfree
    obtain ⟨m', hm', hl', hw⟩ := listInsert_holds hl ((h.allocated x).2 (.inl hx)) hfree
    exact ⟨m', hm'.bind (.pure _ _), h.insert hx hi hl' hw⟩
  | @pushFront s i x hx =>
    obtain ⟨m', hm', hl', hw⟩ := listPushFront_holds (h.holds i) ((h.allocated x).2 (.inl hx))
      (h.loose x hx i)
    have hi : s.lists i = [] ++ s.lists i := rfl
    exact ⟨m', hm'.bind (.pure _ _), h.insert hx hi hl' hw⟩
  | @pushBack s i x hx =>
    obtain ⟨m', hm', hl', hw⟩ := listPushBack_holds (h.holds i) ((h.allocated x).2 (.inl hx))
      (h.loose x hx i)
    exact ⟨m', hm'.bind (.pure _ _), h.insert hx (List.append_nil _).symm hl' hw⟩
  | @remove s i x xs ys hi =>
    obtain ⟨m', hm', hl', hw⟩ := listRemove_holds (hi ▸ h.holds i)
    exact ⟨m', hm', h.remove hi hl' hw⟩
  | @popFront s i x xs hi =>
    obtain ⟨m', hm', hl', hw⟩ := listPopFront_holds (hi ▸ h.holds i)
    rw [← List.nil_append (x :: xs)] at hi
    exact ⟨m', hm', h.remove hi hl' hw⟩
  | @popBack s i x xs hi =>
    obtain ⟨m', hm', hl', hw⟩ := listPopBack_holds (hi ▸ h.holds i)
    rw [← List.append_nil xs] at hl' hw ⊢
    exact ⟨m', hm', h.remove (by simpa using hi) hl' hw⟩
  | splice hi hj =>
    obtain ⟨m', hm', h'⟩ := h.splice hi hj
    exact ⟨m', hm'.bind (.pure _ _), h'⟩
  | @spliceEmpty s j p xs ys hj =>
    have hl := h.holds j
    rw [hj] at hl
    exact ⟨m, (listSplice_empty hl p).bind (.pure _ _), h⟩
  | @reverse s i hfuel =>
    obtain ⟨m', hm', hl', hw⟩ := listReverse_holds (h.holds i) hfuel
    exact ⟨m', hm'.bind (.pure _ _), h.setList hl' hw (fun y hy => .inl hy) (by simp) (by
      simpa using fun y hy => h.loose y hy i)⟩

end Steps

/-! ## Sequences of calls -/

section Runs

variable [DecidableEq ι] {hdr : ι → ListHdr α} {fuel : Nat} {m : Memory α}
  {s s' s'' : Store ι α} {calls : List (Call ι α)} {ps : List (Ptr α)}

def runCalls [DecidableEq α] (hdr : ι → ListHdr α) (fuel : Nat) :
    List (Call ι α) → ListM α (List (Ptr α))
  | [] => return []
  | c :: calls => do
    let p ← c.run hdr fuel
    return p :: (← runCalls hdr fuel calls)

/-- Calls one after the other, with what they return. -/
inductive Specs (hdr : ι → ListHdr α) (fuel : Nat) :
    List (Call ι α) → List (Ptr α) → Store ι α → Store ι α → Prop
  | nil {s : Store ι α} : Specs hdr fuel [] [] s s
  | cons {c : Call ι α} {p : Ptr α} {calls : List (Call ι α)} {ps : List (Ptr α)}
      {s s' s'' : Store ι α} (hc : c.Spec hdr fuel p s s') (hcs : Specs hdr fuel calls ps s' s'') :
    Specs hdr fuel (c :: calls) (p :: ps) s s''

theorem Specs.append {calls' : List (Call ι α)} {ps' : List (Ptr α)}
    (h : Specs hdr fuel calls ps s s') (h' : Specs hdr fuel calls' ps' s' s'') :
    Specs hdr fuel (calls ++ calls') (ps ++ ps') s s'' := by
  induction h with
  | nil => exact h'
  | cons hc _ ih => exact .cons hc (ih h')

variable [DecidableEq α]

theorem Specs.ends (hcs : Specs hdr fuel calls ps s s') (h : Represents hdr m s) :
    ∃ m', Ends (runCalls hdr fuel calls) m ps m' ∧ Represents hdr m' s' := by
  induction hcs generalizing m with
  | nil => exact ⟨m, .pure _ _, h⟩
  | cons hc hcs ih =>
    obtain ⟨m₁, hm₁, h₁⟩ := hc.ends h
    obtain ⟨m', hm', h'⟩ := ih h₁
    exact ⟨m', hm₁.bind (hm'.bind (.pure _ _)), h'⟩

/-- Any calls that the store allows run without a fault and leave the lists that they stand for. -/
theorem list_calls_run (hcs : Specs hdr fuel calls ps s s') (h : Represents hdr m s) :
    ∃ m', runCalls hdr fuel calls m = .ok (ps, m') ∧ Represents hdr m' s' :=
  hcs.ends h

end Runs

/-- Two empty lists. -/
def emptyLists : Memory Nat
  | 0 => some ⟨none, some 1⟩
  | 1 => some ⟨some 0, none⟩
  | 2 => some ⟨none, some 3⟩
  | 3 => some ⟨some 2, none⟩
  | _ => none

def twoHdrs (i : Bool) : ListHdr Nat :=
  if i then ⟨0, 1⟩ else ⟨2, 3⟩

theorem represents_emptyLists :
    Represents twoHdrs emptyLists ⟨fun _ => [], ∅⟩ := by
  refine ⟨fun i => ?_, fun i j hij => ?_, by simp, fun x => ?_⟩
  · cases i <;> exact ⟨by decide, by simp [Chain, Linked, emptyLists, twoHdrs], ⟨_, rfl⟩, ⟨_, rfl⟩⟩
  · cases i <;> cases j <;> simp_all [twoHdrs]
  · match x with
    | 0 | 1 | 2 | 3 => simp [emptyLists, twoHdrs]
    | x + 4 => simp [emptyLists, twoHdrs]

theorem list_calls_run_two :
    ∃ s m', runCalls twoHdrs 3 [.malloc 10 ⟨none, none⟩, .pushBack true 10, .malloc 11 ⟨none, none⟩,
        .pushFront true 11, .splice (some 3) (some 11) (some 1), .reverse false, .popFront false]
        emptyLists = .ok ([some 10, none, some 11, none, none, none, some 10], m') ∧
      Represents twoHdrs m' s ∧ s.lists true = [] ∧ s.lists false = [11] := by
  have hspecs := Specs.cons
    (@Call.Spec.malloc Bool Nat twoHdrs 3 _ ⟨fun _ => [], ∅⟩ 10 ⟨none, none⟩
      ⟨by simp, by simp [twoHdrs]⟩)
    (.cons (@Call.Spec.pushBack Bool Nat twoHdrs 3 _ _ true 10 (by simp))
    (.cons (@Call.Spec.malloc Bool Nat twoHdrs 3 _ _ 11 ⟨none, none⟩
      ⟨by simp, by simp [twoHdrs, Store.setList]⟩)
    (.cons (@Call.Spec.pushFront Bool Nat twoHdrs 3 _ _ true 11 (by simp))
    (.cons (@Call.Spec.splice Bool Nat twoHdrs 3 _ _ true false 11 [] [] [10] [] [] rfl rfl)
    (.cons (@Call.Spec.reverse Bool Nat twoHdrs 3 _ _ false (by decide))
    (.cons (@Call.Spec.popFront Bool Nat twoHdrs 3 _ _ false 10 [11] rfl) .nil))))))
  obtain ⟨m', hm', h'⟩ := list_calls_run hspecs represents_emptyLists
  exact ⟨_, m', hm', h', rfl, rfl⟩

end Cush.LinkedList
