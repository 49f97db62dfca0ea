import Cush.LinkedList.Elem
import Cush.Lib.Program

/-!
# What the operations on a list do

Each operation, started in a memory that holds a list, ends without a fault, and the memory then
holds the list that the operation stands for; nothing but the links of the nodes involved has
changed. Positions are given by what stands behind them: `list.place ys` is the pointer to the
element in front of which `list_insert` would put something, with `ys` following.
-/

namespace Cush.LinkedList

open LinkHeap Program

variable {α : Type} {m m' : Memory α} {list list' : ListHdr α} {a b c l p f x y : α}
  {n : LinkNode α} {q : Ptr α} {xs ys zs xs' ys' : List α}

/-! ## Lists in memory -/

/-- The header elements and the elements of a list. -/
abbrev ListHdr.nodes (list : ListHdr α) (xs : List α) : List α :=
  list.head :: xs ++ [list.tail]

/-- The pointer to what follows an element of `list` that has `ys` behind it. -/
abbrev ListHdr.place (list : ListHdr α) (ys : List α) : Ptr α :=
  some (after ys list.tail)

/-- `list` holds the elements `xs`. -/
abbrev Holds (m : Memory α) (list : ListHdr α) (xs : List α) : Prop :=
  m.IsDList list.head list.tail xs

theorem place_eq_end (h : Holds m list (xs ++ ys)) : list.place ys = listEnd list ↔ ys = [] := by
  cases ys with
  | nil => simp [listEnd]
  | cons y ys =>
    have hne : y ≠ list.tail := by
      rintro rfl
      exact h.tail_notMem (by simp)
    simp [listEnd, hne]

theorem place_ne (h : Holds m list (xs ++ y :: (ys ++ zs))) : some y ≠ list.place zs := by
  intro he
  have hmem : y ∈ zs ++ [list.tail] := Option.some.inj he ▸ after_mem_concat zs list.tail
  rcases List.mem_append.1 hmem with hmem | hmem
  · have hn := (List.nodup_append.1 h.nodup_elements).2.1
    exact (List.nodup_cons.1 hn).1 (List.mem_append_right ys hmem)
  · refine h.tail_notMem ?_
    rw [← List.mem_singleton.1 hmem]
    simp

/-! ## Reads and writes -/

theorem load_ends (h : m a = some n) : Ends (load (some a)) m n m := by
  simp only [Ends, load, h]

theorem assert_ends {b : Bool} (h : b = true) : Ends (assert b) m () m := by
  subst h
  rfl

theorem getPrev_ends (h : m a = some n) : Ends (getPrev (some a)) m n.prev m :=
  (load_ends h).bind (.pure _ _)

theorem getNext_ends (h : m a = some n) : Ends (getNext (some a)) m n.next m :=
  (load_ends h).bind (.pure _ _)

theorem isHead_ends (h : m a = some n) :
    Ends (isHead (some a)) m (n.prev.isNone && n.next.isSome) m :=
  .ite_neg (by simp) ((load_ends h).bind (.pure _ _))

theorem isInterior_ends (h : m a = some n) :
    Ends (isInterior (some a)) m (n.prev.isSome && n.next.isSome) m :=
  .ite_neg (by simp) ((load_ends h).bind (.pure _ _))

theorem isTail_ends (h : m a = some n) :
    Ends (isTail (some a)) m (n.prev.isSome && n.next.isNone) m :=
  .ite_neg (by simp) ((load_ends h).bind (.pure _ _))

theorem listBegin_ends (h : Holds m list xs) : Ends (listBegin list) m (list.place xs) m :=
  getNext_ends h.head_node

theorem listNext_ends (h : Holds m list (xs ++ y :: ys)) :
    Ends (listNext (some y)) m (list.place ys) m := by
  refine (isHead_ends h.node).bind ?_
  refine (isInterior_ends h.node).bind ?_
  refine (assert_ends rfl).bind ?_
  exact getNext_ends h.node

theorem listPrev_ends (h : Holds m list (xs ++ ys)) :
    Ends (listPrev (list.place ys)) m (some (before list.head xs)) m := by
  obtain ⟨q, hq⟩ := h.after_node
  refine (isInterior_ends hq).bind ?_
  refine (isTail_ends hq).bind ?_
  refine (assert_ends (by cases q <;> rfl)).bind ?_
  exact getPrev_ends hq

theorem listPrev_cons (h : Holds m list (xs ++ x :: ys)) :
    Ends (listPrev (list.place ys)) m (some x) m := by
  rw [List.append_cons] at h
  have hprev := listPrev_ends h
  rwa [before_concat] at hprev

variable [DecidableEq α]

theorem listEmpty_ends (h : Holds m list xs) : Ends (listEmpty list) m xs.isEmpty m := by
  refine (listBegin_ends h).bind ?_
  have hend : decide (list.place xs = listEnd list) = xs.isEmpty := by
    rw [Bool.eq_iff_iff, decide_eq_true_iff, List.isEmpty_iff]
    exact place_eq_end h.nil_append
  rw [← hend]
  exact .pure _ _

theorem setPrev_ends (p : Ptr α) (h : (m a).isSome) :
    Ends (setPrev (some a) p) m () (LinkHeap.setPrev m a p) := by
  simp only [Ends, setPrev, store, h, if_true]
  rfl

theorem setNext_ends (p : Ptr α) (h : (m a).isSome) :
    Ends (setNext (some a) p) m () (LinkHeap.setNext m a p) := by
  simp only [Ends, setNext, store, h, if_true]
  rfl

theorem listInit_holds (hh : (m list.head).isSome) (ht : (m list.tail).isSome)
    (hne : list.head ≠ list.tail) :
    ∃ m', Ends (listInit list) m () m' ∧ Holds m' list [] ∧ Within (list.nodes []) m m' := by
  obtain ⟨nh, hnh⟩ := Option.isSome_iff_exists.1 hh
  obtain ⟨nt, hnt⟩ := Option.isSome_iff_exists.1 ht
  have hhead : (((m.setPrev list.head none).setNext list.head (some list.tail)).setPrev list.tail
      (some list.head)).setNext list.tail none list.head = some ⟨none, some list.tail⟩ := by
    rw [setNext_ne _ hne, setPrev_ne _ hne, setNext_self _ (setPrev_self _ hnh)]
  have htail : (((m.setPrev list.head none).setNext list.head (some list.tail)).setPrev list.tail
      (some list.head)).setNext list.tail none list.tail = some ⟨some list.head, none⟩ := by
    refine setNext_self _ (setPrev_self _ (n := nt) ?_)
    rw [setNext_ne _ hne.symm, setPrev_ne _ hne.symm, hnt]
  refine ⟨_, ?_, ⟨by simpa using hne, ?_, ⟨_, hhead⟩, ⟨_, htail⟩⟩, fun x hx => ?_, by simp⟩
  · refine (setPrev_ends _ hh).bind ?_
    refine (setNext_ends _ (by simpa using hh)).bind ?_
    refine (setPrev_ends _ (by simpa using ht)).bind ?_
    exact setNext_ends _ (by simpa using ht)
  · exact List.isChain_pair.2 ⟨_, _, hhead, rfl, htail, rfl⟩
  · simp at hx
    rw [setNext_ne _ hx.2, setPrev_ne _ hx.2, setNext_ne _ hx.1, setPrev_ne _ hx.1]

/-! ## Insertion -/

theorem listInsert_ends (hb : m b = some ⟨some a, q⟩) (ha : (m a).isSome) (hx : (m x).isSome)
    (hxa : x ≠ a) (hxb : x ≠ b) :
    Ends (listInsert (some b) (some x)) m () ((m.link a x).link x b) := by
  -- the links of `elem` are set before the link of the element in front of it
  have hcomm : (m.link a x).link x b =
      (((m.setPrev x (some a)).setNext x (some b)).setNext a (some x)).setPrev b (some x) := by
    unfold link LinkHeap.setPrev LinkHeap.setNext
    rw [modify_comm (a := a) _ _ hxa.symm, modify_comm (a := a) _ _ hxa.symm]
  rw [hcomm]
  refine (isInterior_ends hb).bind ?_
  refine (isTail_ends hb).bind ?_
  refine (assert_ends (by cases q <;> rfl)).bind ?_
  refine (assert_ends rfl).bind ?_
  refine (getPrev_ends hb).bind ?_
  refine (setPrev_ends _ hx).bind ?_
  refine (setNext_ends _ (by simpa using hx)).bind ?_
  refine (getPrev_ends (n := ⟨some a, q⟩) ?_).bind ?_
  · rw [setNext_ne _ hxb.symm, setPrev_ne _ hxb.symm, hb]
  refine (setNext_ends _ (by simpa using ha)).bind ?_
  exact setPrev_ends _ (by simp [hb])

theorem listInsert_holds (h : Holds m list (xs ++ ys)) (hx : (m x).isSome)
    (hfree : x ∉ list.nodes (xs ++ ys)) :
    ∃ m', Ends (listInsert (list.place ys) (some x)) m () m' ∧ Holds m' list (xs ++ x :: ys) ∧
      Within (list.nodes (xs ++ x :: ys)) m m' := by
  have hbefore := before_mem list.head xs ys list.tail
  have hafter := after_mem list.head xs ys list.tail
  have hsub : ∀ y ∈ list.nodes (xs ++ ys), y ∈ list.nodes (xs ++ x :: ys) := by
    simp
    tauto
  obtain ⟨q, hq⟩ := h.after_node
  have hchain : m.Chain [x] := .singleton x
  have hinsert := h.insert hchain (List.nodup_singleton x) (List.forall_mem_singleton.2 hx)
    (List.forall_mem_singleton.2 hfree)
  rw [before_nil, List.append_assoc] at hinsert
  refine ⟨_, listInsert_ends hq (h.isSome _ hbefore) hx ?_ ?_, hinsert,
    (Within.link (hsub _ hbefore) (by simp)).trans (.link (by simp) (hsub _ hafter))⟩
  · exact (ne_of_mem_of_not_mem hbefore hfree).symm
  · exact (ne_of_mem_of_not_mem hafter hfree).symm

theorem listPushFront_holds (h : Holds m list xs) (hx : (m x).isSome) (hfree : x ∉ list.nodes xs) :
    ∃ m', Ends (listPushFront list (some x)) m () m' ∧ Holds m' list (x :: xs) ∧
      Within (list.nodes (x :: xs)) m m' := by
  obtain ⟨m', hm', hl, hw⟩ := listInsert_holds h.nil_append hx hfree
  exact ⟨m', (listBegin_ends h).bind hm', hl, hw⟩

theorem listPushBack_holds (h : Holds m list xs) (hx : (m x).isSome) (hfree : x ∉ list.nodes xs) :
    ∃ m', Ends (listPushBack list (some x)) m () m' ∧ Holds m' list (xs ++ [x]) ∧
      Within (list.nodes (xs ++ [x])) m m' := by
  rw [← List.append_nil xs] at h hfree
  exact listInsert_holds h hx hfree

/-! ## Removal -/

theorem listRemove_ends (hx : m x = some ⟨some a, some b⟩) (ha : (m a).isSome) (hb : (m b).isSome)
    (hxa : x ≠ a) (hxb : x ≠ b) : Ends (listRemove (some x)) m (some b) (m.link a b) := by
  refine (isInterior_ends hx).bind ?_
  refine (assert_ends rfl).bind ?_
  refine (getPrev_ends hx).bind ?_
  refine (getNext_ends hx).bind ?_
  refine (setNext_ends _ ha).bind ?_
  have hx' : m.setNext a (some b) x = some ⟨some a, some b⟩ := by
    rw [setNext_ne _ hxa, hx]
  refine (getNext_ends hx').bind ?_
  refine (getPrev_ends hx').bind ?_
  refine (setPrev_ends _ (by simpa using hb)).bind ?_
  refine getNext_ends (n := ⟨some a, some b⟩) ?_
  rw [setPrev_ne _ hxb, hx']

theorem listRemove_holds (h : Holds m list (xs ++ x :: ys)) :
    ∃ m', Ends (listRemove (some x)) m (list.place ys) m' ∧ Holds m' list (xs ++ ys) ∧
      Within (list.nodes (xs ++ ys)) m m' := by
  have hbefore := before_mem list.head xs ys list.tail
  have hafter := after_mem list.head xs ys list.tail
  have hseg : Holds m list (xs ++ [x] ++ ys) := by
    rwa [← List.append_cons]
  have hfree := hseg.segment_notMem x (List.mem_singleton_self x)
  have hsub : ∀ y ∈ list.nodes (xs ++ ys), y ∈ list.nodes (xs ++ x :: ys) := by
    simp
    tauto
  refine ⟨_, listRemove_ends h.node (h.isSome _ (hsub _ hbefore)) (h.isSome _ (hsub _ hafter))
    ?_ ?_, hseg.cut.1, .link hbefore hafter⟩
  · exact (ne_of_mem_of_not_mem hbefore hfree).symm
  · exact (ne_of_mem_of_not_mem hafter hfree).symm

theorem listFront_ends (h : Holds m list (x :: xs)) : Ends (listFront list) m (some x) m := by
  refine (listEmpty_ends h).bind ?_
  refine (assert_ends rfl).bind ?_
  exact getNext_ends h.head_node

theorem listBack_ends (h : Holds m list (xs ++ [x])) : Ends (listBack list) m (some x) m := by
  refine (listEmpty_ends h).bind ?_
  refine (assert_ends (by simp)).bind ?_
  have hback := getPrev_ends h.tail_node
  rwa [before_concat] at hback

theorem listPopFront_holds (h : Holds m list (x :: xs)) :
    ∃ m', Ends (listPopFront list) m (some x) m' ∧ Holds m' list xs ∧
      Within (list.nodes xs) m m' := by
  obtain ⟨m', hm', hl, hw⟩ := listRemove_holds h.nil_append
  exact ⟨m', (listFront_ends h).bind (hm'.bind (.pure _ _)), hl, hw⟩

theorem listPopBack_holds (h : Holds m list (xs ++ [x])) :
    ∃ m', Ends (listPopBack list) m (some x) m' ∧ Holds m' list xs ∧
      Within (list.nodes xs) m m' := by
  obtain ⟨m', hm', hl, hw⟩ := listRemove_holds h
  rw [List.append_nil] at hl hw
  exact ⟨m', (listBack_ends h).bind (hm'.bind (.pure _ _)), hl, hw⟩

/-! ## Splicing -/

theorem listSpliceNe_ends {last : Ptr α} {pl nc : α} (hlast : Ends (listPrev last) m (some l) m)
    (hc : m c = some ⟨some p, some nc⟩) (hl : m l = some ⟨some pl, some f⟩)
    (hb : m.link p f b = some ⟨some a, q⟩) (hp : (m p).isSome) (hf : (m f).isSome)
    (ha : (m a).isSome) (hcp : c ≠ p) (hlp : l ≠ p) (hca : c ≠ a) (hla : l ≠ a) (hcb : c ≠ b)
    (hlb : l ≠ b) :
    Ends (listSpliceNe (some b) (some c) last) m () (((m.link p f).link a c).link l b) := by
  -- the outer links of the range are set before the links around the place that it goes to
  have hcomm (m : Memory α) : (m.link a c).link l b =
      (((m.setPrev c (some a)).setNext l (some b)).setNext a (some c)).setPrev b (some l) := by
    unfold link LinkHeap.setPrev LinkHeap.setNext
    rw [modify_comm (a := a) _ _ hca.symm, modify_comm (a := a) _ _ hla.symm]
  rw [hcomm]
  refine hlast.bind ?_
  refine (isInterior_ends hc).bind ?_
  refine (assert_ends rfl).bind ?_
  refine (isInterior_ends hl).bind ?_
  refine (assert_ends rfl).bind ?_
  refine (getPrev_ends hc).bind ?_
  refine (getNext_ends hl).bind ?_
  refine (setNext_ends _ hp).bind ?_
  refine (getNext_ends (n := ⟨some pl, some f⟩) (by rw [setNext_ne _ hlp, hl])).bind ?_
  refine (getPrev_ends (n := ⟨some p, some nc⟩) (by rw [setNext_ne _ hcp, hc])).bind ?_
  refine (setPrev_ends (m := m.setNext p (some f)) _ (by simpa using hf)).bind ?_
  refine (getPrev_ends hb).bind ?_
  refine (setPrev_ends (m := m.link p f) _ (by simp [isSome_link, hc])).bind ?_
  refine (setNext_ends _ (by simp [isSome_link, hl])).bind ?_
  refine (getPrev_ends (n := ⟨some a, q⟩) ?_).bind ?_
  · rw [setNext_ne _ hlb.symm, setPrev_ne _ hcb.symm, hb]
  refine (setNext_ends _ (by simpa [isSome_link] using ha)).bind ?_
  exact setPrev_ends _ (by simp [hb])

/-- A range that is taken out of a list and put into the list that another place is in, or the same
place is in once the range is out. -/
theorem listSplice_range (h : Holds m list (xs ++ c :: zs ++ ys))
    (hb : ∃ a q, m (after ys' list'.tail) = some ⟨some a, q⟩)
    (h' : Holds (m.link (before list.head xs) (after ys list.tail)) list' (xs' ++ ys'))
    (hfree : ∀ x ∈ c :: zs, x ∉ list'.nodes (xs' ++ ys')) :
    ∃ m', Ends (listSplice (list'.place ys') (some c) (list.place ys)) m () m' ∧
      Holds m' list' (xs' ++ c :: zs ++ ys') ∧
      Within (list'.nodes (xs' ++ c :: zs ++ ys'))
        (m.link (before list.head xs) (after ys list.tail)) m' := by
  have hbefore := before_mem list.head xs ys list.tail
  have hafter := after_mem list.head xs ys list.tail
  have hbefore' := before_mem list'.head xs' ys' list'.tail
  have hafter' := after_mem list'.head xs' ys' list'.tail
  obtain ⟨as, has⟩ := cons_eq_concat c zs
  have hc : c ∈ c :: zs := List.mem_cons_self
  have hl : before c zs ∈ c :: zs := by
    rw [has]
    simp
  have hseg := h.segment_notMem
  have hfirst : Holds m list (xs ++ c :: (zs ++ ys)) := by
    simpa using h
  have hlast : Holds m list (xs ++ as ++ before c zs :: ys) := by
    have h := h
    rw [has] at h
    simpa using h
  have hsub : ∀ x ∈ list.nodes (xs ++ ys), x ∈ list.nodes (xs ++ c :: zs ++ ys) := by
    simp
    tauto
  have hsub' : ∀ x ∈ list'.nodes (xs' ++ ys'), x ∈ list'.nodes (xs' ++ c :: zs ++ ys') := by
    simp
    tauto
  have hsegsub : ∀ x ∈ c :: zs, x ∈ list'.nodes (xs' ++ c :: zs ++ ys') := by
    simp
    tauto
  obtain ⟨a, q, hbq⟩ := hb
  obtain ⟨q', hq'⟩ := h'.after_node
  have hnodup : (c :: zs).Nodup :=
    (List.nodup_append.1 (List.nodup_append.1 h.nodup_elements).1).2.1
  refine ⟨_, ?_, h'.insert h.cut.2 hnodup ?_ hfree,
    (Within.link (hsub' _ hbefore') (hsegsub c hc)).trans (.link (hsegsub _ hl) (hsub' _ hafter'))⟩
  · refine (isInterior_ends hbq).bind ?_
    refine (isTail_ends hbq).bind ?_
    refine (assert_ends (by cases q <;> rfl)).bind ?_
    refine .ite_neg ?_ ?_
    · rintro he
      exact hseg c hc (Option.some.inj he ▸ hafter)
    · refine listSpliceNe_ends (listPrev_cons hlast) hfirst.node hlast.node hq' ?_ ?_ ?_ ?_ ?_ ?_
        ?_ ?_ ?_
      · exact h.isSome _ (hsub _ hbefore)
      · exact h.isSome _ (hsub _ hafter)
      · rw [← isSome_link]
        exact h'.isSome _ hbefore'
      · exact (ne_of_mem_of_not_mem hbefore (hseg c hc)).symm
      · exact (ne_of_mem_of_not_mem hbefore (hseg _ hl)).symm
      · exact (ne_of_mem_of_not_mem hbefore' (hfree c hc)).symm
      · exact (ne_of_mem_of_not_mem hbefore' (hfree _ hl)).symm
      · exact (ne_of_mem_of_not_mem hafter' (hfree c hc)).symm
      · exact (ne_of_mem_of_not_mem hafter' (hfree _ hl)).symm
  · intro x hx
    rw [isSome_link]
    refine h.isSome x ?_
    simp_all

/-- A range is moved to another place of its list, given by how the other elements are divided. -/
theorem listSplice_same (h : Holds m list (xs ++ c :: zs ++ ys)) (hrest : xs ++ ys = xs' ++ ys') :
    ∃ m', Ends (listSplice (list.place ys') (some c) (list.place ys)) m () m' ∧
      Holds m' list (xs' ++ c :: zs ++ ys') ∧
      Within (list.nodes (xs' ++ c :: zs ++ ys')) m m' := by
  have hsub : ∀ x ∈ list.nodes (xs ++ ys), x ∈ list.nodes (xs' ++ c :: zs ++ ys') := by
    rw [hrest]
    simp
    tauto
  have hb : ∃ a q, m (after ys' list.tail) = some ⟨some a, q⟩ := by
    have hmem : after ys' list.tail ∈ xs' ++ ys' ++ [list.tail] := by
      rw [List.append_assoc]
      exact List.mem_append_right _ (after_mem_concat ys' list.tail)
    rw [← hrest] at hmem
    refine h.prev_of_mem ?_
    simp at hmem ⊢
    tauto
  have hfree : ∀ x ∈ c :: zs, x ∉ list.nodes (xs' ++ ys') := by
    rw [← hrest]
    exact h.segment_notMem
  have hcut := h.cut.1
  rw [hrest] at hcut
  obtain ⟨m', hends, hl, hw⟩ := listSplice_range h hb hcut hfree
  exact ⟨m', hends, hl, (Within.link (hsub _ (before_mem _ _ _ _))
    (hsub _ (after_mem _ _ _ _))).trans hw⟩

/-- An empty range, wherever it is. -/
theorem listSplice_empty (h : Holds m list (xs ++ ys)) (p : Ptr α) :
    Ends (listSplice (list.place ys) p p) m () m := by
  obtain ⟨q, hq⟩ := h.after_node
  refine (isInterior_ends hq).bind ?_
  refine (isTail_ends hq).bind ?_
  refine (assert_ends (by cases q <;> rfl)).bind ?_
  exact .ite_pos rfl (.pure _ _)

/-! ## Reversal -/

theorem swapLinks_ends (h : m a = some n) :
    Ends (swapLinks (some a)) m () (m.modify a LinkNode.swap) := by
  have hwrites : m.modify a LinkNode.swap = (m.setPrev a n.next).setNext a n.prev := by
    funext y
    by_cases hy : y = a
    · subst hy
      rw [modify_self, setNext_self _ (setPrev_self _ h), h]
      rfl
    · rw [modify_ne _ hy, setNext_ne _ hy, setPrev_ne _ hy]
  rw [hwrites]
  refine (getPrev_ends h).bind ?_
  refine (getNext_ends h).bind ?_
  refine (setPrev_ends _ (by simp [h])).bind ?_
  exact setNext_ends _ (by simp [h])

/-- The loop runs over the elements whose links it has not exchanged yet. -/
theorem reverseLoop_ends {fuel : Nat} (h : Holds m list (xs ++ ys)) (he : ∀ y ∈ ys, m' y = m y)
    (hfuel : ys.length < fuel) :
    Ends (reverseLoop list fuel (list.place ys)) m' () (m'.swapAll ys) := by
  induction ys generalizing xs m' fuel with
  | nil =>
    obtain ⟨fuel, rfl⟩ := Nat.exists_eq_add_of_lt hfuel
    exact .ite_pos rfl (.pure _ _)
  | cons y ys ih =>
    cases fuel with
    | zero => exact absurd hfuel (Nat.not_lt_zero _)
    | succ fuel =>
      have hy : m' y = some ⟨some (before list.head xs), some (after ys list.tail)⟩ := by
        rw [he y List.mem_cons_self, h.node]
      refine .ite_neg (fun hend => nomatch (place_eq_end h).1 hend) ?_
      refine (swapLinks_ends hy).bind ?_
      have hswap : m'.modify y LinkNode.swap y =
          some ⟨some (after ys list.tail), some (before list.head xs)⟩ := by
        rw [modify_self, hy]
        rfl
      refine (getPrev_ends hswap).bind ?_
      have hyys : y ∉ ys := (List.nodup_cons.1 (List.nodup_append.1 h.nodup_elements).2.1).1
      rw [List.append_cons] at h
      refine ih h (fun z hz => ?_) (Nat.lt_of_succ_lt_succ hfuel)
      have hzy : z ≠ y := ne_of_mem_of_not_mem hz hyys
      rw [modify_ne _ hzy, he z (List.mem_cons_of_mem _ hz)]

/-- At the end of `list_reverse`, whose loop has exchanged the links of all elements. -/
theorem reverseEnds_ends {pl pr : Ptr α} (hhead : m list.head = some ⟨none, some a⟩)
    (htail : m list.tail = some ⟨some b, none⟩) (ha : m a = some ⟨pl, some list.head⟩)
    (hb : m b = some ⟨some list.tail, pr⟩) (hne : list.head ≠ list.tail) (hah : a ≠ list.head)
    (hat : a ≠ list.tail) (hbh : b ≠ list.head) (hbt : b ≠ list.tail) :
    Ends (reverseEnds list) m () ((m.link list.head b).link a list.tail) := by
  have hcomm : (m.link list.head b).link a list.tail =
      (((m.setNext list.head (some b)).setPrev list.tail (some a)).setPrev b
        (some list.head)).setNext a (some list.tail) := by
    unfold link LinkHeap.setPrev LinkHeap.setNext
    rw [modify_comm (a := list.tail) _ _ hbt.symm, modify_comm (a := list.tail) _ _ hat.symm]
  rw [hcomm]
  refine (getNext_ends hhead).bind ?_
  refine (getPrev_ends htail).bind ?_
  refine (setNext_ends _ (by simp [hhead])).bind ?_
  refine (setPrev_ends _ (by simp [htail])).bind ?_
  refine (getNext_ends (n := ⟨none, some b⟩) ?_).bind ?_
  · rw [setPrev_ne _ hne, setNext_self _ hhead]
  refine (getPrev_ends (n := ⟨some a, none⟩) ?_).bind ?_
  · exact setPrev_self (n := ⟨some b, none⟩) _ (by rw [setNext_ne _ hne.symm, htail])
  refine (getPrev_ends (n := ⟨some list.tail, pr⟩) ?_).bind ?_
  · rw [setPrev_ne _ hbt, setNext_ne _ hbh, hb]
  refine (getNext_ends (n := ⟨pl, some list.head⟩) ?_).bind ?_
  · rw [setPrev_ne _ hat, setNext_ne _ hah, ha]
  refine (setPrev_ends _ (by simp [hb])).bind ?_
  exact setNext_ends _ (by simp [ha])

theorem listReverse_holds {fuel : Nat} (h : Holds m list xs) (hfuel : xs.length < fuel) :
    ∃ m', Ends (listReverse fuel list) m () m' ∧ Holds m' list xs.reverse ∧
      Within (list.nodes xs) m m' := by
  rcases List.eq_nil_or_concat xs with rfl | ⟨ys, b, rfl⟩
  · exact ⟨m, (listEmpty_ends h).bind (.pure _ _), h, .refl _ _⟩
  · rw [List.concat_eq_append] at h hfuel ⊢
    obtain ⟨as, has⟩ := cons_eq_concat b ys.reverse
    have hxs : ys ++ [b] = before b ys.reverse :: as.reverse := by
      rw [← List.reverse_inj, List.reverse_concat, has]
      simp
    have ha : before b ys.reverse ∈ ys ++ [b] := hxs ▸ List.mem_cons_self
    have hb : b ∈ ys ++ [b] := by simp
    have hfirst : m (before b ys.reverse) =
        some ⟨some list.head, some (after as.reverse list.tail)⟩ := by
      rw [hxs] at h
      exact h.nil_append.node
    have hlast : m b = some ⟨some (before list.head ys), some list.tail⟩ := h.node
    have hswapFirst : m.swapAll (ys ++ [b]) (before b ys.reverse) =
        some ⟨some (after as.reverse list.tail), some list.head⟩ := by
      rw [swapAll_of_mem ha h.nodup_elements, hfirst]
      rfl
    have hswapLast : m.swapAll (ys ++ [b]) b =
        some ⟨some list.tail, some (before list.head ys)⟩ := by
      rw [swapAll_of_mem hb h.nodup_elements, hlast]
      rfl
    have hhead := h.head_node
    have htail := h.tail_node
    rw [hxs, after_cons] at hhead
    rw [before_concat] at htail
    refine ⟨_, ?_, h.reverse, ?_⟩
    · refine (listEmpty_ends h).bind ?_
      refine .ite_pos (by simp) ?_
      refine (listBegin_ends h).bind ?_
      refine (reverseLoop_ends h.nil_append (fun _ _ => rfl) hfuel).bind ?_
      refine reverseEnds_ends ?_ ?_ hswapFirst hswapLast h.head_ne_tail ?_ ?_ ?_ ?_
      · rw [swapAll_of_notMem h.head_notMem, hhead]
      · rw [swapAll_of_notMem h.tail_notMem, htail]
      · exact ne_of_mem_of_not_mem ha h.head_notMem
      · exact ne_of_mem_of_not_mem ha h.tail_notMem
      · exact ne_of_mem_of_not_mem hb h.head_notMem
      · exact ne_of_mem_of_not_mem hb h.tail_notMem
    · have hswap : Within (list.nodes (ys ++ [b])) m (m.swapAll (ys ++ [b])) :=
        ⟨fun x hx => swapAll_of_notMem fun hmem => hx (by simp_all), isSome_swapAll⟩
      refine hswap.trans ((Within.link (by simp) (by simp)).trans (.link ?_ (by simp)))
      exact List.mem_append_left _ (List.mem_cons_of_mem _ ha)

end Cush.LinkedList
