import Mathlib.Data.List.Chain
import Mathlib.Data.List.Nodup

/-!
# Doubly linked lists in a heap

A heap of nodes with two links each, over an arbitrary type of addresses; an address without a node
is not allocated. A list between two sentinels is a chain of nodes that point at each other, so that
every operation comes to a few calls of `link`, which makes two nodes neighbours: taking a segment
out links the nodes around it (`IsDList.cut`), and putting one in links its ends to the nodes around
the place (`IsDList.paste`). What is not among the nodes of a list does not matter to it
(`IsDList.congr`), which is what keeps lists of one heap apart.
-/

structure LinkNode (α : Type) where
  prev : Option α
  next : Option α
  deriving Repr, DecidableEq

/-- The same node with its links exchanged. -/
def LinkNode.swap {α : Type} (n : LinkNode α) : LinkNode α :=
  ⟨n.next, n.prev⟩

abbrev LinkHeap (α : Type) := α → Option (LinkNode α)

namespace LinkHeap

variable {α : Type} {m m' : LinkHeap α} {a b c x y hd tl : α} {n : LinkNode α}
  {xs ys zs : List α}

/-! ## Neighbours and chains -/

/-- The nodes `a` and `b` point at each other. -/
def Linked (m : LinkHeap α) (a b : α) : Prop :=
  ∃ na nb, m a = some na ∧ na.next = some b ∧ m b = some nb ∧ nb.prev = some a

theorem Linked.congr (h : m.Linked x y) (hx : m' x = m x) (hy : m' y = m y) : m'.Linked x y := by
  obtain ⟨nx, ny, hnx, hn, hny, hp⟩ := h
  exact ⟨nx, ny, hx.trans hnx, hn, hy.trans hny, hp⟩

abbrev Chain (m : LinkHeap α) (xs : List α) : Prop :=
  xs.IsChain m.Linked

theorem Chain.isSome (h : m.Chain xs) (hlen : 1 < xs.length) : ∀ x ∈ xs, (m x).isSome := by
  induction xs with
  | nil => exact fun x hx => nomatch hx
  | cons c xs ih =>
    cases xs with
    | nil => exact absurd hlen (by simp)
    | cons d xs =>
      obtain ⟨⟨nc, nd, hc, -, hd, -⟩, hrest⟩ := List.isChain_cons_cons.1 h
      intro x hx
      rcases List.mem_cons.1 hx with rfl | hx
      · rw [hc]
        rfl
      · by_cases hlen : 1 < (d :: xs).length
        · exact ih hrest hlen x hx
        · obtain rfl : xs = [] := List.eq_nil_of_length_eq_zero (by simpa using hlen)
          rw [List.mem_singleton.1 hx, hd]
          rfl

theorem Chain.congr (h : m.Chain xs) (he : ∀ x ∈ xs, m' x = m x) : m'.Chain xs := by
  induction xs with
  | nil => exact .nil
  | cons c xs ih =>
    cases xs with
    | nil => exact .singleton _
    | cons d xs =>
      obtain ⟨hcd, hrest⟩ := List.isChain_cons_cons.1 h
      refine List.isChain_cons_cons.2 ⟨?_, ih hrest fun x hx => he x (List.mem_cons_of_mem _ hx)⟩
      exact hcd.congr (he c List.mem_cons_self)
        (he d (List.mem_cons_of_mem _ List.mem_cons_self))

/-- A chain is turned around by exchanging the links of each of its nodes. -/
theorem Chain.reverse (h : m.Chain xs) (he : ∀ x ∈ xs, m' x = (m x).map LinkNode.swap) :
    m'.Chain xs.reverse := by
  rw [Chain, List.isChain_reverse]
  induction xs with
  | nil => exact .nil
  | cons c xs ih =>
    cases xs with
    | nil => exact .singleton _
    | cons d xs =>
      obtain ⟨⟨nc, nd, hc, hcd, hd, hdc⟩, hrest⟩ := List.isChain_cons_cons.1 h
      refine List.isChain_cons_cons.2 ⟨⟨nd.swap, nc.swap, ?_, hdc, ?_, hcd⟩,
        ih hrest fun x hx => he x (List.mem_cons_of_mem _ hx)⟩
      · rw [he d (by simp), hd]
        rfl
      · rw [he c (by simp), hc]
        rfl

/-! ## Lists between two sentinels -/

/-- The node before what follows `xs`, in a list that starts after `hd`. -/
def before (hd : α) (xs : List α) : α :=
  xs.getLastD hd

/-- The node after what precedes `xs`, in a list that ends before `tl`. -/
def after (xs : List α) (tl : α) : α :=
  xs.headD tl

@[simp] theorem before_nil (hd : α) : before hd [] = hd :=
  rfl

@[simp] theorem before_concat (hd : α) (xs : List α) (x : α) : before hd (xs ++ [x]) = x :=
  List.getLastD_concat

@[simp] theorem after_nil (tl : α) : after [] tl = tl :=
  rfl

@[simp] theorem after_cons (x : α) (xs : List α) (tl : α) : after (x :: xs) tl = x :=
  rfl

theorem cons_eq_concat (hd : α) (xs : List α) : ∃ as, hd :: xs = as ++ [before hd xs] := by
  rcases List.eq_nil_or_concat xs with rfl | ⟨ys, y, rfl⟩
  · exact ⟨[], rfl⟩
  · exact ⟨hd :: ys, by rw [List.concat_eq_append, before_concat]; rfl⟩

theorem concat_eq_cons (xs : List α) (tl : α) : ∃ bs, xs ++ [tl] = after xs tl :: bs := by
  cases xs with
  | nil => exact ⟨[], rfl⟩
  | cons x xs => exact ⟨xs ++ [tl], rfl⟩

theorem before_mem (hd : α) (xs ys : List α) (tl : α) :
    before hd xs ∈ hd :: (xs ++ ys) ++ [tl] := by
  obtain ⟨as, has⟩ := cons_eq_concat hd xs
  have hmem : before hd xs ∈ hd :: xs := by
    rw [has]
    exact List.mem_append_right _ (List.mem_singleton_self _)
  exact List.mem_append_left _ (List.mem_append_left ys hmem)

theorem after_mem_concat (ys : List α) (tl : α) : after ys tl ∈ ys ++ [tl] := by
  obtain ⟨bs, hbs⟩ := concat_eq_cons ys tl
  rw [hbs]
  exact List.mem_cons_self

theorem after_mem (hd : α) (xs ys : List α) (tl : α) :
    after ys tl ∈ hd :: (xs ++ ys) ++ [tl] := by
  rw [List.cons_append, List.append_assoc]
  exact List.mem_cons_of_mem _ (List.mem_append_right _ (after_mem_concat ys tl))

/-- The nodes of a list, between the sentinels `hd` and `tl`. -/
structure IsDList (m : LinkHeap α) (hd tl : α) (xs : List α) : Prop where
  nodup : (hd :: xs ++ [tl]).Nodup
  chain : m.Chain (hd :: xs ++ [tl])
  first : ∃ p, m hd = some ⟨none, p⟩
  last : ∃ p, m tl = some ⟨p, none⟩

theorem IsDList.nodup_elements (h : m.IsDList hd tl xs) : xs.Nodup :=
  (List.nodup_cons.1 (List.nodup_append.1 h.nodup).1).2

theorem IsDList.head_notMem (h : m.IsDList hd tl xs) : hd ∉ xs :=
  (List.nodup_cons.1 (List.nodup_append.1 h.nodup).1).1

theorem IsDList.tail_notMem (h : m.IsDList hd tl xs) : tl ∉ xs := fun hmem =>
  (List.nodup_append.1 h.nodup).2.2 tl (List.mem_cons_of_mem _ hmem) tl
    (List.mem_singleton_self tl) rfl

theorem IsDList.head_ne_tail (h : m.IsDList hd tl xs) : hd ≠ tl :=
  (List.nodup_append.1 h.nodup).2.2 hd List.mem_cons_self tl (List.mem_singleton_self tl)

theorem IsDList.linked (h : m.IsDList hd tl (xs ++ ys)) :
    m.Linked (before hd xs) (after ys tl) := by
  obtain ⟨as, has⟩ := cons_eq_concat hd xs
  obtain ⟨bs, hbs⟩ := concat_eq_cons ys tl
  have hsplit : hd :: (xs ++ ys) ++ [tl] = as ++ before hd xs :: after ys tl :: bs := by
    rw [← List.cons_append, List.append_assoc, has, hbs, List.append_assoc]
    rfl
  have hc := h.chain
  rw [hsplit] at hc
  exact (List.isChain_append_cons_cons.1 hc).2.1

/-- A node of the list, between its neighbours. -/
theorem IsDList.node (h : m.IsDList hd tl (xs ++ x :: ys)) :
    m x = some ⟨some (before hd xs), some (after ys tl)⟩ := by
  obtain ⟨-, n, -, -, hn, hp⟩ := h.linked
  rw [List.append_cons] at h
  obtain ⟨n', -, hn', hx, -, -⟩ := h.linked
  rw [before_concat] at hn'
  rw [after_cons] at hn
  cases hn.symm.trans hn'
  rw [hn, ← hp, ← hx]

theorem IsDList.head_node (h : m.IsDList hd tl xs) : m hd = some ⟨none, some (after xs tl)⟩ := by
  obtain ⟨p, hp⟩ := h.first
  rw [← List.nil_append xs] at h
  obtain ⟨n, -, hn, hx, -, -⟩ := h.linked
  rw [before_nil, hp] at hn
  cases hn
  rw [hp, ← hx]

theorem IsDList.tail_node (h : m.IsDList hd tl xs) : m tl = some ⟨some (before hd xs), none⟩ := by
  obtain ⟨p, hp⟩ := h.last
  rw [← List.append_nil xs] at h
  obtain ⟨-, n, -, -, hn, hx⟩ := h.linked
  rw [after_nil, hp] at hn
  cases hn
  rw [hp, ← hx]

/-- The node at a place of the list, an element or the tail. -/
theorem IsDList.after_node (h : m.IsDList hd tl (xs ++ ys)) :
    ∃ q, m (after ys tl) = some ⟨some (before hd xs), q⟩ := by
  obtain ⟨-, n, -, -, hn, hp⟩ := h.linked
  exact ⟨n.next, by rw [hn, ← hp]⟩

/-- The nodes of a segment are not among the other nodes. -/
theorem IsDList.segment_notMem (h : m.IsDList hd tl (xs ++ zs ++ ys)) :
    ∀ x ∈ zs, x ∉ hd :: (xs ++ ys) ++ [tl] := by
  have hperm : (hd :: (xs ++ zs ++ ys) ++ [tl]).Perm (zs ++ (hd :: (xs ++ ys) ++ [tl])) := by
    have hswap : (hd :: xs ++ (zs ++ (ys ++ [tl]))).Perm (zs ++ (hd :: xs ++ (ys ++ [tl]))) :=
      List.perm_append_comm_assoc _ _ _
    simpa using hswap
  intro x hx hmem
  exact (List.nodup_append.1 (hperm.nodup_iff.1 h.nodup)).2.2 x hx x hmem rfl

theorem IsDList.prev_of_mem (h : m.IsDList hd tl xs) (hx : x ∈ xs ++ [tl]) :
    ∃ p q, m x = some ⟨some p, q⟩ := by
  rcases List.mem_append.1 hx with hx | hx
  · obtain ⟨as, bs, rfl⟩ := List.append_of_mem hx
    exact ⟨_, _, h.node⟩
  · rw [List.mem_singleton.1 hx]
    exact ⟨_, _, h.tail_node⟩

theorem IsDList.isSome (h : m.IsDList hd tl xs) : ∀ x ∈ hd :: xs ++ [tl], (m x).isSome :=
  h.chain.isSome (by simp)

/-- The elements of a list as those behind its head. -/
theorem IsDList.nil_append (h : m.IsDList hd tl xs) : m.IsDList hd tl ([] ++ xs) :=
  h

theorem IsDList.congr (h : m.IsDList hd tl xs) (he : ∀ x ∈ hd :: xs ++ [tl], m' x = m x) :
    m'.IsDList hd tl xs := by
  refine ⟨h.nodup, h.chain.congr he, ?_, ?_⟩
  · rw [he hd List.mem_cons_self]
    exact h.first
  · rw [he tl (List.mem_append_right _ (List.mem_singleton_self tl))]
    exact h.last

/-- The heap `m'` has the nodes of `m`, with other links in those of `zs` at most. -/
structure Within (zs : List α) (m m' : LinkHeap α) : Prop where
  outside : ∀ x ∉ zs, m' x = m x
  allocated : ∀ x, (m' x).isSome = (m x).isSome

theorem Within.refl (zs : List α) (m : LinkHeap α) : Within zs m m :=
  ⟨fun _ _ => rfl, fun _ => rfl⟩

theorem Within.trans {m'' : LinkHeap α} (h : Within zs m m') (h' : Within zs m' m'') :
    Within zs m m'' :=
  ⟨fun x hx => (h'.outside x hx).trans (h.outside x hx),
    fun x => (h'.allocated x).trans (h.allocated x)⟩

theorem Within.mono (h : Within zs m m') (hsub : ∀ x ∈ zs, x ∈ ys) : Within ys m m' :=
  ⟨fun x hx => h.outside x fun hmem => hx (hsub x hmem), h.allocated⟩

/-- A list that has no node in `zs`. -/
theorem Within.isDList (h : Within zs m m') (hl : m.IsDList hd tl xs)
    (hdis : ∀ x ∈ hd :: xs ++ [tl], x ∉ zs) : m'.IsDList hd tl xs :=
  hl.congr fun x hx => h.outside x (hdis x hx)

variable [DecidableEq α]

/-! ## Writes -/

def modify (m : LinkHeap α) (a : α) (f : LinkNode α → LinkNode α) : LinkHeap α :=
  fun x => if x = a then (m x).map f else m x

def setPrev (m : LinkHeap α) (a : α) (p : Option α) : LinkHeap α :=
  m.modify a fun n => { n with prev := p }

def setNext (m : LinkHeap α) (a : α) (p : Option α) : LinkHeap α :=
  m.modify a fun n => { n with next := p }

/-- Make `b` the node after `a`. -/
def link (m : LinkHeap α) (a b : α) : LinkHeap α :=
  (m.setNext a (some b)).setPrev b (some a)

theorem modify_self (f : LinkNode α → LinkNode α) : m.modify a f a = (m a).map f :=
  if_pos rfl

theorem modify_ne (f : LinkNode α → LinkNode α) (h : x ≠ a) : m.modify a f x = m x :=
  if_neg h

theorem isSome_modify (f : LinkNode α → LinkNode α) (x : α) :
    (m.modify a f x).isSome = (m x).isSome := by
  unfold modify
  split <;> simp

theorem setPrev_ne (p : Option α) (h : x ≠ a) : m.setPrev a p x = m x :=
  modify_ne _ h

theorem setNext_ne (p : Option α) (h : x ≠ a) : m.setNext a p x = m x :=
  modify_ne _ h

theorem setPrev_self (p : Option α) (h : m a = some n) : m.setPrev a p a = some ⟨p, n.next⟩ := by
  rw [setPrev, modify_self, h]
  rfl

theorem setNext_self (p : Option α) (h : m a = some n) : m.setNext a p a = some ⟨n.prev, p⟩ := by
  rw [setNext, modify_self, h]
  rfl

@[simp] theorem isSome_setPrev (p : Option α) (x : α) : (m.setPrev a p x).isSome = (m x).isSome :=
  isSome_modify _ x

@[simp] theorem isSome_setNext (p : Option α) (x : α) : (m.setNext a p x).isSome = (m x).isSome :=
  isSome_modify _ x

/-- Two writes to different nodes can be exchanged. -/
theorem modify_comm (f g : LinkNode α → LinkNode α) (h : a ≠ b) :
    (m.modify a f).modify b g = (m.modify b g).modify a f := by
  funext x
  unfold modify
  by_cases ha : x = a
  · subst ha
    simp [h]
  · simp [ha]

theorem link_ne (ha : x ≠ a) (hb : x ≠ b) : m.link a b x = m x := by
  unfold link setPrev setNext
  rw [modify_ne _ hb, modify_ne _ ha]

theorem isSome_link (x : α) : (m.link a b x).isSome = (m x).isSome := by
  unfold link setPrev setNext
  rw [isSome_modify, isSome_modify]

theorem Within.link (ha : a ∈ zs) (hb : b ∈ zs) : Within zs m (m.link a b) :=
  ⟨fun _ hx => link_ne (fun he => hx (he ▸ ha)) fun he => hx (he ▸ hb), isSome_link⟩

/-! ## What `link` does -/

theorem linked_link (ha : (m a).isSome) (hb : (m b).isSome) : (m.link a b).Linked a b := by
  obtain ⟨na, hna⟩ := Option.isSome_iff_exists.1 ha
  obtain ⟨nb, hnb⟩ := Option.isSome_iff_exists.1 hb
  unfold link setPrev setNext
  by_cases hab : a = b
  · subst hab
    cases hna.symm.trans hnb
    refine
      ⟨{ prev := some a, next := some a }, { prev := some a, next := some a }, ?_, rfl, ?_, rfl⟩ <;>
      rw [modify_self, modify_self, hna] <;> rfl
  · refine ⟨{ na with next := some b }, { nb with prev := some a }, ?_, rfl, ?_, rfl⟩
    · rw [modify_ne _ hab, modify_self, hna]
      rfl
    · rw [modify_self, modify_ne _ (Ne.symm hab), hnb]
      rfl

/-- `link` leaves alone all neighbours but those of the two nodes on the sides that it sets. -/
theorem Linked.link (h : m.Linked x y) (ha : x ≠ a) (hb : y ≠ b) : (m.link a b).Linked x y := by
  obtain ⟨nx, ny, hx, hnx, hy, hny⟩ := h
  have next : ∃ nx', m.link a b x = some nx' ∧ nx'.next = some y := by
    unfold LinkHeap.link setPrev setNext
    by_cases hxb : x = b
    · subst hxb
      refine ⟨{ nx with prev := some a }, ?_, hnx⟩
      rw [modify_self, modify_ne _ ha, hx]
      rfl
    · refine ⟨nx, ?_, hnx⟩
      rw [modify_ne _ hxb, modify_ne _ ha, hx]
  have prev : ∃ ny', m.link a b y = some ny' ∧ ny'.prev = some x := by
    unfold LinkHeap.link setPrev setNext
    rw [modify_ne _ hb]
    by_cases hya : y = a
    · subst hya
      refine ⟨{ ny with next := some b }, ?_, hny⟩
      rw [modify_self, hy]
      rfl
    · refine ⟨ny, ?_, hny⟩
      rw [modify_ne _ hya, hy]
  obtain ⟨nx', hx', hnx'⟩ := next
  obtain ⟨ny', hy', hny'⟩ := prev
  exact ⟨nx', ny', hx', hnx', hy', hny'⟩

/-- A chain in which `a` is not followed by anything and `b` does not follow anything. -/
theorem Chain.link (h : m.Chain xs) (ha : a ∉ xs.dropLast) (hb : b ∉ xs.tail) :
    (m.link a b).Chain xs := by
  induction xs with
  | nil => exact .nil
  | cons c xs ih =>
    cases xs with
    | nil => exact .singleton _
    | cons d xs =>
      obtain ⟨hcd, hrest⟩ := List.isChain_cons_cons.1 h
      rw [List.dropLast_cons_cons, List.mem_cons, not_or] at ha
      rw [List.tail_cons, List.mem_cons, not_or] at hb
      refine List.isChain_cons_cons.2 ⟨hcd.link (Ne.symm ha.1) (Ne.symm hb.1), ?_⟩
      exact ih hrest ha.2 hb.2

theorem Chain.link_of_notMem (h : m.Chain xs) (ha : a ∉ xs) (hb : b ∉ xs) :
    (m.link a b).Chain xs :=
  h.link (fun hmem => ha (List.dropLast_subset _ hmem)) fun hmem => hb (List.mem_of_mem_tail hmem)

/-- Linking the last node of a chain to a node outside. -/
theorem Chain.link_last (h : m.Chain (xs ++ [a])) (hn : (xs ++ [a]).Nodup) (hb : b ∉ xs ++ [a]) :
    (m.link a b).Chain (xs ++ [a]) := by
  refine h.link ?_ fun hmem => hb (List.mem_of_mem_tail hmem)
  rw [List.dropLast_concat]
  exact fun hmem => (List.nodup_append.1 hn).2.2 a hmem a (List.mem_singleton_self a) rfl

/-- Linking a node outside to the first node of a chain. -/
theorem Chain.link_first (h : m.Chain (b :: ys)) (hn : (b :: ys).Nodup) (ha : a ∉ b :: ys) :
    (m.link a b).Chain (b :: ys) :=
  h.link (fun hmem => ha (List.dropLast_subset _ hmem)) (List.nodup_cons.1 hn).1

/-- Two chains are joined by linking the end of one to the start of the other. -/
theorem Chain.join (h : m.Chain (xs ++ [a])) (h' : m.Chain (b :: ys))
    (hn : (xs ++ [a] ++ b :: ys).Nodup) (ha : (m a).isSome) (hb : (m b).isSome) :
    (m.link a b).Chain (xs ++ [a] ++ b :: ys) := by
  obtain ⟨hnl, hnr, hdis⟩ := List.nodup_append.1 hn
  refine List.isChain_append.2 ⟨h.link_last hnl ?_, h'.link_first hnr ?_, ?_⟩
  · exact fun hmem => hdis b hmem b List.mem_cons_self rfl
  · exact fun hmem => hdis a (List.mem_append_right _ (List.mem_singleton_self a)) a hmem rfl
  · intro x hx y hy
    rw [List.getLast?_concat] at hx
    cases hx
    cases hy
    exact linked_link ha hb

theorem link_prev (h : m x = some n) (hb : x ≠ b) :
    ∃ q, m.link a b x = some ⟨n.prev, q⟩ := by
  unfold link setPrev setNext
  rw [modify_ne _ hb]
  by_cases ha : x = a
  · subst ha
    exact ⟨some b, by rw [modify_self, h]; rfl⟩
  · exact ⟨n.next, by rw [modify_ne _ ha, h]⟩

theorem link_next (h : m x = some n) (ha : x ≠ a) :
    ∃ p, m.link a b x = some ⟨p, n.next⟩ := by
  unfold link setPrev setNext
  by_cases hb : x = b
  · subst hb
    exact ⟨some a, by rw [modify_self, modify_ne _ ha, h]; rfl⟩
  · exact ⟨n.prev, by rw [modify_ne _ hb, modify_ne _ ha, h]⟩

/-! ## Cutting and pasting -/

/-- What is left of a list when a segment is passed over. -/
theorem IsDList.cut (h : m.IsDList hd tl (xs ++ zs ++ ys)) :
    (m.link (before hd xs) (after ys tl)).IsDList hd tl (xs ++ ys) ∧
      (m.link (before hd xs) (after ys tl)).Chain zs := by
  obtain ⟨as, has⟩ := cons_eq_concat hd xs
  obtain ⟨bs, hbs⟩ := concat_eq_cons ys tl
  have hsplit : hd :: (xs ++ zs ++ ys) ++ [tl] =
      as ++ [before hd xs] ++ (zs ++ after ys tl :: bs) := by
    rw [← has, ← hbs]
    simp
  have hjoin : hd :: (xs ++ ys) ++ [tl] = as ++ [before hd xs] ++ after ys tl :: bs := by
    rw [← has, ← hbs]
    simp
  have hn := h.nodup
  have hc := h.chain
  rw [hsplit] at hn hc
  obtain ⟨hcl, hcr, -⟩ := List.isChain_append.1 hc
  obtain ⟨hcz, hca, -⟩ := List.isChain_append.1 hcr
  obtain ⟨hnl, hnr, hdl⟩ := List.nodup_append.1 hn
  obtain ⟨hnz, hna, hdr⟩ := List.nodup_append.1 hnr
  have hsome := h.isSome
  rw [hsplit] at hsome
  have hbefore : before hd xs ∈ as ++ [before hd xs] := List.mem_append_right _ (by simp)
  have hafter : after ys tl ∈ zs ++ after ys tl :: bs := List.mem_append_right _ (by simp)
  have hnodup : (as ++ [before hd xs] ++ after ys tl :: bs).Nodup :=
    List.nodup_append.2 ⟨hnl, hna, fun x hx y hy => hdl x hx y (List.mem_append_right _ hy)⟩
  refine ⟨⟨hjoin ▸ hnodup, ?_, ?_, ?_⟩, ?_⟩
  · rw [hjoin]
    exact Chain.join hcl hca hnodup (hsome _ (List.mem_append_left _ hbefore))
      (hsome _ (List.mem_append_right _ hafter))
  · obtain ⟨p, hp⟩ := h.first
    obtain ⟨q, hq⟩ := link_prev (a := before hd xs) (b := after ys tl) hp fun he =>
      hdl hd (has ▸ List.mem_cons_self) _ hafter he
    exact ⟨q, hq⟩
  · obtain ⟨p, hp⟩ := h.last
    obtain ⟨q, hq⟩ := link_next (a := before hd xs) (b := after ys tl) hp fun he =>
      hdl _ hbefore tl (List.mem_append_right _ (hbs ▸ List.mem_append_right _ (by simp))) he.symm
    exact ⟨q, hq⟩
  · exact Chain.link_of_notMem hcz
      (fun hmem => hdl _ hbefore _ (List.mem_append_left _ hmem) rfl)
      fun hmem => hdr _ hmem _ List.mem_cons_self rfl

/-- A segment is put between the two parts of a list, which need not be linked to each other. -/
theorem IsDList.paste (hn : (hd :: (xs ++ c :: zs ++ ys) ++ [tl]).Nodup)
    (hx : m.Chain (hd :: xs)) (hy : m.Chain (ys ++ [tl])) (hz : m.Chain (c :: zs))
    (hsome : ∀ x ∈ hd :: (xs ++ c :: zs ++ ys) ++ [tl], (m x).isSome)
    (hfirst : ∃ p, m hd = some ⟨none, p⟩) (hlast : ∃ p, m tl = some ⟨p, none⟩) :
    ((m.link (before hd xs) c).link (before c zs) (after ys tl)).IsDList hd tl
      (xs ++ c :: zs ++ ys) := by
  obtain ⟨as, has⟩ := cons_eq_concat hd xs
  obtain ⟨bs, hbs⟩ := concat_eq_cons ys tl
  obtain ⟨cs, hcs⟩ := cons_eq_concat c zs
  have hleft : hd :: (xs ++ c :: zs ++ ys) ++ [tl] =
      as ++ [before hd xs] ++ c :: zs ++ after ys tl :: bs := by
    rw [← has, ← hbs]
    simp
  have hright : as ++ [before hd xs] ++ c :: zs ++ after ys tl :: bs =
      as ++ [before hd xs] ++ cs ++ [before c zs] ++ after ys tl :: bs := by
    rw [hcs]
    simp
  rw [hleft] at hn hsome
  rw [has] at hx
  rw [hbs] at hy
  obtain ⟨hnl, hnr, hdis⟩ := List.nodup_append.1 hn
  obtain ⟨-, -, hdl⟩ := List.nodup_append.1 hnl
  have hbefore : before hd xs ∈ as ++ [before hd xs] := List.mem_append_right _ (by simp)
  have hc : c ∈ as ++ [before hd xs] ++ c :: zs := List.mem_append_right _ (by simp)
  have hend : before c zs ∈ as ++ [before hd xs] ++ c :: zs := by
    rw [hcs]
    simp
  have hafter : after ys tl ∈ after ys tl :: bs := List.mem_cons_self
  have hfst : (m.link (before hd xs) c).Chain (as ++ [before hd xs] ++ c :: zs) :=
    hx.join hz hnl (hsome _ (List.mem_append_left _ (List.mem_append_left _ hbefore)))
      (hsome _ (List.mem_append_left _ hc))
  have hsnd : (m.link (before hd xs) c).Chain (after ys tl :: bs) :=
    hy.link_of_notMem (fun hmem => hdis _ (List.mem_append_left _ hbefore) _ hmem rfl)
      fun hmem => hdis _ hc _ hmem rfl
  refine ⟨hleft ▸ hn, ?_, ?_, ?_⟩
  · rw [hleft, hright]
    rw [hcs, ← List.append_assoc] at hfst
    refine hfst.join hsnd (hright ▸ hn) ?_ ?_ <;> rw [isSome_link]
    · exact hsome _ (List.mem_append_left _ hend)
    · exact hsome _ (List.mem_append_right _ hafter)
  · obtain ⟨p, hp⟩ := hfirst
    have hhd : hd ∈ as ++ [before hd xs] := has ▸ List.mem_cons_self
    obtain ⟨q, hq⟩ := link_prev (a := before hd xs) (b := c) hp fun he =>
      hdl hd hhd c List.mem_cons_self he
    exact link_prev hq fun he => hdis hd (List.mem_append_left _ hhd) _ hafter he
  · obtain ⟨p, hp⟩ := hlast
    have htl : tl ∈ after ys tl :: bs := by
      rw [← hbs]
      simp
    obtain ⟨q, hq⟩ := link_next (a := before hd xs) (b := c) hp fun he =>
      hdis _ (List.mem_append_left _ hbefore) tl htl he.symm
    exact link_next hq fun he => hdis _ hend tl htl he.symm

/-- A segment that is in no list is put into one. -/
theorem IsDList.insert (h : m.IsDList hd tl (xs ++ ys)) (hz : m.Chain (c :: zs))
    (hn : (c :: zs).Nodup) (hsome : ∀ x ∈ c :: zs, (m x).isSome)
    (hfree : ∀ x ∈ c :: zs, x ∉ hd :: (xs ++ ys) ++ [tl]) :
    ((m.link (before hd xs) c).link (before c zs) (after ys tl)).IsDList hd tl
      (xs ++ c :: zs ++ ys) := by
  have hsplit : hd :: (xs ++ ys) ++ [tl] = hd :: xs ++ (ys ++ [tl]) := by
    simp
  have hperm : (hd :: (xs ++ c :: zs ++ ys) ++ [tl]).Perm
      (c :: zs ++ (hd :: (xs ++ ys) ++ [tl])) := by
    have hswap : (hd :: xs ++ (c :: zs ++ (ys ++ [tl]))).Perm
        (c :: zs ++ (hd :: xs ++ (ys ++ [tl]))) := List.perm_append_comm_assoc _ _ _
    simpa using hswap
  have hc := h.chain
  rw [hsplit] at hc
  obtain ⟨hcl, hcr, -⟩ := List.isChain_append.1 hc
  refine IsDList.paste (hperm.nodup_iff.2 ?_) hcl hcr hz (fun x hx => ?_) h.first h.last
  · exact List.nodup_append.2 ⟨hn, h.nodup, fun x hx y hy he => hfree x hx (he ▸ hy)⟩
  · rcases List.mem_append.1 (hperm.mem_iff.1 hx) with hx | hx
    · exact hsome x hx
    · exact h.isSome x hx

/-! ## Turning around -/

/-- The links of the nodes of `xs` are exchanged. -/
def swapAll (m : LinkHeap α) (xs : List α) : LinkHeap α :=
  xs.foldl (fun m x => m.modify x LinkNode.swap) m

theorem swapAll_of_notMem (h : x ∉ xs) : m.swapAll xs x = m x := by
  induction xs generalizing m with
  | nil => rfl
  | cons y xs ih =>
    rw [List.mem_cons, not_or] at h
    exact (ih h.2).trans (modify_ne _ h.1)

theorem swapAll_of_mem (h : x ∈ xs) (hn : xs.Nodup) :
    m.swapAll xs x = (m x).map LinkNode.swap := by
  induction xs generalizing m with
  | nil => exact absurd h List.not_mem_nil
  | cons y xs ih =>
    obtain ⟨hy, hn⟩ := List.nodup_cons.1 hn
    rcases List.mem_cons.1 h with rfl | h
    · exact (swapAll_of_notMem hy).trans (modify_self _)
    · rw [← modify_ne (m := m) LinkNode.swap (ne_of_mem_of_not_mem h hy)]
      exact ih h hn

theorem isSome_swapAll (x : α) : (m.swapAll xs x).isSome = (m x).isSome := by
  induction xs generalizing m with
  | nil => rfl
  | cons y xs ih => exact ih.trans (isSome_modify _ x)

/-- A list is turned around by exchanging the links of its elements and linking the ends anew. -/
theorem IsDList.reverse (h : m.IsDList hd tl (xs ++ [b])) :
    (((m.swapAll (xs ++ [b])).link hd b).link (before b xs.reverse) tl).IsDList hd tl
      (xs ++ [b]).reverse := by
  have hchain : m.Chain (xs ++ [b]) := (List.isChain_append.1 h.chain).1.tail
  have hswap : (m.swapAll (xs ++ [b])).Chain (xs ++ [b]).reverse :=
    hchain.reverse fun x hx => swapAll_of_mem hx h.nodup_elements
  rw [List.reverse_concat] at hswap ⊢
  have hperm : (hd :: ([] ++ b :: xs.reverse ++ []) ++ [tl]).Perm (hd :: (xs ++ [b]) ++ [tl]) := by
    refine ((List.Perm.cons hd ?_).append_right [tl])
    rw [List.nil_append, List.append_nil, ← List.reverse_concat]
    exact List.reverse_perm _
  rw [← List.append_nil (b :: xs.reverse)]
  refine IsDList.paste (hperm.nodup_iff.2 h.nodup) (.singleton hd) (.singleton tl) hswap
    (fun x hx => ?_) ?_ ?_
  · rw [isSome_swapAll]
    exact h.isSome x (hperm.mem_iff.1 hx)
  · rw [swapAll_of_notMem h.head_notMem]
    exact h.first
  · rw [swapAll_of_notMem h.tail_notMem]
    exact h.last

end LinkHeap
