import Cush.Ast.Memory
import Cush.LinkedList.Verify.Operations
import Mathlib.Data.List.Perm.Subperm

/-!
# What blocks and lists there are

Assertions about a part of the memory, and what the calls that command lines are made with do to it:
`malloc` adds a block, `free` takes away what it has found there, and a function of `list.c` leaves
all but the nodes of its list alone.
-/

namespace Cush.AstMemory

open LinkedList Separation Assertion Program LinkHeap

/-- A part of the memory. -/
abbrev Part := Assertion Place Cell

/-- On a memory with a part that is as `P` says the program `c` ends without a fault, and makes of
that part what `Q` says. -/
abbrev Spec {β : Type} (P : Part) (c : AstM β) (Q : β → Part) : Prop :=
  Triple Memory.heap (fun _ : Fault => False) P c Q

/-! ## Parts with links -/

section Links

variable {W W' : List Place} {Φ Ψ : LinkedList.Memory Place → Prop} {h h₁ h₂ : Heap Place Cell}
  {p : Place}

/-- The places `W`, all of them list elements or headers, with links as `Φ` says. -/
def linked (W : List Place) (Φ : LinkedList.Memory Place → Prop) : Part :=
  fun h => Φ (links h) ∧ (∀ p ∈ W, ∃ n, h p = some (.link n)) ∧ ∀ p ∉ W, h p = none

/-- What `Φ` says depends on the links of `W` only. -/
def Local (W : List Place) (Φ : LinkedList.Memory Place → Prop) : Prop :=
  ∀ m m' : LinkedList.Memory Place, (∀ p ∈ W, m' p = m p) → Φ m → Φ m'

theorem mem_linked : h ∈ linked W Φ ↔
    Φ (links h) ∧ (∀ p ∈ W, ∃ n, h p = some (.link n)) ∧ ∀ p ∉ W, h p = none :=
  Iff.rfl

theorem local_true : Local W fun _ => True :=
  fun _ _ _ _ => trivial

theorem local_holds (l : ListHdr Place) (xs : List Place) :
    Local (l.nodes xs) fun m => Holds m l xs :=
  fun _ _ he h => h.congr he

theorem links_eq {n : LinkNode Place} (hp : h p = some (.link n)) : links h p = some n := by
  simp [links, hp]

theorem links_join_left (hp : h₁ p ≠ none) : links (h₁.join h₂) p = links h₁ p := by
  obtain ⟨c, hc⟩ := Option.ne_none_iff_exists'.1 hp
  simp [links, Heap.join, hc]

theorem links_join_right (hp : h₁ p = none) : links (h₁.join h₂) p = links h₂ p := by
  simp [links, Heap.join, hp]

theorem linked_congr (hW : ∀ p, p ∈ W ↔ p ∈ W') (hΦ : ∀ m, Φ m → Ψ m) :
    linked W Φ ≤ linked W' Ψ := by
  rintro h ⟨hm, hin, hout⟩
  exact ⟨hΦ _ hm, fun p hp => hin p ((hW p).2 hp), fun p hp => hout p fun h => hp ((hW p).1 h)⟩

theorem linked_mul_le (hΦ : Local W Φ) (hΨ : Local W' Ψ) :
    linked W Φ * linked W' Ψ ≤
      linked (W ++ W') fun m => (∀ p ∈ W, p ∉ W') ∧ Φ m ∧ Ψ m := by
  rintro _ ⟨h₁, h₂, ha, rfl, ⟨hΦ₁, hin₁, hout₁⟩, hΨ₂, hin₂, hout₂⟩
  have hdis : ∀ p ∈ W, p ∉ W' := by
    intro p hp hp'
    obtain ⟨n, hn⟩ := hin₁ p hp
    obtain ⟨n', hn'⟩ := hin₂ p hp'
    rw [ha.right hn] at hn'
    cases hn'
  refine ⟨⟨hdis, hΦ _ _ (fun p hp => ?_) hΦ₁, hΨ _ _ (fun p hp => ?_) hΨ₂⟩, fun p hp => ?_,
    fun p hp => ?_⟩
  · obtain ⟨n, hn⟩ := hin₁ p hp
    exact links_join_left (by simp [hn])
  · exact links_join_right (hout₁ p fun hp' => hdis p hp' hp)
  · by_cases hp₁ : p ∈ W
    · obtain ⟨n, hn⟩ := hin₁ p hp₁
      exact ⟨n, Heap.join_left hn⟩
    · obtain ⟨n, hn⟩ := hin₂ p ((List.mem_append.1 hp).resolve_left hp₁)
      exact ⟨n, (Heap.join_right (hout₁ p hp₁)).trans hn⟩
  · rw [List.mem_append, not_or] at hp
    rw [Heap.join_right (hout₁ p hp.1), hout₂ p hp.2]

theorem le_linked_mul (hΦ : Local W Φ) (hΨ : Local W' Ψ) :
    (linked (W ++ W') fun m => (∀ p ∈ W, p ∉ W') ∧ Φ m ∧ Ψ m) ≤ linked W Φ * linked W' Ψ := by
  rintro h ⟨⟨hdis, hΦm, hΨm⟩, hin, hout⟩
  refine ⟨fun p => if p ∈ W then h p else none, fun p => if p ∈ W then none else h p,
    fun p => ?_, funext fun p => ?_, ⟨hΦ _ _ (fun p hp => ?_) hΦm, fun p hp => ?_, fun p hp => ?_⟩,
    hΨ _ _ (fun p hp => ?_) hΨm, fun p hp => ?_, fun p hp => ?_⟩
  · by_cases hp : p ∈ W <;> simp [hp]
  · by_cases hp : p ∈ W <;> simp [hp, Heap.join]
  · simp [links, hp]
  · simpa [hp] using hin p (List.mem_append_left _ hp)
  · simp [hp]
  · have hp' : p ∉ W := fun hp' => hdis p hp' hp
    simp [links, hp']
  · have hp' : p ∉ W := fun hp' => hdis p hp' hp
    simpa [hp'] using hin p (List.mem_append_right _ hp)
  · by_cases hp' : p ∈ W
    · simp [hp']
    · simpa [hp'] using hout p (by simp [hp, hp'])

theorem relink_links : relink h (links h) = h := by
  funext p
  simp only [relink, links]
  cases hp : h p with
  | none => rfl
  | some c => cases c <;> rfl

/-- A call of a function of `list.c` changes the links that it is about, and leaves the rest. -/
theorem onLists_spec {β : Type} {x : ListM Place β} {Ψ : β → LinkedList.Memory Place → Prop}
    (hΦ : Local W Φ) (hΨ : ∀ v, Local W (Ψ v))
    (hx : ∀ m, Φ m → (∀ p ∈ W, (m p).isSome) →
      ∃ v m', Ends x m v m' ∧ Ψ v m' ∧ Within W m m') :
    Spec (linked W Φ) (onLists x) fun v => linked W (Ψ v) := by
  rintro F s ⟨h, f, ha, hs, ⟨hm, hin, hout⟩, hF⟩
  have hlinks : ∀ p ∈ W, links s.heap p = links h p := by
    intro p hp
    obtain ⟨n, hn⟩ := hin p hp
    rw [hs]
    exact links_join_left (by simp [hn])
  have hsome : ∀ p ∈ W, (links s.heap p).isSome := by
    intro p hp
    obtain ⟨n, hn⟩ := hin p hp
    rw [hlinks p hp, links_eq hn]
    rfl
  obtain ⟨v, m', hend, hΨm, hw⟩ := hx _ (hΦ _ _ hlinks hm) hsome
  have hnew : ∀ p ∈ W, ∃ n, m' p = some n ∧ relink s.heap m' p = some (.link n) := by
    intro p hp
    obtain ⟨n, hn⟩ := hin p hp
    obtain ⟨n', hn'⟩ := Option.isSome_iff_exists.1 ((hw.allocated p).trans (hsome p hp))
    exact ⟨n', hn', by simp [relink, hs, Heap.join_left hn, hn']⟩
  have hold : ∀ p ∉ W, relink s.heap m' p = f p := by
    intro p hp
    have hjoin : s.heap p = f p := by
      rw [hs, Heap.join_right (hout p hp)]
    have hm' : m' p = links s.heap p := hw.outside p hp
    have hre : relink s.heap m' p = relink s.heap (links s.heap) p := by
      simp only [relink, hm']
    rw [hre, relink_links, hjoin]
  unfold onLists
  rw [hend]
  dsimp only
  refine ⟨fun p => if p ∈ W then relink s.heap m' p else none, f, fun p => ?_, funext fun p => ?_,
    ⟨hΨ v _ _ (fun p hp => ?_) hΨm, fun p hp => ?_, fun p hp => ?_⟩, hF⟩
  · by_cases hp : p ∈ W
    · obtain ⟨n, hn⟩ := hin p hp
      exact .inr (ha.right hn)
    · exact .inl (by simp [hp])
  · by_cases hp : p ∈ W
    · obtain ⟨n, -, hn⟩ := hnew p hp
      simp [Heap.join, hp, hn]
    · simp [Heap.join, hp, hold p hp]
  · obtain ⟨n, hn, hn'⟩ := hnew p hp
    simp [links, hp, hn', hn]
  · obtain ⟨n, -, hn⟩ := hnew p hp
    exact ⟨n, by simp [hp, hn]⟩
  · simp [hp]

end Links

/-! ## Elements and lists -/

section Lists

variable {l : ListHdr Place} {x : Place} {xs ys ps : List Place}

/-- A list element or header that is linked in any way. -/
def node (p : Place) : Part :=
  linked [p] fun _ => True

def nodes (ps : List Place) : Part :=
  (ps.map node).prod

/-- The list with the header `l` and the elements `xs`. -/
def list (l : ListHdr Place) (xs : List Place) : Part :=
  linked (l.nodes xs) fun m => Holds m l xs

@[simp] theorem nodes_nil : nodes [] = 1 :=
  rfl

@[simp] theorem nodes_cons (p : Place) (ps : List Place) : nodes (p :: ps) = node p * nodes ps :=
  List.prod_cons

theorem linked_nil : linked [] (fun _ => True) = 1 := by
  ext h
  rw [mem_linked, mem_one]
  constructor
  · rintro ⟨-, -, hout⟩
    exact funext fun p => hout p List.not_mem_nil
  · rintro rfl
    exact ⟨trivial, by simp, fun _ _ => rfl⟩

theorem linked_le_nodes {Φ : LinkedList.Memory Place → Prop} (hn : ps.Nodup) :
    linked ps Φ ≤ nodes ps := by
  induction ps generalizing Φ with
  | nil =>
    rw [nodes_nil, ← linked_nil]
    exact linked_congr (fun _ => Iff.rfl) fun _ _ => trivial
  | cons p ps ih =>
    obtain ⟨hp, hn⟩ := List.nodup_cons.1 hn
    have hsplit : linked (p :: ps) Φ ≤ linked [p] (fun _ => True) * linked ps fun _ => True :=
      (linked_congr (by simp) fun _ _ => ⟨by simpa using hp, trivial, trivial⟩).trans
        (le_linked_mul local_true local_true)
    rw [nodes_cons]
    exact hsplit.trans (mul_le_mul_right (ih hn) _)

theorem list_le_nodes : list l xs ≤ nodes (l.nodes xs) := fun _ h =>
  linked_le_nodes h.1.nodup h

theorem nodes_le_linked : nodes ps ≤ linked ps fun _ => ps.Nodup := by
  induction ps with
  | nil => exact linked_nil.ge.trans (linked_congr (fun _ => Iff.rfl) fun _ _ => List.nodup_nil)
  | cons p ps ih =>
    have hjoin : node p * linked ps (fun _ => ps.Nodup) ≤ _ :=
      linked_mul_le local_true fun _ _ _ h => h
    rw [nodes_cons]
    refine (mul_le_mul_right ih _).trans (hjoin.trans (linked_congr (by simp) fun m h => ?_))
    exact List.nodup_cons.2 ⟨h.1 p (by simp), h.2.2⟩

theorem listInit_spec :
    Spec (nodes [l.head, l.tail]) (onLists (listInit l)) fun _ => list l [] := by
  have hinit : Spec (linked [l.head, l.tail] fun _ => [l.head, l.tail].Nodup) (onLists (listInit l))
      fun _ => linked [l.head, l.tail] fun m => Holds m l [] := by
    refine onLists_spec (fun _ _ _ h => h) (fun _ => local_holds l []) fun m hne hs => ?_
    obtain ⟨m', hm', hl, hw⟩ := listInit_holds (hs l.head (by simp)) (hs l.tail (by simp))
      (by simpa using hne)
    exact ⟨(), m', hm', hl, hw⟩
  exact hinit.conseq nodes_le_linked fun _ => le_rfl

theorem list_mul_node_le : list l xs * node x ≤
    linked (l.nodes (xs ++ [x])) fun m => x ∉ l.nodes xs ∧ Holds m l xs := by
  refine (linked_mul_le (local_holds l xs) local_true).trans
    (linked_congr (fun p => ?_) fun m h => ?_)
  · simp
    tauto
  · exact ⟨fun hx => h.1 x hx (by simp), h.2.1⟩

theorem listPushBack_spec :
    Spec (list l xs * node x) (onLists (listPushBack l (some x))) fun _ => list l (xs ++ [x]) := by
  have hpush : Spec (linked (l.nodes (xs ++ [x])) fun m => x ∉ l.nodes xs ∧ Holds m l xs)
      (onLists (listPushBack l (some x))) fun _ => list l (xs ++ [x]) := by
    refine onLists_spec (fun m m' he h => ⟨h.1, h.2.congr fun p hp => he p ?_⟩)
      (fun _ => local_holds l _) fun m hm hs => ?_
    · simp at hp ⊢
      tauto
    · obtain ⟨m', hm', hl, hw⟩ := listPushBack_holds hm.2 (hs x (by simp)) hm.1
      exact ⟨(), m', hm', hl, hw⟩
  exact hpush.conseq list_mul_node_le fun _ => le_rfl

theorem listRemove_spec (xs : List Place) :
    Spec (list l (xs ++ x :: ys)) (onLists (listRemove (some x))) fun e =>
      fact (e = l.place ys) * (list l (xs ++ ys) * node x) := by
  have hremove : Spec (list l (xs ++ x :: ys)) (onLists (listRemove (some x))) fun e =>
      linked (l.nodes (xs ++ x :: ys)) fun m =>
        e = l.place ys ∧ (l.nodes (xs ++ x :: ys)).Nodup ∧ Holds m l (xs ++ ys) := by
    refine onLists_spec (local_holds l _) (fun _ m m' he h => ⟨h.1, h.2.1, h.2.2.congr fun p hp =>
      he p ?_⟩) fun m hm hs => ?_
    · simp at hp ⊢
      tauto
    · obtain ⟨m', hm', hl, hw⟩ := listRemove_holds hm
      refine ⟨_, m', hm', ⟨rfl, hm.nodup, hl⟩, hw.mono fun p hp => ?_⟩
      simp at hp ⊢
      tauto
  refine hremove.conseq le_rfl fun e h hh => ?_
  obtain ⟨⟨he, hn, hl⟩, hin, hout⟩ := hh
  refine mem_fact_mul.2 ⟨he, le_iff.1 (le_linked_mul (local_holds l _) local_true) h
    ⟨⟨?_, hl, trivial⟩, ?_, ?_⟩⟩
  · intro p hp hp'
    obtain rfl := List.mem_singleton.1 hp'
    simp at hn hp
    grind
  · intro p hp
    refine hin p ?_
    simp at hp ⊢
    tauto
  · intro p hp
    refine hout p ?_
    simp at hp ⊢
    tauto

/-- A call that reads the links of a list. -/
theorem listRead_spec {β : Type} {x : ListM Place β} {v : β}
    (hx : ∀ m, Holds m l xs → Ends x m v m) :
    Spec (list l xs) (onLists x) fun r => fact (r = v) * list l xs := by
  have hread : Spec (list l xs) (onLists x) fun r =>
      linked (l.nodes xs) fun m => r = v ∧ Holds m l xs :=
    onLists_spec (local_holds l xs) (fun _ m m' he h => ⟨h.1, h.2.congr he⟩)
      fun m hm _ => ⟨v, m, hx m hm, ⟨rfl, hm⟩, .refl _ _⟩
  exact hread.conseq le_rfl fun r h hh => mem_fact_mul.2 ⟨hh.1.1, hh.1.2, hh.2⟩

theorem listEntry_spec {a : Address} :
    Spec 1 (listEntry (some (.elem a))) fun r => fact (r = a) * 1 :=
  .pure (le_fact_mul rfl le_rfl)

end Lists

/-! ## Blocks -/

section Blocks

variable {a : Address} {b b' : Block} {h : Heap Place Cell} {P : Part} {as : List Address}

/-- The block at `a`, without its members. -/
def blockAt (a : Address) (b : Block) : Part :=
  cell (.block a) (.block b)

theorem getBlock_spec {β : Type} {kind : Block → Option β} {v : β} (hb : kind b = some v) :
    Spec (blockAt a b) (getBlock kind (some a)) fun r => fact (r = v) * blockAt a b := by
  intro F s hs
  simp only [getBlock, cell_mul_get hs, hb]
  rw [mul_assoc]
  exact mem_fact_mul.2 ⟨trivial, hs⟩

theorem setBlock_spec : Spec (blockAt a b) (setBlock (some a) b') fun _ => blockAt a b' := by
  intro F s hs
  have hne : s.heap (.block a) ≠ none := by simp [cell_mul_get hs]
  simp only [setBlock, hne, ne_eq, not_false_eq_true, dif_pos]
  exact cell_mul_set hs _

theorem nodup_members : (b.members a).Nodup := by
  cases b <;> simp [Block.members]

theorem block_notMem_members : Place.block a ∉ b.members a := by
  cases b <;> simp [Block.members]

theorem malloc_spec (alloc : Allocator) :
    Spec 1 (malloc alloc b) fun a => blockAt a b * nodes (b.members a) := by
  intro F s hs
  rw [one_mul] at hs
  simp only [malloc]
  have hfresh := fun p (hp : p.address = alloc.place s) => alloc.fresh s p hp
  generalize alloc.place s = a at hfresh
  have hmem : ∀ p ∈ b.members a, s.heap p = none := fun p hp =>
    hfresh p (Block.address_of_mem_members hp)
  have hblock : s.heap (.block a) = none := hfresh _ rfl
  have hmembers : linked (b.members a) (fun _ => True) ≤ nodes (b.members a) :=
    linked_le_nodes nodup_members
  refine ⟨fun p => if p = .block a ∨ p ∈ b.members a then
    addBlock (alloc.links s) s.heap a b p else none, s.heap, fun p => ?_, funext fun p => ?_, ?_,
    hs⟩
  · by_cases hp : p = .block a ∨ p ∈ b.members a
    · exact .inr (hp.elim (fun h => h ▸ hblock) (hmem p))
    · exact .inl (if_neg hp)
  · by_cases hp : p = .block a <;> by_cases hp' : p ∈ b.members a <;>
      simp [hp, hp', Heap.join, addBlock]
  · refine ⟨fun p => if p = .block a then some (.block b) else none,
      fun p => if p ∈ b.members a then some (.link (alloc.links s p)) else none, fun p => ?_,
      funext fun p => ?_, ⟨by simp, fun p hp => by simp [hp]⟩,
      hmembers ⟨trivial, fun p hp => ⟨_, if_pos hp⟩, fun p hp => if_neg hp⟩⟩
    · by_cases hp : p = .block a
      · subst hp
        exact .inr (if_neg block_notMem_members)
      · exact .inl (if_neg hp)
    · by_cases hp : p = .block a <;> by_cases hp' : p ∈ b.members a <;>
        simp [hp, hp', Heap.join, addBlock]

theorem free_spec : Spec (blockAt a b * nodes (b.members a)) (free (some a)) fun _ => 1 := by
  intro F s hs
  have hget : s.heap (.block a) = some (.block b) := by
    rw [mul_assoc] at hs
    exact cell_mul_get hs
  obtain ⟨_, f, ha, hheap, ⟨h₁, h₂, -, rfl, ⟨hone, hno⟩, hnodes⟩, hF⟩ := hs
  obtain ⟨-, hin, hout⟩ := nodes_le_linked hnodes
  simp only [free, hget]
  rw [one_mul]
  -- the places that are taken away are those of the block
  have hrest : removeBlock s.heap a b = f := by
    funext p
    by_cases hp : p = .block a ∨ p ∈ b.members a
    · rw [removeBlock, if_pos hp]
      rcases hp with rfl | hp
      · exact (ha.right (Heap.join_left hone)).symm
      · obtain ⟨n, hn⟩ := hin p hp
        have hne : p ≠ .block a := fun he => block_notMem_members (he ▸ hp)
        exact (ha.right ((Heap.join_right (hno p hne)).trans hn)).symm
    · rw [removeBlock, if_neg hp, hheap]
      rw [not_or] at hp
      exact Heap.join_right ((Heap.join_right (hno p hp.1)).trans (hout p hp.2))
  rwa [hrest]

theorem free_null_spec : Spec 1 (free none) fun _ => 1 := fun _ _ hs =>
  hs

/-- The addresses `as` are those of different blocks. -/
def live (as : List Address) : Part :=
  fun h => as.Nodup ∧ ∀ a ∈ as, h (.block a) ≠ none

theorem live_mul_le (as : List Address) (P : Part) : live as * P ≤ live as := by
  rintro _ ⟨h₁, h₂, -, rfl, ⟨hn, hl⟩, -⟩
  refine ⟨hn, fun a ha => ?_⟩
  obtain ⟨c, hc⟩ := Option.ne_none_iff_exists'.1 (hl a ha)
  simp [Heap.join_left hc]

theorem blockAt_le_live : blockAt a b ≤ live [a] := by
  rintro h ⟨hone, -⟩
  refine ⟨List.nodup_singleton a, fun a' ha' => ?_⟩
  rw [List.mem_singleton.1 ha', hone]
  exact Option.some_ne_none _

theorem live_mul_live : live [a] * live as ≤ live (a :: as) := by
  rintro _ ⟨h₁, h₂, ha, rfl, ⟨-, hone⟩, hn, hl⟩
  obtain ⟨c, hc⟩ := Option.ne_none_iff_exists'.1 (hone a (List.mem_singleton_self a))
  refine ⟨List.nodup_cons.2 ⟨fun hmem => hl a hmem (ha.right hc), hn⟩, fun a' ha' => ?_⟩
  rcases List.mem_cons.1 ha' with rfl | ha'
  · simp [Heap.join_left hc]
  · rcases ha (.block a') with h₁' | h₂'
    · rw [Heap.join_right h₁']
      exact hl a' ha'
    · exact absurd h₂' (hl a' ha')

theorem rounds_spec (hP : P ≤ live as) :
    Spec P rounds fun n => fact (as.length < n) * P := by
  rintro F s hs
  have hlive := live_mul_le as F (mul_le_mul_left hP F hs)
  have hlen : as.length ≤ s.returned.length :=
    (List.subperm_of_subset hlive.1 fun a ha => s.known (.block a) (hlive.2 a ha)).length_le
  simp only [rounds]
  rw [mul_assoc]
  exact mem_fact_mul.2 ⟨Nat.lt_succ_of_le hlen, hs⟩

/-- Things with blocks of their own. -/
theorem each_le_live {β : Type} {A : Address → β → Part} {vs : List β}
    (hA : ∀ a v, A a v ≤ live [a]) : each A as vs ≤ live as := by
  induction as generalizing vs with
  | nil =>
    cases vs with
    | nil => exact fun h _ => ⟨List.nodup_nil, by simp⟩
    | cons v vs => exact bot_le
  | cons a as ih =>
    cases vs with
    | nil => exact bot_le
    | cons v vs => exact (mul_le_mul' (hA a v) ih).trans live_mul_live

end Blocks

end Cush.AstMemory
