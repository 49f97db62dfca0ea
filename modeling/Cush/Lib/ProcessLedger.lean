import Mathlib.Data.List.Basic
import Mathlib.Data.List.Count

/-!
# Accounts of spawned processes

A parent keeps an account for each group of children it spawns: the ids they were given, how many
are believed alive, and the process group. `Ledger` is such a book next to the children there really
are, each of which knows the account that spawned it. An account is opened empty, children are
entered one at a time, a child that is reaped is booked on the first account that has its id, and an
account can be closed.

`Sound` holds however ids are reused: it relates the children of an account to what the account
records. `Balanced` says in addition that a recorded id identifies its account, and that the books
are right about the number of children; it survives the entry of a child whose id no open account
has recorded. `Covered` says that no child is without an account. `Attributed` says that the first
account which has the id of a child is the child's own; this is enough for the books to be right
where ids are reused. `Headed` and `Separate` are about the process groups: an account has that of
its first child, and no other account has a child in it.
-/

namespace ProcessLedger

variable {π : Type}

structure Account (π : Type) where
  serial : Nat
  pids : List π
  alive : Int
  pgid : π

structure Child (π : Type) where
  pid : π
  pgid : π
  owner : Nat

/-- The open accounts by their index, the children that have not been reaped, and the serial number
of the next account. -/
structure Ledger (π : Type) where
  account : Nat → Option (Account π)
  children : List (Child π)
  next : Nat

namespace Ledger

variable (L : Ledger π)

def put (i : Nat) (a : Option (Account π)) : Nat → Option (Account π) :=
  fun j => if j = i then a else L.account j

/-- Open an account. -/
def openAccount (i : Nat) (none : π) : Ledger π :=
  { L with account := L.put i (some ⟨L.next, [], 0, none⟩), next := L.next + 1 }

/-- The process group of the next child of an account: that of its first one. -/
def groupFor (a : Account π) (pid : π) : π :=
  if a.pids.isEmpty then pid else a.pgid

/-- Enter a new child. -/
def enter (i : Nat) (a : Account π) (pid : π) : Ledger π :=
  { L with
    account := L.put i (some ⟨a.serial, a.pids ++ [pid], a.alive + 1, groupFor a pid⟩)
    children := L.children ++ [⟨pid, groupFor a pid, a.serial⟩] }

/-- Take the child with an id off the list. -/
def drop [DecidableEq π] (pid : π) : List (Child π) :=
  L.children.filter fun c => c.pid ≠ pid

/-- Book the end of a child on an account. -/
def book [DecidableEq π] (i : Nat) (a : Account π) (pid : π) : Ledger π :=
  { L with account := L.put i (some { a with alive := a.alive - 1 }), children := L.drop pid }

def closeAccount (i : Nat) : Ledger π :=
  { L with account := L.put i none }

/-- The number of children of an account that have not been reaped. -/
def unreaped (serial : Nat) : Nat :=
  L.children.countP fun c => c.owner = serial

/-- The relation between the children and their accounts, whatever ids are reused. -/
structure Sound : Prop where
  serial_lt : ∀ {i a}, L.account i = some a → a.serial < L.next
  serial_inj : ∀ {i j a b}, L.account i = some a → L.account j = some b →
    a.serial = b.serial → i = j
  owner_lt : ∀ c ∈ L.children, c.owner < L.next
  nodup : (L.children.map Child.pid).Nodup
  recorded : ∀ {i a}, ∀ c ∈ L.children, L.account i = some a → a.serial = c.owner →
    c.pid ∈ a.pids ∧ c.pgid = a.pgid

/-- The books are right. -/
structure Balanced : Prop where
  disjoint : ∀ {i j a b pid}, L.account i = some a → L.account j = some b → pid ∈ a.pids →
    pid ∈ b.pids → i = j
  owned : ∀ {i a}, ∀ c ∈ L.children, L.account i = some a → c.pid ∈ a.pids → a.serial = c.owner
  alive : ∀ {i a}, L.account i = some a → a.alive = L.unreaped a.serial

/-- The accounts know how many of their children are left. -/
def Counted : Prop :=
  ∀ i a, L.account i = some a → a.alive = L.unreaped a.serial

/-- The first account that has recorded the id of a child is the child's own. -/
structure Attributed : Prop where
  own : ∀ c ∈ L.children, ∀ i a, L.account i = some a → c.pid ∈ a.pids →
    (∀ j b, L.account j = some b → c.pid ∈ b.pids → i ≤ j) → a.serial = c.owner
  counted : L.Counted

/-- The group of an account is the id of its first child. -/
def Headed : Prop :=
  ∀ i a, L.account i = some a → a.pids ≠ [] → a.pids.head? = some a.pgid

/-- The children of a group belong to one account. -/
def Separate : Prop :=
  ∀ c ∈ L.children, ∀ d ∈ L.children, c.pgid = d.pgid → c.owner = d.owner

/-- Every child has an account. -/
def Covered : Prop :=
  ∀ c ∈ L.children, ∃ i a, L.account i = some a ∧ a.serial = c.owner

variable {L} {i j : Nat} {a b : Account π} {pid : π}

theorem put_self (x : Option (Account π)) : L.put i x i = x :=
  if_pos rfl

theorem put_ne (x : Option (Account π)) (h : j ≠ i) : L.put i x j = L.account j :=
  if_neg h

/-- What is known of an account after an index has been written. -/
theorem put_some {x : Account π} (h : L.put i (some x) j = some b) :
    (j = i ∧ b = x) ∨ (j ≠ i ∧ L.account j = some b) := by
  by_cases hj : j = i
  · subst hj
    rw [put_self] at h
    exact Or.inl ⟨rfl, (Option.some.inj h).symm⟩
  · rw [put_ne _ hj] at h
    exact Or.inr ⟨hj, h⟩

theorem put_none (h : L.put i none j = some b) : j ≠ i ∧ L.account j = some b := by
  by_cases hj : j = i
  · subst hj
    rw [put_self] at h
    cases h
  · rw [put_ne _ hj] at h
    exact ⟨hj, h⟩

/-- An account that has recorded a child keeps its group. -/
theorem groupFor_of_mem {pid' : π} (h : pid' ∈ a.pids) : groupFor a pid = a.pgid := by
  have hne : a.pids.isEmpty = false := List.isEmpty_eq_false_iff.2 (List.ne_nil_of_mem h)
  simp only [groupFor, hne, Bool.false_eq_true, if_false]

/-- Writing an account back under its serial number: what is found has an original. -/
theorem put_serial {x : Account π} (h : L.put i (some x) j = some b) (hi : L.account i = some a)
    (hser : x.serial = a.serial) : ∃ b', L.account j = some b' ∧ b'.serial = b.serial := by
  rcases put_some h with ⟨rfl, rfl⟩ | ⟨-, hb⟩
  · exact ⟨a, hi, hser.symm⟩
  · exact ⟨b, hb, rfl⟩

/-- And each account that was there is found again. -/
theorem put_forth (x : Account π) (hi : L.account i = some a) (hser : x.serial = a.serial)
    (hj : L.account j = some b) : ∃ b', L.put i (some x) j = some b' ∧ b'.serial = b.serial := by
  by_cases h : j = i
  · subst h
    cases hi.symm.trans hj
    exact ⟨x, put_self _, hser⟩
  · exact ⟨b, (put_ne _ h).trans hj, rfl⟩

/-! ## Soundness -/

theorem Sound.openAccount (h : L.Sound) (none : π) : (L.openAccount i none).Sound := by
  constructor
  · intro j b hb
    rcases put_some hb with ⟨-, rfl⟩ | ⟨-, hb'⟩
    · exact Nat.lt_succ_self _
    · exact Nat.lt_succ_of_lt (h.serial_lt hb')
  · intro j k b c hb hc hs
    rcases put_some hb with ⟨rfl, rfl⟩ | ⟨-, hb'⟩
    · rcases put_some hc with ⟨rfl, -⟩ | ⟨-, hc'⟩
      · rfl
      · exact absurd (h.serial_lt hc') (hs ▸ Nat.lt_irrefl _)
    · rcases put_some hc with ⟨rfl, rfl⟩ | ⟨-, hc'⟩
      · exact absurd (h.serial_lt hb') (hs ▸ Nat.lt_irrefl _)
      · exact h.serial_inj hb' hc' hs
  · intro c hc
    exact Nat.lt_succ_of_lt (h.owner_lt c hc)
  · exact h.nodup
  · intro j b c hc hb hs
    rcases put_some hb with ⟨-, rfl⟩ | ⟨-, hb'⟩
    · exact absurd (h.owner_lt c hc) (hs ▸ Nat.lt_irrefl _)
    · exact h.recorded c hc hb' hs

/-- Writing an account back under its serial number keeps the numbers in range, and apart. -/
theorem Sound.put_lt {x : Account π} (h : L.Sound) (hb : L.put i (some x) j = some b)
    (hi : L.account i = some a) (hser : x.serial = a.serial) : b.serial < L.next := by
  obtain ⟨b', hb', he⟩ := put_serial hb hi hser
  exact he ▸ h.serial_lt hb'

theorem Sound.put_inj {k : Nat} {c x : Account π} (h : L.Sound)
    (hb : L.put i (some x) j = some b) (hc : L.put i (some x) k = some c)
    (hi : L.account i = some a) (hser : x.serial = a.serial) (hs : b.serial = c.serial) :
    j = k := by
  obtain ⟨b', hb', heb⟩ := put_serial hb hi hser
  obtain ⟨c', hc', hec⟩ := put_serial hc hi hser
  exact h.serial_inj hb' hc' (heb.trans (hs.trans hec.symm))

theorem Sound.enter (h : L.Sound) (hi : L.account i = some a)
    (hfresh : ∀ c ∈ L.children, c.pid ≠ pid) : (L.enter i a pid).Sound := by
  constructor
  · intro j b hb
    exact h.put_lt hb hi rfl
  · intro j k b c hb hc hs
    exact h.put_inj hb hc hi rfl hs
  · intro c hc
    rcases List.mem_append.1 hc with hc' | hc'
    · exact h.owner_lt c hc'
    · rw [List.mem_singleton.1 hc']
      exact h.serial_lt hi
  · have hnot : pid ∉ L.children.map Child.pid := by
      intro hmem
      obtain ⟨c, hc, hp⟩ := List.mem_map.1 hmem
      exact hfresh c hc hp
    have hmap : (L.enter i a pid).children.map Child.pid = L.children.map Child.pid ++ [pid] := by
      simp [Ledger.enter]
    rw [hmap]
    refine List.nodup_append.2 ⟨h.nodup, List.pairwise_singleton _ _, ?_⟩
    intro p hp q hq he
    rw [List.mem_singleton.1 hq] at he
    exact hnot (he ▸ hp)
  · intro j b c hc hb hs
    rcases List.mem_append.1 hc with hc' | hc'
    · rcases put_some hb with ⟨-, rfl⟩ | ⟨-, hb'⟩
      · obtain ⟨hp, hg⟩ := h.recorded c hc' hi hs
        exact ⟨List.mem_append_left _ hp, hg.trans (groupFor_of_mem hp).symm⟩
      · exact h.recorded c hc' hb' hs
    · rw [List.mem_singleton.1 hc'] at hs ⊢
      rcases put_some hb with ⟨-, rfl⟩ | ⟨hne, hb'⟩
      · exact ⟨List.mem_append_right _ (List.mem_singleton_self _), rfl⟩
      · exact absurd (h.serial_inj hb' hi hs) hne

theorem Sound.drop [DecidableEq π] (h : L.Sound) (pid : π) :
    Sound { L with children := L.drop pid } := by
  have hsub : ∀ c ∈ L.drop pid, c ∈ L.children := fun c hc => List.mem_of_mem_filter hc
  refine ⟨h.serial_lt, h.serial_inj, fun c hc => h.owner_lt c (hsub c hc), ?_,
    fun c hc => h.recorded c (hsub c hc)⟩
  exact h.nodup.sublist ((List.filter_sublist).map Child.pid)

/-- Writing back an account that differs in the number of living children only. -/
theorem Sound.putAlive (h : L.Sound) (hi : L.account i = some a) (n : Int) :
    Sound { L with account := L.put i (some { a with alive := n }) } := by
  constructor
  · intro j b hb
    exact h.put_lt hb hi rfl
  · intro j k b c hb hc hs
    exact h.put_inj hb hc hi rfl hs
  · exact h.owner_lt
  · exact h.nodup
  · intro j b c hc hb hs
    rcases put_some hb with ⟨-, rfl⟩ | ⟨-, hb'⟩
    · have hrec := h.recorded c hc hi hs
      exact hrec
    · exact h.recorded c hc hb' hs

theorem Sound.book [DecidableEq π] (h : L.Sound) (hi : L.account i = some a) (pid : π) :
    (L.book i a pid).Sound :=
  (h.drop pid).putAlive hi (a.alive - 1)

theorem Sound.closeAccount (h : L.Sound) (i : Nat) : (L.closeAccount i).Sound := by
  constructor
  · intro j b hb
    exact h.serial_lt (put_none hb).2
  · intro j k b c hb hc hs
    exact h.serial_inj (put_none hb).2 (put_none hc).2 hs
  · exact h.owner_lt
  · exact h.nodup
  · intro j b c hc hb hs
    exact h.recorded c hc (put_none hb).2 hs

/-! ## Counts -/

theorem Counted.openAccount (h : L.Counted) (hs : L.Sound) (none : π) :
    (L.openAccount i none).Counted := by
  intro j b hb
  rcases put_some hb with ⟨-, rfl⟩ | ⟨-, hb⟩
  · have hzero : L.unreaped L.next = 0 := by
      refine List.countP_eq_zero.2 fun c hc => ?_
      have hlt := hs.owner_lt c hc
      simp only [decide_eq_true_eq]
      omega
    exact (congrArg Nat.cast hzero).symm
  · exact h j b hb

theorem unreaped_enter (serial : Nat) :
    (L.enter i a pid).unreaped serial = L.unreaped serial + if a.serial = serial then 1 else 0 := by
  unfold unreaped Ledger.enter
  rw [List.countP_append, List.countP_singleton]
  simp only [decide_eq_true_eq]

theorem Counted.enter (h : L.Counted) (hs : L.Sound) (hi : L.account i = some a) :
    (L.enter i a pid).Counted := by
  intro j b hb
  rw [unreaped_enter]
  rcases put_some hb with ⟨rfl, rfl⟩ | ⟨hne, hb⟩
  · rw [if_pos rfl]
    push_cast
    exact congrArg (· + 1) (h j a hi)
  · have hser : a.serial ≠ b.serial := fun he => hne (hs.serial_inj hb hi he.symm)
    rw [if_neg hser]
    exact h j b hb

section Drop

variable [DecidableEq π]

/-- Taking a child off the list changes the count of its own account only. -/
theorem unreaped_drop (hs : L.Sound) {c : Child π} (hc : c ∈ L.children) (serial : Nat) :
    (unreaped { L with children := L.drop c.pid } serial : Int) =
      L.unreaped serial - if c.owner = serial then 1 else 0 := by
  have key : ∀ l : List (Child π), (l.map Child.pid).Nodup → c ∈ l →
      ((l.filter fun d => d.pid ≠ c.pid).countP fun d => d.owner = serial : Int) =
        (l.countP fun d => d.owner = serial) - if c.owner = serial then 1 else 0 := by
    intro l
    induction l with
    | nil => intro _ hmem; cases hmem
    | cons d l ih =>
      intro hnd hmem
      rw [List.map_cons, List.nodup_cons] at hnd
      rcases List.mem_cons.1 hmem with rfl | hmem
      · have hrest : (l.filter fun d => d.pid ≠ c.pid) = l := by
          refine List.filter_eq_self.2 fun d hd => ?_
          have hne : d.pid ≠ c.pid := fun he => hnd.1 (he ▸ List.mem_map_of_mem hd)
          simpa using hne
        have hhead : ((c :: l).filter fun d => d.pid ≠ c.pid) = l := by
          rw [List.filter_cons_of_neg (by simp), hrest]
        rw [hhead, List.countP_cons]
        by_cases ho : c.owner = serial <;> simp [ho]
      · have hne : d.pid ≠ c.pid := fun he => hnd.1 (he ▸ List.mem_map_of_mem hmem)
        rw [List.filter_cons_of_pos (by simpa using hne), List.countP_cons, List.countP_cons]
        have := ih hnd.2 hmem
        push_cast
        omega
  exact key L.children hs.nodup hc

/-- A child is booked on its own account. -/
theorem Counted.book (h : L.Counted) (hs : L.Sound) (hi : L.account i = some a) {c : Child π}
    (hc : c ∈ L.children) (hown : a.serial = c.owner) : (L.book i a c.pid).Counted := by
  intro j b hb
  have hcount := unreaped_drop hs hc b.serial
  have hbook : (L.book i a c.pid).unreaped b.serial =
      unreaped { L with children := L.drop c.pid } b.serial := rfl
  rw [hbook, hcount]
  rcases put_some hb with ⟨rfl, rfl⟩ | ⟨hne, hb⟩
  · rw [if_pos hown.symm]
    exact congrArg (· - 1) (h j a hi)
  · have hser : c.owner ≠ b.serial := by
      rw [← hown]
      exact fun he => hne (hs.serial_inj hb hi he.symm)
    rw [if_neg hser, Int.sub_zero]
    exact h j b hb

/-- A child that no account has recorded is taken off the list. -/
theorem Counted.drop (h : L.Counted) (hs : L.Sound) {c : Child π} (hc : c ∈ L.children)
    (hno : ∀ i a, L.account i = some a → c.pid ∉ a.pids) :
    Counted { L with children := L.drop c.pid } := by
  intro j b hb
  have hser : c.owner ≠ b.serial := fun he => hno j b hb (hs.recorded c hc hb he.symm).1
  rw [unreaped_drop hs hc, if_neg hser, Int.sub_zero]
  exact h j b hb

end Drop

theorem Counted.closeAccount (h : L.Counted) (i : Nat) : (L.closeAccount i).Counted :=
  fun j b hb => h j b (put_none hb).2

/-! ## Balance -/

theorem Balanced.openAccount (h : L.Balanced) (hs : L.Sound) (none : π) :
    (L.openAccount i none).Balanced := by
  constructor
  · intro j k b c p hb hc hpb hpc
    rcases put_some hb with ⟨-, rfl⟩ | ⟨-, hb⟩
    · cases hpb
    · rcases put_some hc with ⟨-, rfl⟩ | ⟨-, hc⟩
      · cases hpc
      · exact h.disjoint hb hc hpb hpc
  · intro j b c hc hb hp
    rcases put_some hb with ⟨-, rfl⟩ | ⟨-, hb⟩
    · cases hp
    · exact h.owned c hc hb hp
  · exact fun hb => Counted.openAccount (fun _ _ => h.alive) hs none _ _ hb

/-- A child whose id is recorded nowhere is entered. -/
theorem Balanced.enter (h : L.Balanced) (hs : L.Sound) (hi : L.account i = some a)
    (hfresh : ∀ c ∈ L.children, c.pid ≠ pid)
    (hnew : ∀ j b, L.account j = some b → pid ∉ b.pids) : (L.enter i a pid).Balanced := by
  constructor
  · intro j k b c p hb hc hpb hpc
    have old : ∀ {j b}, (L.enter i a pid).account j = some b → p ∈ b.pids → p ≠ pid →
        ∃ b', L.account j = some b' ∧ p ∈ b'.pids := by
      intro j b hb hp hne
      rcases put_some hb with ⟨rfl, rfl⟩ | ⟨-, hb⟩
      · refine ⟨a, hi, ?_⟩
        rcases List.mem_append.1 hp with hp | hp
        · exact hp
        · exact absurd (List.mem_singleton.1 hp) hne
      · exact ⟨b, hb, hp⟩
    have new : ∀ {j b}, (L.enter i a pid).account j = some b → pid ∈ b.pids → j = i := by
      intro j b hb hp
      rcases put_some hb with ⟨rfl, -⟩ | ⟨-, hb⟩
      · rfl
      · exact absurd hp (hnew j b hb)
    by_cases hp : p = pid
    · subst hp
      rw [new hb hpb, new hc hpc]
    · obtain ⟨b', hb', hpb'⟩ := old hb hpb hp
      obtain ⟨c', hc', hpc'⟩ := old hc hpc hp
      exact h.disjoint hb' hc' hpb' hpc'
  · intro j b c hc hb hp
    rcases List.mem_append.1 hc with hc' | hc'
    · rcases put_some hb with ⟨-, rfl⟩ | ⟨-, hb'⟩
      · rcases List.mem_append.1 hp with hp' | hp'
        · have hown := h.owned c hc' hi hp'
          exact hown
        · exact absurd (List.mem_singleton.1 hp') (hfresh c hc')
      · exact h.owned c hc' hb' hp
    · rw [List.mem_singleton.1 hc'] at hp ⊢
      rcases put_some hb with ⟨-, rfl⟩ | ⟨-, hb'⟩
      · rfl
      · exact absurd hp (hnew j b hb')
  · exact fun hb => Counted.enter (fun _ _ => h.alive) hs hi _ _ hb

section Drop

variable [DecidableEq π]

/-- A child is booked on the account that has its id. -/
theorem Balanced.book (h : L.Balanced) (hs : L.Sound) (hi : L.account i = some a) {c : Child π}
    (hc : c ∈ L.children) (hp : c.pid ∈ a.pids) : (L.book i a c.pid).Balanced := by
  have hsub : ∀ d ∈ L.drop c.pid, d ∈ L.children := fun d hd => List.mem_of_mem_filter hd
  have hown : a.serial = c.owner := h.owned c hc hi hp
  constructor
  · intro j k b d p hb hd hpb hpd
    have old : ∀ {j b}, (L.book i a c.pid).account j = some b → p ∈ b.pids →
        ∃ b', L.account j = some b' ∧ p ∈ b'.pids := by
      intro j b hb hp
      rcases put_some hb with ⟨rfl, rfl⟩ | ⟨-, hb⟩
      · exact ⟨a, hi, hp⟩
      · exact ⟨b, hb, hp⟩
    obtain ⟨b', hb', hpb'⟩ := old hb hpb
    obtain ⟨d', hd', hpd'⟩ := old hd hpd
    exact h.disjoint hb' hd' hpb' hpd'
  · intro j b d hd hb hp
    rcases put_some hb with ⟨-, rfl⟩ | ⟨-, hb'⟩
    · have hown := h.owned d (hsub d hd) hi hp
      exact hown
    · exact h.owned d (hsub d hd) hb' hp
  · exact fun hb => Counted.book (fun _ _ => h.alive) hs hi hc hown _ _ hb

/-- A child that no account has recorded is taken off the list. -/
theorem Balanced.drop (h : L.Balanced) (hs : L.Sound) {c : Child π} (hc : c ∈ L.children)
    (hno : ∀ i a, L.account i = some a → c.pid ∉ a.pids) :
    Balanced { L with children := L.drop c.pid } := by
  have hsub : ∀ d ∈ L.drop c.pid, d ∈ L.children := fun d hd => List.mem_of_mem_filter hd
  exact ⟨h.disjoint, fun d hd => h.owned d (hsub d hd),
    fun hb => Counted.drop (fun _ _ => h.alive) hs hc hno _ _ hb⟩

end Drop

theorem Balanced.closeAccount (h : L.Balanced) (i : Nat) : (L.closeAccount i).Balanced :=
  ⟨fun hb hc => h.disjoint (put_none hb).2 (put_none hc).2,
    fun c hc hb => h.owned c hc (put_none hb).2, fun hb => h.alive (put_none hb).2⟩

/-! ## Cover -/

theorem Covered.openAccount (h : L.Covered) (hi : L.account i = none) (none : π) :
    (L.openAccount i none).Covered := by
  intro c hc
  obtain ⟨j, b, hb, hs⟩ := h c hc
  have hne : j ≠ i := by rintro rfl; rw [hi] at hb; cases hb
  exact ⟨j, b, (put_ne _ hne).trans hb, hs⟩

/-- Writing an account back under its serial number keeps the cover of the children left. -/
theorem Covered.put (h : L.Covered) (a' : Account π) (hi : L.account i = some a)
    (hser : a'.serial = a.serial) {c : Child π} (hc : c ∈ L.children) :
    ∃ j b, L.put i (some a') j = some b ∧ b.serial = c.owner := by
  obtain ⟨j, b, hb, hs⟩ := h c hc
  obtain ⟨b', hb', he⟩ := put_forth a' hi hser hb
  exact ⟨j, b', hb', he.trans hs⟩

theorem Covered.enter (h : L.Covered) (hi : L.account i = some a) : (L.enter i a pid).Covered := by
  intro c hc
  rcases List.mem_append.1 hc with hc' | hc'
  · exact h.put ⟨a.serial, a.pids ++ [pid], a.alive + 1, groupFor a pid⟩ hi rfl hc'
  · rw [List.mem_singleton.1 hc']
    exact ⟨i, _, put_self _, rfl⟩

theorem Covered.book [DecidableEq π] (h : L.Covered) (hi : L.account i = some a) (pid : π) :
    (L.book i a pid).Covered :=
  fun _ hc => h.put { a with alive := a.alive - 1 } hi rfl (List.mem_of_mem_filter hc)

/-- An account without children is closed. -/
theorem Covered.closeAccount (h : L.Covered) (hi : L.account i = some a)
    (hz : L.unreaped a.serial = 0) : (L.closeAccount i).Covered := by
  intro c hc
  obtain ⟨j, b, hb, hs⟩ := h c hc
  have hne : j ≠ i := by
    rintro rfl
    rw [hi] at hb
    cases hb
    have hno := List.countP_eq_zero.1 hz c hc
    simp only [decide_eq_true_eq] at hno
    exact hno hs.symm
  exact ⟨j, b, (put_ne _ hne).trans hb, hs⟩

/-! ## Attribution -/

theorem Attributed.openAccount (h : L.Attributed) (hs : L.Sound) (hi : L.account i = none)
    (none : π) : (L.openAccount i none).Attributed := by
  refine ⟨fun c hc k b hb hp hmin => ?_, h.counted.openAccount hs none⟩
  rcases put_some hb with ⟨-, rfl⟩ | ⟨-, hb⟩
  · cases hp
  · refine h.own c hc k b hb hp fun j d hd hpd => hmin j d ?_ hpd
    have hne : j ≠ i := by
      rintro rfl
      rw [hi] at hd
      cases hd
    exact (put_ne _ hne).trans hd

/-- A child is entered whose id no account before its own has recorded. -/
theorem Attributed.enter (h : L.Attributed) (hs : L.Sound) (hi : L.account i = some a)
    (hfresh : ∀ c ∈ L.children, c.pid ≠ pid)
    (hmin : ∀ j b, L.account j = some b → pid ∈ b.pids → i ≤ j) :
    (L.enter i a pid).Attributed := by
  refine ⟨fun c hc k b hb hp hfirst => ?_, h.counted.enter hs hi⟩
  rcases List.mem_append.1 hc with hc' | hc'
  · -- what has recorded the id of an old child had recorded it before
    have hold : ∀ j d, L.account j = some d → c.pid ∈ d.pids → k ≤ j := by
      intro j d hd hpd
      by_cases hj : j = i
      · subst hj
        cases hi.symm.trans hd
        exact hfirst j _ (put_self _) (List.mem_append_left _ hpd)
      · exact hfirst j d ((put_ne _ hj).trans hd) hpd
    rcases put_some hb with ⟨rfl, rfl⟩ | ⟨-, hb⟩
    · rcases List.mem_append.1 hp with hp | hp
      · exact h.own c hc' k a hi hp hold
      · exact absurd (List.mem_singleton.1 hp) (hfresh c hc')
    · exact h.own c hc' k b hb hp hold
  · rw [List.mem_singleton.1 hc'] at hp hfirst ⊢
    rcases put_some hb with ⟨-, rfl⟩ | ⟨hne, hb⟩
    · rfl
    · have hle := hmin k b hb hp
      have hge := hfirst i _ (put_self _) (List.mem_append_right _ (List.mem_singleton_self _))
      exact absurd (Nat.le_antisymm hge hle) hne

/-- A child is booked on its own account. -/
theorem Attributed.book [DecidableEq π] (h : L.Attributed) (hs : L.Sound)
    (hi : L.account i = some a) {c : Child π} (hc : c ∈ L.children) (hown : a.serial = c.owner) :
    (L.book i a c.pid).Attributed := by
  refine ⟨fun d hd k b hb hp hmin => ?_, h.counted.book hs hi hc hown⟩
  have hold : ∀ j x, L.account j = some x → d.pid ∈ x.pids → k ≤ j := by
    intro j x hx hpx
    by_cases hj : j = i
    · subst hj
      cases hi.symm.trans hx
      exact hmin j _ (put_self _) hpx
    · exact hmin j x ((put_ne _ hj).trans hx) hpx
  rcases put_some hb with ⟨rfl, rfl⟩ | ⟨-, hb⟩
  · have hown := h.own d (List.mem_of_mem_filter hd) k a hi hp hold
    exact hown
  · exact h.own d (List.mem_of_mem_filter hd) k b hb hp hold

/-- A child that no account has recorded is taken off the list. -/
theorem Attributed.drop [DecidableEq π] (h : L.Attributed) (hs : L.Sound) {c : Child π}
    (hc : c ∈ L.children) (hno : ∀ i a, L.account i = some a → c.pid ∉ a.pids) :
    Attributed { L with children := L.drop c.pid } := by
  exact ⟨fun d hd => h.own d (List.mem_of_mem_filter hd), h.counted.drop hs hc hno⟩

/-- An account is closed. The ids of the children that are left are recorded nowhere else. -/
theorem Attributed.closeAccount (h : L.Attributed) (hi : L.account i = some a)
    (hleft : ∀ c ∈ L.children, c.owner = a.serial → ∀ j b, L.account j = some b →
      c.pid ∈ b.pids → j = i) : (L.closeAccount i).Attributed := by
  refine ⟨fun c hc k b hb hp hmin => ?_, h.counted.closeAccount i⟩
  obtain ⟨hne, hb⟩ := put_none hb
  have hrest : ∀ j d, j ≠ i → L.account j = some d → c.pid ∈ d.pids → k ≤ j :=
    fun j d hj hd hpd => hmin j d ((put_ne _ hj).trans hd) hpd
  by_cases hclosed : c.pid ∈ a.pids ∧ i ≤ k
  · -- the child belongs to the account that is closed
    have hown := h.own c hc i a hi hclosed.1 fun j d hd hpd => by
      by_cases hj : j = i
      · exact Nat.le_of_eq hj.symm
      · exact Nat.le_trans hclosed.2 (hrest j d hj hd hpd)
    exact absurd (hleft c hc hown.symm k b hb hp) hne
  · refine h.own c hc k b hb hp fun j d hd hpd => ?_
    by_cases hj : j = i
    · subst hj
      cases hi.symm.trans hd
      by_contra hlt
      exact hclosed ⟨hpd, by omega⟩
    · exact hrest j d hj hd hpd

/-! ## Process groups -/

theorem Headed.openAccount (h : L.Headed) (none : π) : (L.openAccount i none).Headed := by
  intro j b hb hne
  rcases put_some hb with ⟨-, rfl⟩ | ⟨-, hb⟩
  · exact absurd rfl hne
  · exact h j b hb hne

theorem Headed.enter (h : L.Headed) (hi : L.account i = some a) : (L.enter i a pid).Headed := by
  intro j b hb hne
  rcases put_some hb with ⟨-, rfl⟩ | ⟨-, hb⟩
  · cases hp : a.pids with
    | nil => simp [groupFor, hp]
    | cons p ps =>
      have hhead := h i a hi (by rw [hp]; exact List.cons_ne_nil _ _)
      rw [hp] at hhead
      simpa [groupFor, hp] using hhead
  · exact h j b hb hne

theorem Headed.book [DecidableEq π] (h : L.Headed) (hi : L.account i = some a) (pid : π) :
    (L.book i a pid).Headed := by
  intro j b hb hne
  rcases put_some hb with ⟨-, rfl⟩ | ⟨-, hb⟩
  · exact h i a hi hne
  · exact h j b hb hne

theorem Headed.closeAccount (h : L.Headed) (i : Nat) : (L.closeAccount i).Headed :=
  fun j b hb hne => h j b (put_none hb).2 hne

/-- A child starts its own group or joins one that still has a child of its account. -/
theorem Separate.enter (h : L.Separate) (hfresh : ∀ c ∈ L.children, c.pgid ≠ pid)
    (hlead : a.pids = [] ∨ ∃ c ∈ L.children, c.owner = a.serial ∧ c.pgid = a.pgid) :
    (L.enter i a pid).Separate := by
  have join : ∀ c ∈ L.children, c.pgid = groupFor a pid → c.owner = a.serial := by
    intro c hc he
    unfold groupFor at he
    split at he
    · exact absurd he (hfresh c hc)
    · rename_i hne
      rcases hlead with hnil | ⟨d, hd, ho, hg⟩
      · rw [hnil] at hne
        exact absurd rfl hne
      · rw [← ho]
        exact h c hc d hd (he.trans hg.symm)
  intro c hc d hd he
  rcases List.mem_append.1 hc with hc' | hc' <;> rcases List.mem_append.1 hd with hd' | hd'
  · exact h c hc' d hd' he
  · rw [List.mem_singleton.1 hd'] at he ⊢
    exact join c hc' he
  · rw [List.mem_singleton.1 hc'] at he ⊢
    exact (join d hd' he.symm).symm
  · rw [List.mem_singleton.1 hc', List.mem_singleton.1 hd']

end Ledger

end ProcessLedger
