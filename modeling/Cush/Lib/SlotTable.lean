import Mathlib.Data.List.Basic

/-!
# Fixed tables of optional entries

A statically allocated array of pointers, initially all null, is kept as the list of its entries up
to the last one ever written; every later entry is null. Reading, writing and the three scans such
tables are used with (the first entry that satisfies a test, the next entry in use, the first free
index) are specified through `get` alone.
-/

structure SlotTable (α : Type) where
  slots : List (Option α) := []
  deriving Repr, DecidableEq

namespace SlotTable

variable {α : Type}

def get (t : SlotTable α) (j : Nat) : Option α :=
  (t.slots[j]?).join

def set (t : SlotTable α) (j : Nat) (v : Option α) : SlotTable α :=
  if j < t.slots.length then ⟨t.slots.set j v⟩
  else ⟨t.slots ++ List.replicate (j - t.slots.length) none ++ [v]⟩

def modify (t : SlotTable α) (j : Nat) (f : α → α) : SlotTable α :=
  match t.get j with
  | some a => t.set j (some (f a))
  | none => t

theorem get_set (t : SlotTable α) (j : Nat) (v : Option α) (i : Nat) :
    (t.set j v).get i = if i = j then v else t.get i := by
  unfold set get
  split
  · rename_i hj
    by_cases hi : i = j
    · subst hi; simp [hj]
    · simp [hi, List.getElem?_set_ne (Ne.symm hi)]
  · rename_i hj
    by_cases hi : i = j
    · subst hi
      rw [List.getElem?_append_right (by simp; omega)]
      have e : i - (t.slots ++ List.replicate (i - t.slots.length) none).length = 0 := by
        simp; omega
      rw [e]; simp
    · by_cases hlt : i < t.slots.length
      · rw [List.append_assoc, List.getElem?_append_left hlt]; simp [hi]
      · simp only [hi, if_false]
        rw [List.getElem?_eq_none (l := t.slots) (by omega)]
        by_cases hij : i < j
        · rw [List.append_assoc, List.getElem?_append_right (by omega),
            List.getElem?_append_left (by simp; omega),
            List.getElem?_replicate_of_lt (by omega)]
          rfl
        · rw [List.getElem?_eq_none (by simp; omega)]

@[simp] theorem get_set_self (t : SlotTable α) (j : Nat) (v : Option α) :
    (t.set j v).get j = v := by
  simp [get_set]

theorem get_set_ne (t : SlotTable α) {i j : Nat} (h : i ≠ j) (v : Option α) :
    (t.set j v).get i = t.get i := by
  simp [get_set, h]

theorem get_modify (t : SlotTable α) (j : Nat) (f : α → α) (i : Nat) :
    (t.modify j f).get i = if i = j then (t.get i).map f else t.get i := by
  unfold modify
  cases hj : t.get j with
  | none =>
    by_cases hi : i = j
    · subst hi; simp [hj]
    · simp [hi]
  | some a =>
    by_cases hi : i = j
    · subst hi; simp [hj]
    · simp [get_set, hi]

/-- What is found in a table after a write. -/
theorem get_set_eq_some {t : SlotTable α} {i j : Nat} {v : Option α} {b : α} :
    (t.set j v).get i = some b ↔ (i = j ∧ v = some b) ∨ (i ≠ j ∧ t.get i = some b) := by
  rw [get_set]
  by_cases hi : i = j
  · simp [hi]
  · simp [hi]

theorem get_modify_eq_some {t : SlotTable α} {i j : Nat} {f : α → α} {b : α} :
    (t.modify j f).get i = some b ↔
      (i = j ∧ ∃ a, t.get j = some a ∧ f a = b) ∨ (i ≠ j ∧ t.get i = some b) := by
  rw [get_modify]
  by_cases hi : i = j
  · simp [hi, Option.map_eq_some_iff]
  · simp [hi]

theorem get_modify_self {t : SlotTable α} {j : Nat} {a : α} (h : t.get j = some a) (f : α → α) :
    (t.modify j f).get j = some (f a) := by
  rw [get_modify, if_pos rfl, h, Option.map_some]

theorem modify_of_get {t : SlotTable α} {j : Nat} {a : α} (h : t.get j = some a) (f : α → α) :
    t.modify j f = t.set j (some (f a)) := by
  simp only [modify, h]

theorem set_set (t : SlotTable α) (j : Nat) (v w : Option α) :
    (t.set j v).set j w = t.set j w := by
  by_cases hj : j < t.slots.length
  · simp [set, hj]
  · have hlen : (t.slots ++ List.replicate (j - t.slots.length) none).length = j := by
      simp only [List.length_append, List.length_replicate]
      omega
    have hlt : j < (t.slots ++ List.replicate (j - t.slots.length) none ++ [v]).length := by
      rw [List.length_append, hlen]
      exact Nat.lt_succ_self j
    have hset : (t.slots ++ List.replicate (j - t.slots.length) none ++ [v]).set j w =
        t.slots ++ List.replicate (j - t.slots.length) none ++ [w] := by
      rw [List.set_append_right _ _ (by omega), hlen, Nat.sub_self]
      rfl
    simp only [set, hj, if_false, if_pos hlt, hset]

/-! ## Scans -/

/-- Scan the entries from the index `i` on for the first one in use that satisfies `p`. -/
def scan (p : α → Bool) : Nat → List (Option α) → Option Nat
  | _, [] => none
  | i, none :: rest => scan p (i + 1) rest
  | i, some a :: rest => if p a then some i else scan p (i + 1) rest

/-- The least index whose entry is in use and satisfies `p`. -/
def find (t : SlotTable α) (p : α → Bool) : Option Nat :=
  scan p 0 t.slots

/-- The least index from `i` on that is in use. -/
def next (t : SlotTable α) (i : Nat) : Option Nat :=
  scan (fun _ => true) i (t.slots.drop i)

theorem scan_some {p : α → Bool} : ∀ {l : List (Option α)} {i j : Nat}, scan p i l = some j →
    i ≤ j ∧ (∃ a, l[j - i]? = some (some a) ∧ p a = true) ∧
      ∀ k, i ≤ k → k < j → ∀ a, l[k - i]? = some (some a) → p a = false := by
  intro l
  induction l with
  | nil => intro i j h; cases h
  | cons x l ih =>
    intro i j h
    have tail : scan p (i + 1) l = some j → i ≤ j ∧
        (∃ a, (x :: l)[j - i]? = some (some a) ∧ p a = true) ∧
        ∀ k, i < k → k < j → ∀ a, (x :: l)[k - i]? = some (some a) → p a = false := by
      intro h
      obtain ⟨hle, ⟨a, ha, hp⟩, hmin⟩ := ih h
      refine ⟨by omega, ⟨a, ?_, hp⟩, fun k hk hkj b hb => ?_⟩
      · rw [show j - i = (j - (i + 1)) + 1 by omega]; simpa using ha
      · rw [show k - i = (k - (i + 1)) + 1 by omega] at hb
        exact hmin k hk hkj b (by simpa using hb)
    cases x with
    | none =>
      obtain ⟨hle, hex, hmin⟩ := tail (by simpa [scan] using h)
      refine ⟨hle, hex, fun k hk hkj b hb => ?_⟩
      rcases Nat.eq_or_lt_of_le hk with rfl | hlt
      · simp at hb
      · exact hmin k hlt hkj b hb
    | some a =>
      unfold scan at h
      split at h
      · rename_i hp
        obtain rfl : i = j := by simpa using h
        exact ⟨Nat.le_refl _, ⟨a, by simp, hp⟩, fun k hk hkj => absurd hkj (by omega)⟩
      · rename_i hp
        obtain ⟨hle, hex, hmin⟩ := tail h
        refine ⟨hle, hex, fun k hk hkj b hb => ?_⟩
        rcases Nat.eq_or_lt_of_le hk with rfl | hlt
        · obtain rfl : a = b := by simpa using hb
          simpa using hp
        · exact hmin k hlt hkj b hb

theorem scan_none {p : α → Bool} : ∀ {l : List (Option α)} {i : Nat}, scan p i l = none →
    ∀ (k : Nat) (a : α), l[k]? = some (some a) → p a = false := by
  intro l
  induction l with
  | nil => intro i _ k a ha; simp at ha
  | cons x l ih =>
    intro i h k a ha
    have step : scan p (i + 1) l = none ∧ ∀ b, x = some b → p b = false := by
      cases x with
      | none => exact ⟨by simpa [scan] using h, fun b hb => by cases hb⟩
      | some b =>
        unfold scan at h
        split at h
        · cases h
        · rename_i hp
          exact ⟨h, fun c hc => by cases hc; simpa using hp⟩
    cases k with
    | zero => exact step.2 a (by simpa using ha)
    | succ k => exact ih step.1 k a (by simpa using ha)

theorem get_eq_some {t : SlotTable α} {j : Nat} {a : α} :
    t.get j = some a ↔ t.slots[j]? = some (some a) := by
  unfold get
  cases h : t.slots[j]? with
  | none => simp
  | some x => cases x <;> simp

theorem lt_length {t : SlotTable α} {j : Nat} {a : α} (h : t.get j = some a) :
    j < t.slots.length :=
  (List.getElem?_eq_some_iff.1 (get_eq_some.1 h)).1

theorem length_set {t : SlotTable α} {j : Nat} {a : α} (h : t.get j = some a) (v : Option α) :
    (t.set j v).slots.length = t.slots.length := by
  simp only [set, if_pos (lt_length h), List.length_set]

theorem find_some {t : SlotTable α} {p : α → Bool} {j : Nat} (h : t.find p = some j) :
    (∃ a, t.get j = some a ∧ p a = true) ∧
      ∀ k, k < j → ∀ a, t.get k = some a → p a = false := by
  obtain ⟨-, ⟨a, ha, hp⟩, hmin⟩ := scan_some h
  refine ⟨⟨a, get_eq_some.2 (by simpa using ha), hp⟩, fun k hk b hb => ?_⟩
  exact hmin k (Nat.zero_le _) hk b (by simpa using get_eq_some.1 hb)

theorem find_none {t : SlotTable α} {p : α → Bool} (h : t.find p = none) {j : Nat} {a : α}
    (ha : t.get j = some a) : p a = false :=
  scan_none h j a (get_eq_some.1 ha)

/-- An entry that satisfies the test is found if no earlier one does. -/
theorem find_eq_some {t : SlotTable α} {p : α → Bool} {j : Nat} {a : α} (ha : t.get j = some a)
    (hp : p a = true) (hmin : ∀ k, k < j → ∀ b, t.get k = some b → p b = false) :
    t.find p = some j := by
  cases hf : t.find p with
  | none =>
    have hno := find_none hf ha
    rw [hp] at hno
    cases hno
  | some k =>
    obtain ⟨⟨b, hb, hpb⟩, hmin'⟩ := find_some hf
    rcases Nat.lt_trichotomy k j with hlt | rfl | hlt
    · have hno := hmin k hlt b hb
      rw [hpb] at hno
      cases hno
    · rfl
    · have hno := hmin' j hlt a ha
      rw [hp] at hno
      cases hno

/-- Writing an entry back that does as well on the test. -/
theorem find_set {t : SlotTable α} {p : α → Bool} {j : Nat} {a b : α} (ha : t.get j = some a)
    (hp : p b = p a) : (t.set j (some b)).find p = t.find p := by
  have back : ∀ {k c}, (t.set j (some b)).get k = some c → ∃ d, t.get k = some d ∧ p c = p d := by
    intro k c hc
    rw [get_set] at hc
    split at hc
    · rename_i he
      cases hc
      exact ⟨a, he ▸ ha, hp⟩
    · exact ⟨c, hc, rfl⟩
  have forth : ∀ {k d}, t.get k = some d → ∃ c, (t.set j (some b)).get k = some c ∧ p c = p d := by
    intro k d hd
    by_cases he : k = j
    · subst he
      cases ha.symm.trans hd
      exact ⟨b, get_set_self _ _ _, hp⟩
    · exact ⟨d, (get_set_ne _ he _).trans hd, rfl⟩
  cases hf : t.find p with
  | none =>
    cases hs : (t.set j (some b)).find p with
    | none => rfl
    | some k =>
      obtain ⟨⟨c, hc, hpc⟩, -⟩ := find_some hs
      obtain ⟨d, hd, he⟩ := back hc
      have hno := find_none hf hd
      rw [← he, hpc] at hno
      cases hno
  | some k =>
    obtain ⟨⟨d, hd, hpd⟩, hmin⟩ := find_some hf
    obtain ⟨c, hc, he⟩ := forth hd
    refine find_eq_some hc (he.trans hpd) fun k' hlt c' hc' => ?_
    obtain ⟨d', hd', he'⟩ := back hc'
    exact he'.trans (hmin k' hlt d' hd')

theorem next_some {t : SlotTable α} {i j : Nat} (h : t.next i = some j) :
    i ≤ j ∧ ∃ a, t.get j = some a := by
  obtain ⟨hle, ⟨a, ha, -⟩, -⟩ := scan_some h
  refine ⟨hle, a, get_eq_some.2 ?_⟩
  rw [List.getElem?_drop] at ha
  rwa [show i + (j - i) = j by omega] at ha

/-- Scan for the first free index, from `i` on. -/
def scanFree : Nat → List (Option α) → Nat
  | i, [] => i
  | i, none :: _ => i
  | i, some _ :: rest => scanFree (i + 1) rest

/-- The least free index from `i` on. -/
def firstFree (t : SlotTable α) (i : Nat) : Nat :=
  scanFree i (t.slots.drop i)

theorem scanFree_spec : ∀ {l : List (Option α)} {i : Nat}, i ≤ scanFree i l ∧
    (l[scanFree i l - i]?).join = none ∧
      ∀ k, i ≤ k → k < scanFree i l → ∃ a, l[k - i]? = some (some a) := by
  intro l
  induction l with
  | nil =>
    intro i
    exact ⟨Nat.le_refl _, by simp [scanFree],
      fun k h1 h2 => absurd h2 (by simp [scanFree]; omega)⟩
  | cons x l ih =>
    intro i
    cases x with
    | none =>
      exact ⟨Nat.le_refl _, by simp [scanFree],
        fun k h1 h2 => absurd h2 (by simp [scanFree]; omega)⟩
    | some a =>
      obtain ⟨hle, hfree, hused⟩ := ih (i := i + 1)
      refine ⟨by simp only [scanFree]; omega, ?_, fun k hk hlt => ?_⟩
      · simp only [scanFree]
        rw [show scanFree (i + 1) l - i = (scanFree (i + 1) l - (i + 1)) + 1 by omega]
        simpa using hfree
      · rcases Nat.eq_or_lt_of_le hk with rfl | h
        · exact ⟨a, by simp⟩
        · obtain ⟨b, hb⟩ := hused k h hlt
          refine ⟨b, ?_⟩
          rw [show k - i = (k - (i + 1)) + 1 by omega]
          simpa using hb

theorem firstFree_spec (t : SlotTable α) (i : Nat) : i ≤ t.firstFree i ∧
    t.get (t.firstFree i) = none ∧ ∀ k, i ≤ k → k < t.firstFree i → ∃ a, t.get k = some a := by
  obtain ⟨hle, hfree, hused⟩ := scanFree_spec (l := t.slots.drop i) (i := i)
  refine ⟨hle, ?_, fun k hk hlt => ?_⟩
  · rw [List.getElem?_drop] at hfree
    unfold firstFree get
    rwa [show i + (scanFree i (t.slots.drop i) - i) = scanFree i (t.slots.drop i) by omega] at hfree
  · obtain ⟨a, ha⟩ := hused k hk hlt
    rw [List.getElem?_drop, show i + (k - i) = k by omega] at ha
    exact ⟨a, get_eq_some.2 ha⟩

end SlotTable
