import Cush.Lib.SlotTable

/-!
# Descriptor tables

A process's table of file descriptors over an arbitrary type of open files. A new descriptor is the
lowest free one, a duplicate is kept across `exec` whatever the original is, and `exec` closes the
descriptors marked close-on-exec. `get_openAt` is what opening a file *at* a given descriptor comes
to, although the file is first opened wherever there is room.
-/

/-- A descriptor: the open file it refers to, and whether `exec` closes it. -/
structure FdEntry (α : Type) where
  file : α
  cloexec : Bool
  deriving Repr, DecidableEq

abbrev FdTable (α : Type) := SlotTable (FdEntry α)

namespace FdTable

variable {α : Type} (t : FdTable α)

/-- The open file of a descriptor. -/
def file (fd : Nat) : Option α :=
  (t.get fd).map FdEntry.file

def close (fd : Nat) : FdTable α :=
  t.set fd none

/-- Open a file at the lowest free descriptor. -/
def openLowest (f : α) : Nat × FdTable α :=
  let fd := t.firstFree 0
  (fd, t.set fd (some ⟨f, false⟩))

/-- `dup2`; none where `fd` is not open. -/
def dup2 (fd newfd : Nat) : Option (FdTable α) :=
  match t.get fd with
  | none => none
  | some e => if fd = newfd then some t else some (t.set newfd (some ⟨e.file, false⟩))

/-- Take the close-on-exec mark off a descriptor; none where it is not open. -/
def keepOnExec (fd : Nat) : Option (FdTable α) :=
  match t.get fd with
  | none => none
  | some e => some (t.set fd (some { e with cloexec := false }))

/-- The table after a successful `exec`. -/
def exec : FdTable α :=
  ⟨t.slots.map fun x => x.filter fun e => !e.cloexec⟩

variable {t}

theorem get_exec (fd : Nat) : t.exec.get fd = (t.get fd).filter fun e => !e.cloexec := by
  unfold exec SlotTable.get
  rw [List.getElem?_map]
  cases t.slots[fd]? <;> rfl

theorem get_close (fd i : Nat) : (t.close fd).get i = if i = fd then none else t.get i :=
  t.get_set fd none i

theorem get_dup2 {fd newfd : Nat} {e : FdEntry α} (h : t.get fd = some e) (hne : fd ≠ newfd) :
    ∃ t', t.dup2 fd newfd = some t' ∧
      ∀ i, t'.get i = if i = newfd then some ⟨e.file, false⟩ else t.get i := by
  refine ⟨t.set newfd (some ⟨e.file, false⟩), by simp [dup2, h, hne], fun i => ?_⟩
  exact t.get_set newfd _ i

/-- Close `fd`, open a file at the lowest free descriptor, and move it to `fd` if it is not there
already. -/
def openAt (t : FdTable α) (fd : Nat) (f : α) : Option (FdTable α) :=
  let (ret, t') := (t.close fd).openLowest f
  if ret = fd then some t' else (t'.dup2 ret fd).map fun t => close t ret

theorem get_openAt (t : FdTable α) (fd : Nat) (f : α) :
    ∃ t', t.openAt fd f = some t' ∧
      ∀ i, t'.get i = if i = fd then some ⟨f, false⟩ else t.get i := by
  obtain ⟨-, hfree, -⟩ := (t.close fd).firstFree_spec 0
  generalize hret : (t.close fd).firstFree 0 = ret at hfree
  have hlow : (t.close fd).openLowest f = (ret, (t.close fd).set ret (some ⟨f, false⟩)) := by
    simp only [openLowest, hret]
  have hget : ∀ i, ((t.close fd).set ret (some ⟨f, false⟩)).get i =
      if i = ret then some ⟨f, false⟩ else if i = fd then none else t.get i := by
    intro i
    rw [SlotTable.get_set, get_close]
  unfold openAt
  rw [hlow]
  dsimp only
  by_cases hfd : ret = fd
  · refine ⟨_, if_pos hfd, fun i => ?_⟩
    rw [hget, hfd]
    by_cases hi : i = fd <;> simp [hi]
  · have hopen : ((t.close fd).set ret (some ⟨f, false⟩)).get ret = some ⟨f, false⟩ := by
      rw [hget, if_pos rfl]
    obtain ⟨t', ht', hget'⟩ := get_dup2 hopen hfd
    rw [if_neg hfd, ht']
    refine ⟨close t' ret, rfl, fun i => ?_⟩
    rw [get_close, hget', hget]
    rw [get_close, if_neg hfd] at hfree
    by_cases hi : i = ret
    · subst hi
      simp [hfd, hfree]
    · by_cases hf : i = fd <;> simp [hi, hf, Ne.symm hfd]

/-! ## Tables that agree -/

/-- The same descriptors are open, for the same files. -/
def Agree (t t' : FdTable α) : Prop :=
  ∀ fd, t.get fd = t'.get fd

theorem Agree.exec {t t' : FdTable α} (h : t.Agree t') : t.exec.Agree t'.exec := by
  intro fd
  rw [get_exec, get_exec, h fd]

end FdTable
