import Cush.Ast
import Cush.Lib.FdTable

/-!
# File actions (`spawni.c`)

A child executes its file actions in order on a copy of the shell's descriptor table; one that fails
makes the spawn fail. `exec` then closes what is marked close-on-exec. The array of descriptors
`handle_job` works with may hold any integers; those that can be no descriptors of the process are
refused when an action is added.
-/

namespace Cush

/-- A number in the array of descriptors. -/
abbrev Fd := Int

/-- The `oflag` of an open action. -/
inductive OpenMode where
  | readOnly
  | truncate
  | append
  deriving Repr, DecidableEq

inductive FileAction where
  | open (fd : Nat) (path : Word) (oflag : OpenMode)
  | dup2 (fd newfd : Nat)
  deriving Repr, DecidableEq

abbrev FileActions := List FileAction

def STDIN_FILENO : Nat := 0
def STDOUT_FILENO : Nat := 1
def STDERR_FILENO : Nat := 2

/-- The answer of `sysconf` for `_SC_OPEN_MAX`: every descriptor is below it. The terminal has been
opened at the lowest free one, 3. -/
structure OpenMax where
  val : Nat
  terminal : 3 < val
  deriving Repr, DecidableEq

def OpenMax.usual : OpenMax :=
  ⟨1024, by decide⟩

/-- `__spawn_valid_fd` -/
def spawnValidFd (openMax : OpenMax) (fd : Fd) : Bool :=
  0 ≤ fd && fd < openMax.val

theorem not_spawnValidFd {openMax : OpenMax} {fd : Fd} :
    ¬ spawnValidFd openMax fd = true ↔ fd < 0 ∨ openMax.val ≤ fd := by
  rw [spawnValidFd, Bool.and_eq_true, decide_eq_true_iff, decide_eq_true_iff, not_and_or,
    Int.not_le, Int.not_lt]

/-- The standard descriptors are valid. -/
theorem spawnValidFd_std (openMax : OpenMax) {fd : Nat} (h : fd ≤ STDERR_FILENO) :
    spawnValidFd openMax fd = true := by
  have hlt : fd < openMax.val := Nat.lt_of_le_of_lt h (Nat.lt_of_succ_lt openMax.terminal)
  simpa [spawnValidFd] using hlt

namespace FileActions

/-- `posix_spawn_file_actions_addopen`; for an invalid descriptor nothing is added. -/
def addopen (openMax : OpenMax) (fa : FileActions) (fd : Nat) (path : Word) (oflag : OpenMode) :
    FileActions :=
  if spawnValidFd openMax fd then fa ++ [.open fd path oflag] else fa

/-- `posix_spawn_file_actions_adddup2`; for an invalid descriptor nothing is added. -/
def adddup2 (openMax : OpenMax) (fa : FileActions) (fd : Fd) (newfd : Nat) : FileActions :=
  if spawnValidFd openMax fd && spawnValidFd openMax newfd then fa ++ [.dup2 fd.toNat newfd]
  else fa

theorem addopen_std (openMax : OpenMax) (fa : FileActions) {fd : Nat} (h : fd ≤ STDERR_FILENO)
    (path : Word) (oflag : OpenMode) :
    fa.addopen openMax fd path oflag = fa ++ [.open fd path oflag] :=
  if_pos (spawnValidFd_std openMax h)

/-- Onto a standard descriptor. -/
theorem adddup2_std (openMax : OpenMax) (fa : FileActions) (fd : Fd) {newfd : Nat}
    (h : newfd ≤ STDERR_FILENO) :
    fa.adddup2 openMax fd newfd =
      if spawnValidFd openMax fd then fa ++ [.dup2 fd.toNat newfd] else fa := by
  rw [adddup2, spawnValidFd_std openMax h, Bool.and_true]

theorem adddup2_stderr (openMax : OpenMax) (fa : FileActions) :
    fa.adddup2 openMax STDOUT_FILENO STDERR_FILENO = fa ++ [.dup2 STDOUT_FILENO STDERR_FILENO] := by
  rw [adddup2_std openMax fa _ (Nat.le_refl _)]
  exact if_pos (spawnValidFd_std openMax (by decide))

end FileActions

/-- The open files a child can have: those of the shell, the ends of the pipes of its pipeline, and
those its own file actions open. Two opens of one path are told apart by the position of their
actions. -/
inductive OpenFile where
  | shell (n : Nat)
  | pipeRead (k : Nat)
  | pipeWrite (k : Nat)
  | opened (path : Word) (oflag : OpenMode) (action : Nat)
  deriving Repr, DecidableEq

def OpenFile.IsPipeEnd : OpenFile → Prop
  | .pipeRead _ | .pipeWrite _ => True
  | _ => False

/-- One action, where opening files succeeds; `cnt` is its position. A duplication of a descriptor
to itself takes its close-on-exec mark off. -/
def FileAction.execute (cnt : Nat) (t : FdTable OpenFile) : FileAction → Option (FdTable OpenFile)
  | .open fd path oflag => t.openAt fd (.opened path oflag cnt)
  | .dup2 fd newfd => if fd = newfd then t.keepOnExec fd else t.dup2 fd newfd

def executeFrom (cnt : Nat) (t : FdTable OpenFile) : FileActions → Option (FdTable OpenFile)
  | [] => some t
  | a :: rest => (a.execute cnt t).bind fun t => executeFrom (cnt + 1) t rest

/-- The descriptor table of a child after its file actions and `exec`. -/
def spawniChild (t : FdTable OpenFile) (fa : FileActions) : Option (FdTable OpenFile) :=
  (executeFrom 0 t fa).map FdTable.exec

end Cush
