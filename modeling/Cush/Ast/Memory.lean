import Cush.Ast
import Cush.Lib.Separation
import Cush.LinkedList.Elem
import Mathlib.Algebra.Order.BigOperators.Group.List
import Mathlib.Algebra.Order.Group.Nat

/-!
# Command lines in memory (`shell-ast.c`)

The structures of `shell-ast.h` and of the parser as blocks that `malloc` returns, with the list
elements and headers that are members of them, and the functions that make command lines, add to
them and free them. A program faults where it follows a null pointer or one to a block that has been
freed, frees a block twice, or fails an assertion of `list.c`.
-/

namespace Cush.AstMemory

open LinkedList Separation

/-! ## Memory -/

/-- An address that `malloc` returns. -/
abbrev Address := Nat

/-- A block, or a member of it: the element that links it, or the header elements of its list. -/
inductive Place where
  | block (a : Address)
  | elem (a : Address)
  | head (a : Address)
  | tail (a : Address)
  deriving Repr, DecidableEq

def Place.address : Place → Address
  | .block a | .elem a | .head a | .tail a => a

/-- `struct ast_command` -/
structure CommandBlock where
  argv : Ptr Address
  dupStderrToStdout : Bool
  deriving Repr, DecidableEq

/-- `struct ast_pipeline` -/
structure PipelineBlock where
  ioredInput : Ptr Address
  ioredOutput : Ptr Address
  appendToOutput : Bool
  bgJob : Bool
  deriving Repr, DecidableEq

/-- `struct cmd_helper`; `words` is the chunk of the obstack. -/
structure HelperBlock where
  words : Ptr Address
  ioredInput : Ptr Address
  ioredOutput : Ptr Address
  appendToOutput : Bool
  redirectStderr : Bool
  deriving Repr, DecidableEq

/-- What a block holds besides its members. -/
inductive Block where
  | text (w : Word)
  /-- an array of pointers, or the object that grows in an obstack -/
  | array (ptrs : List (Ptr Address))
  | command (c : CommandBlock)
  | pipeline (p : PipelineBlock)
  | commandLine
  | cmdHelper (c : HelperBlock)
  | pipeHelper
  deriving Repr, DecidableEq

/-- The members of a block at `a`. -/
def Block.members (a : Address) : Block → List Place
  | .text _ | .array _ => []
  | .command _ | .cmdHelper _ => [.elem a]
  | .pipeline _ => [.elem a, .head a, .tail a]
  | .commandLine | .pipeHelper => [.head a, .tail a]

def Block.array? : Block → Option (List (Ptr Address))
  | .array ptrs => some ptrs
  | _ => none

def Block.command? : Block → Option CommandBlock
  | .command c => some c
  | _ => none

def Block.pipeline? : Block → Option PipelineBlock
  | .pipeline p => some p
  | _ => none

def Block.cmdHelper? : Block → Option HelperBlock
  | .cmdHelper c => some c
  | _ => none

inductive Cell where
  | block (b : Block)
  | link (n : LinkNode Place)

/-- The members of a block have its address. -/
theorem Block.address_of_mem_members {a : Address} {b : Block} {p : Place}
    (h : p ∈ b.members a) : p.address = a := by
  cases b <;> simp only [members, List.mem_cons, List.not_mem_nil, or_false] at h
  case command | cmdHelper =>
    subst h
    rfl
  case pipeline => rcases h with rfl | rfl | rfl <;> rfl
  case commandLine | pipeHelper => rcases h with rfl | rfl <;> rfl

/-- The heap, and what `malloc` has returned so far. -/
structure Memory where
  heap : Heap Place Cell
  returned : List Address
  known : ∀ p, heap p ≠ none → p.address ∈ returned

/-- What `malloc` may do: the address that it returns, which is not in use, and the links that are
in memory there. -/
structure Allocator where
  place : Memory → Address
  fresh : ∀ s p, p.address = place s → s.heap p = none
  links : Memory → Place → LinkNode Place

/-- One that returns ever greater addresses. -/
def Allocator.ascending : Allocator where
  place s := s.returned.sum + 1
  fresh s p hp := by
    by_contra hne
    have hle : p.address ≤ s.returned.sum := List.le_sum_of_mem (s.known p hne)
    exact absurd (hp ▸ hle) (Nat.not_succ_le_self _)
  links _ _ := ⟨none, none⟩

abbrev AstM := StateT Memory (Except Fault)

/-! ## Blocks -/

/-- What is in the block that `p` points at. An address with a block of another kind is one that has
been freed. -/
def getBlock {β : Type} (kind : Block → Option β) (p : Ptr Address) : AstM β := fun s =>
  match p with
  | none => .error .null
  | some a =>
    match s.heap (.block a) with
    | some (.block b) =>
      match kind b with
      | some v => .ok (v, s)
      | none => .error .freed
    | _ => .error .freed

/-- Change the cell at a place that is in use. -/
def Memory.setCell (s : Memory) (p : Place) (c : Cell) (h : s.heap p ≠ none) : Memory where
  heap := Function.update s.heap p (some c)
  returned := s.returned
  known q hq := by
    by_cases hqp : q = p
    · exact hqp ▸ s.known p h
    · exact s.known q (by rwa [Function.update_of_ne hqp] at hq)

/-- Assign to fields of the structure that `p` points at. -/
def setBlock (p : Ptr Address) (b : Block) : AstM Unit := fun s =>
  match p with
  | none => .error .null
  | some a =>
    if h : s.heap (.block a) ≠ none then .ok ((), s.setCell (.block a) (.block b) h)
    else .error .freed

/-- The heap with a new block at `a`, and its members. -/
def addBlock (links : Place → LinkNode Place) (heap : Heap Place Cell) (a : Address) (b : Block) :
    Heap Place Cell := fun p =>
  if p = .block a then some (.block b)
  else if p ∈ b.members a then some (.link (links p))
  else heap p

/-- The heap without the block at `a` and its members. -/
def removeBlock (heap : Heap Place Cell) (a : Address) (b : Block) : Heap Place Cell := fun p =>
  if p = .block a ∨ p ∈ b.members a then none else heap p

/-- `malloc`, and the assignments that the code makes to the members of the new block at once. -/
def malloc (alloc : Allocator) (b : Block) : AstM Address := fun s =>
  let a := alloc.place s
  .ok (a,
    { heap := addBlock (alloc.links s) s.heap a b
      returned := a :: s.returned
      known := fun p hp => by
        unfold addBlock at hp
        split at hp
        · next h => exact h ▸ List.mem_cons_self
        · split at hp
          · next h => exact Block.address_of_mem_members h ▸ List.mem_cons_self
          · exact List.mem_cons_of_mem _ (s.known p hp) })

/-- `free`, which does nothing for a null pointer. -/
def free (p : Ptr Address) : AstM Unit := fun s =>
  match p with
  | none => .ok ((), s)
  | some a =>
    match s.heap (.block a) with
    | some (.block b) =>
      .ok ((),
        { heap := removeBlock s.heap a b
          returned := s.returned
          known := fun p hp => by
            unfold removeBlock at hp
            split at hp
            · exact absurd rfl hp
            · exact s.known p hp })
    | _ => .error .freed

def strdup (alloc : Allocator) (w : Word) : AstM Address :=
  malloc alloc (.text w)

/-! ## Lists -/

/-- The list elements and headers of a heap. -/
def links (heap : Heap Place Cell) : LinkedList.Memory Place := fun p =>
  match heap p with
  | some (.link n) => some n
  | _ => none

/-- The same heap with the links of `m`. -/
def relink (heap : Heap Place Cell) (m : LinkedList.Memory Place) : Heap Place Cell := fun p =>
  match heap p, m p with
  | some (.link _), some n => some (.link n)
  | c, _ => c

theorem relink_ne_none {heap : Heap Place Cell} {m : LinkedList.Memory Place} {p : Place}
    (h : relink heap m p ≠ none) : heap p ≠ none := by
  intro hn
  simp only [relink, hn] at h
  exact h rfl

/-- A call of a function of `list.c`. -/
def onLists {β : Type} (x : ListM Place β) : AstM β := fun s =>
  match x (links s.heap) with
  | .error f => .error f
  | .ok (v, m) =>
    .ok (v,
      { heap := relink s.heap m
        returned := s.returned
        known := fun p hp => s.known p (relink_ne_none hp) })

/-- The list whose header is a member of the block at `a`. -/
def listOf (a : Address) : ListHdr Place :=
  ⟨.head a, .tail a⟩

/-- `list_entry`. That a pointer to a header or null is taken for an element is not noticed by the
code; here it is a fault. -/
def listEntry (e : Ptr Place) : AstM Address :=
  match e with
  | some (.elem a) => pure a
  | _ => throw .null

/-- A bound on the rounds of a loop: a list has no more elements than there have been blocks. -/
def rounds : AstM Nat := fun s =>
  .ok (s.returned.length + 1, s)

/-! ## Making command lines -/

section Functions

variable (alloc : Allocator)

def astCommandCreate (argv : Ptr Address) (dupStderrToStdout : Bool) : AstM Address :=
  malloc alloc (.command ⟨argv, dupStderrToStdout⟩)

def astPipelineCreate (ioredInput ioredOutput : Ptr Address) (appendToOutput : Bool) :
    AstM Address := do
  let pipe ← malloc alloc (.pipeline ⟨ioredInput, ioredOutput, appendToOutput, false⟩)
  onLists (listInit (listOf pipe))
  return pipe

def astPipelineAddCommand (pipe cmd : Address) : AstM Unit :=
  onLists (listPushBack (listOf pipe) (some (.elem cmd)))

def astCommandLineCreateEmpty : AstM Address := do
  let cmdline ← malloc alloc .commandLine
  onLists (listInit (listOf cmdline))
  return cmdline

def astCommandLineCreate (pipe : Address) : AstM Address := do
  let cmdline ← astCommandLineCreateEmpty alloc
  onLists (listPushBack (listOf cmdline) (some (.elem pipe)))
  return cmdline

end Functions

/-! ## Freeing them -/

/-- The loop over the words of a command, from the `i`-th on. -/
def freeWords (argv : Ptr Address) : Nat → Nat → AstM Unit
  | 0, _ => throw .fuel
  | fuel + 1, i => do
    match (← getBlock Block.array? argv)[i]? with
    | none => throw .freed
    | some none => return ()
    | some word =>
      free word
      freeWords argv fuel (i + 1)

def astCommandFree (cmd : Address) : AstM Unit := do
  let c ← getBlock Block.command? cmd
  freeWords c.argv (← rounds) 0
  let c ← getBlock Block.command? cmd
  free c.argv
  free (some cmd)

/-- The loop that takes each element out of a list and frees what it is embedded in. -/
def freeElements (list : ListHdr Place) (freeEntry : Address → AstM Unit) :
    Nat → Ptr Place → AstM Unit
  | 0, _ => throw .fuel
  | fuel + 1, e => do
    if e = listEnd list then return ()
    let entry ← listEntry e
    let e ← onLists (listRemove e)
    freeEntry entry
    freeElements list freeEntry fuel e

def astPipelineFree (pipe : Address) : AstM Unit := do
  let e ← onLists (listBegin (listOf pipe))
  freeElements (listOf pipe) astCommandFree (← rounds) e
  let p ← getBlock Block.pipeline? pipe
  free p.ioredInput
  let p ← getBlock Block.pipeline? pipe
  free p.ioredOutput
  free (some pipe)

def astCommandLineFree (cmdline : Address) : AstM Unit := do
  let e ← onLists (listBegin (listOf cmdline))
  freeElements (listOf cmdline) astPipelineFree (← rounds) e
  free (some cmdline)

end Cush.AstMemory
