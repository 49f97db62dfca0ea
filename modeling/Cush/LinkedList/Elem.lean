import Cush.Lib.LinkHeap

/-!
# Linked lists (`list.c`)

The operations on `struct list_elem`, as programs on the memory that holds the elements. A program
ends with a result or with a fault: a null pointer or an element that has been freed is
dereferenced, an assertion fails, or a loop has not come to its end within `fuel` rounds. Pointers
are addresses or null; a list is given by the addresses of its two header elements.
-/

namespace Cush.LinkedList

/-- The memory that holds the elements (`struct list_elem`). -/
abbrev Memory (α : Type) := LinkHeap α

/-- `struct list_elem *` -/
abbrev Ptr (α : Type) := Option α

/-- `struct list`: the addresses of its header elements. -/
structure ListHdr (α : Type) where
  head : α
  tail : α
  deriving Repr, DecidableEq

inductive Fault where
  | null
  | freed
  | assertion
  | fuel
  deriving Repr, DecidableEq

abbrev ListM (α : Type) := StateT (Memory α) (Except Fault)

/-! ## Reading and writing -/

section Access

variable {α : Type} [DecidableEq α]

/-- `*elem` -/
def load (elem : Ptr α) : ListM α (LinkNode α) := fun m =>
  match elem with
  | none => .error .null
  | some a =>
    match m a with
    | none => .error .freed
    | some n => .ok (n, m)

def store (elem : Ptr α) (f : LinkNode α → LinkNode α) : ListM α Unit := fun m =>
  match elem with
  | none => .error .null
  | some a => if (m a).isSome then .ok ((), m.modify a f) else .error .freed

/-- `elem->prev` -/
def getPrev (elem : Ptr α) : ListM α (Ptr α) := do
  return (← load elem).prev

/-- `elem->next` -/
def getNext (elem : Ptr α) : ListM α (Ptr α) := do
  return (← load elem).next

/-- `elem->prev = p` -/
def setPrev (elem p : Ptr α) : ListM α Unit :=
  store elem fun n => { n with prev := p }

/-- `elem->next = p` -/
def setNext (elem p : Ptr α) : ListM α Unit :=
  store elem fun n => { n with next := p }

def assert (b : Bool) : ListM α Unit := fun m =>
  if b then .ok ((), m) else .error .assertion

/-- A pointer as a C function uses it that does not check it. -/
def deref (elem : Ptr α) : ListM α α := fun m =>
  match elem with
  | none => .error .null
  | some a => .ok (a, m)

end Access

/-! ## Elements -/

section Elements

variable {α : Type} [DecidableEq α]

def isHead (elem : Ptr α) : ListM α Bool := do
  if elem.isNone then return false
  let n ← load elem
  return n.prev.isNone && n.next.isSome

def isInterior (elem : Ptr α) : ListM α Bool := do
  if elem.isNone then return false
  let n ← load elem
  return n.prev.isSome && n.next.isSome

def isTail (elem : Ptr α) : ListM α Bool := do
  if elem.isNone then return false
  let n ← load elem
  return n.prev.isSome && n.next.isNone

def listInit (list : ListHdr α) : ListM α Unit := do
  setPrev list.head none
  setNext list.head list.tail
  setPrev list.tail list.head
  setNext list.tail none

def listBegin (list : ListHdr α) : ListM α (Ptr α) :=
  getNext list.head

def listNext (elem : Ptr α) : ListM α (Ptr α) := do
  assert ((← isHead elem) || (← isInterior elem))
  getNext elem

def listEnd (list : ListHdr α) : Ptr α :=
  list.tail

def listPrev (elem : Ptr α) : ListM α (Ptr α) := do
  assert ((← isInterior elem) || (← isTail elem))
  getPrev elem

/-! ## Insertion and removal -/

def listInsert (before elem : Ptr α) : ListM α Unit := do
  assert ((← isInterior before) || (← isTail before))
  assert elem.isSome
  setPrev elem (← getPrev before)
  setNext elem before
  setNext (← getPrev before) elem
  setPrev before elem

/-- Where `first` is not `last`. -/
def listSpliceNe (before first last : Ptr α) : ListM α Unit := do
  let last ← listPrev last
  assert (← isInterior first)
  assert (← isInterior last)
  -- cleanly remove the range from its current list
  setNext (← getPrev first) (← getNext last)
  setPrev (← getNext last) (← getPrev first)
  -- splice it into the new list
  setPrev first (← getPrev before)
  setNext last before
  setNext (← getPrev before) first
  setPrev before last

def listSplice (before first last : Ptr α) : ListM α Unit := do
  assert ((← isInterior before) || (← isTail before))
  if first = last then return ()
  listSpliceNe before first last

def listPushFront (list : ListHdr α) (elem : Ptr α) : ListM α Unit := do
  listInsert (← listBegin list) elem

def listPushBack (list : ListHdr α) (elem : Ptr α) : ListM α Unit :=
  listInsert (listEnd list) elem

def listRemove (elem : Ptr α) : ListM α (Ptr α) := do
  assert (← isInterior elem)
  setNext (← getPrev elem) (← getNext elem)
  setPrev (← getNext elem) (← getPrev elem)
  getNext elem

def listEmpty (list : ListHdr α) : ListM α Bool := do
  return (← listBegin list) = listEnd list

def listFront (list : ListHdr α) : ListM α (Ptr α) := do
  assert (!(← listEmpty list))
  getNext list.head

def listBack (list : ListHdr α) : ListM α (Ptr α) := do
  assert (!(← listEmpty list))
  getPrev list.tail

def listPopFront (list : ListHdr α) : ListM α (Ptr α) := do
  let front ← listFront list
  let _ ← listRemove front
  return front

def listPopBack (list : ListHdr α) : ListM α (Ptr α) := do
  let back ← listBack list
  let _ ← listRemove back
  return back

/-! ## Whole lists -/

/-- `swap (&e->prev, &e->next)` -/
def swapLinks (e : Ptr α) : ListM α Unit := do
  let t ← getPrev e
  setPrev e (← getNext e)
  setNext e t

/-- The loop of `list_reverse`. -/
def reverseLoop (list : ListHdr α) : Nat → Ptr α → ListM α Unit
  | 0, _ => throw .fuel
  | fuel + 1, e => do
    if e = listEnd list then return ()
    swapLinks e
    reverseLoop list fuel (← getPrev e)

/-- The end of `list_reverse`, which swaps the links of the header elements, and then the links of
the first and the last element that point at these. -/
def reverseEnds (list : ListHdr α) : ListM α Unit := do
  let t ← getNext list.head
  setNext list.head (← getPrev list.tail)
  setPrev list.tail t
  let front ← getNext list.head
  let back ← getPrev list.tail
  let t ← getPrev front
  setPrev front (← getNext back)
  setNext back t

def listReverse (fuel : Nat) (list : ListHdr α) : ListM α Unit := do
  if !(← listEmpty list) then
    reverseLoop list fuel (← listBegin list)
    reverseEnds list

end Elements

end Cush.LinkedList
