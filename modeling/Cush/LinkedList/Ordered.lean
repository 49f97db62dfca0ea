import Cush.LinkedList.Elem

/-!
# Ordered lists (`list.c`)

The operations that compare elements by a `list_less_func`, which reads what the elements are part
of and not their links. Each loop is given as many rounds as its `fuel`.
-/

namespace Cush.LinkedList

variable {α : Type} [DecidableEq α] (less : α → α → Bool)

/-- `less (a, b, aux)` -/
def callLess (a b : Ptr α) : ListM α Bool := do
  return less (← deref a) (← deref b)

/-! ## Sorting -/

/-- The loop of `is_sorted`. -/
def isSortedLoop (b : Ptr α) : Nat → Ptr α → ListM α Bool
  | 0, _ => throw .fuel
  | fuel + 1, a => do
    let a ← listNext a
    if a = b then return true
    if ← callLess less a (← listPrev a) then return false
    isSortedLoop b fuel a

def isSorted (fuel : Nat) (a b : Ptr α) : ListM α Bool :=
  if a = b then return true else isSortedLoop less b fuel a

/-- The loop of `find_end_of_run`. -/
def findEndOfRunLoop (b : Ptr α) : Nat → Ptr α → ListM α (Ptr α)
  | 0, _ => throw .fuel
  | fuel + 1, a => do
    let a ← listNext a
    if a = b then return a
    if ← callLess less a (← listPrev a) then return a
    findEndOfRunLoop b fuel a

def findEndOfRun (fuel : Nat) (a b : Ptr α) : ListM α (Ptr α) := do
  assert a.isSome
  assert b.isSome
  assert (a != b)
  findEndOfRunLoop less b fuel a

/-- The loop of `inplace_merge`. -/
def inplaceMergeLoop (b1 : Ptr α) : Nat → Ptr α → Ptr α → ListM α Unit
  | 0, _, _ => throw .fuel
  | fuel + 1, a0, a1b0 => do
    if a0 = a1b0 || a1b0 = b1 then return ()
    if !(← callLess less a1b0 a0) then
      inplaceMergeLoop b1 fuel (← listNext a0) a1b0
    else
      let a1b0 ← listNext a1b0
      listSplice a0 (← listPrev a1b0) a1b0
      inplaceMergeLoop b1 fuel a0 a1b0

def inplaceMerge (fuel : Nat) (a0 a1b0 b1 : Ptr α) : ListM α Unit := do
  assert a0.isSome
  assert a1b0.isSome
  assert b1.isSome
  assert (← isSorted less fuel a0 a1b0)
  assert (← isSorted less fuel a1b0 b1)
  inplaceMergeLoop less b1 fuel a0 a1b0

/-- One pass over the list, the inner loop of `list_sort`, which counts the runs that it puts out.
-/
def sortPass (fuel : Nat) (list : ListHdr α) : Nat → Ptr α → Nat → ListM α Nat
  | 0, _, _ => throw .fuel
  | rounds + 1, a0, outputRunCnt => do
    if a0 = listEnd list then return outputRunCnt
    let a1b0 ← findEndOfRun less fuel a0 (listEnd list)
    if a1b0 = listEnd list then return outputRunCnt + 1
    let b1 ← findEndOfRun less fuel a1b0 (listEnd list)
    inplaceMerge less fuel a0 a1b0 b1
    sortPass fuel list rounds b1 (outputRunCnt + 1)

/-- The outer loop of `list_sort`. -/
def sortLoop (fuel : Nat) (list : ListHdr α) : Nat → ListM α Unit
  | 0 => throw .fuel
  | rounds + 1 => do
    let outputRunCnt ← sortPass less fuel list fuel (← listBegin list) 0
    if outputRunCnt > 1 then sortLoop fuel list rounds

def listSort (fuel : Nat) (list : ListHdr α) : ListM α Unit := do
  sortLoop less fuel list fuel
  assert (← isSorted less fuel (← listBegin list) (listEnd list))

/-! ## Ordered insertion -/

/-- The loop of `list_insert_ordered`, which stops at the first element that `elem` is less than. -/
def insertOrderedLoop (list : ListHdr α) (elem : Ptr α) : Nat → Ptr α → ListM α (Ptr α)
  | 0, _ => throw .fuel
  | fuel + 1, e => do
    if e = listEnd list then return e
    if ← callLess less elem e then return e
    insertOrderedLoop list elem fuel (← listNext e)

def listInsertOrdered (fuel : Nat) (list : ListHdr α) (elem : Ptr α) : ListM α Unit := do
  assert elem.isSome
  listInsert (← insertOrderedLoop less list elem fuel (← listBegin list)) elem

/-! ## Duplicates -/

/-- The loop of `list_unique`. -/
def uniqueLoop (list : ListHdr α) (duplicates : Option (ListHdr α)) :
    Nat → Ptr α → ListM α Unit
  | 0, _ => throw .fuel
  | fuel + 1, elem => do
    let next ← listNext elem
    if next = listEnd list then return ()
    if !(← callLess less elem next) && !(← callLess less next elem) then
      let _ ← listRemove next
      match duplicates with
      | some dup => listPushBack dup next
      | none => pure ()
      uniqueLoop list duplicates fuel elem
    else
      uniqueLoop list duplicates fuel next

def listUnique (fuel : Nat) (list : ListHdr α) (duplicates : Option (ListHdr α)) :
    ListM α Unit := do
  if ← listEmpty list then return ()
  uniqueLoop less list duplicates fuel (← listBegin list)

/-! ## Extremes -/

/-- The loop of `list_max` and `list_min`: `better e best` is how `e` takes the place of `best`. -/
def extremeLoop (better : α → α → Bool) (list : ListHdr α) :
    Nat → Ptr α → Ptr α → ListM α (Ptr α)
  | 0, _, _ => throw .fuel
  | fuel + 1, best, e => do
    if e = listEnd list then return best
    let best ← (do if ← callLess better e best then return e else return best)
    extremeLoop better list fuel best (← listNext e)

def listExtreme (better : α → α → Bool) (fuel : Nat) (list : ListHdr α) : ListM α (Ptr α) := do
  let best ← listBegin list
  if best = listEnd list then return best
  extremeLoop better list fuel best (← listNext best)

def listMax (fuel : Nat) (list : ListHdr α) : ListM α (Ptr α) :=
  listExtreme (fun e max => less max e) fuel list

def listMin (fuel : Nat) (list : ListHdr α) : ListM α (Ptr α) :=
  listExtreme (fun e min => less e min) fuel list

end Cush.LinkedList
