import SharedValues.Query.Containment
import SharedValues.Store

/-!
# Lists

Lists share their cells: everything but the first element of a list is a new header on the same
chain, and an element put in front is one new cell.  An element replaced in one list is
replaced in every list on the same cell.  A list that is changed forgets its parsed form.

A list is extended at its end only if nobody else holds a part of its chain, because every other
holder would see the new element too.

## Main definitions

* `ListHeader.item`, `first`, `last`, `butFirst`, `butLast`, `fromMember` — parts of a list.
* `ListHeader.cons`, `prepend`, `append` — new elements.
* `ListHeader.setItem`, `setFirst`, `setButFirst`, `clear` — changes in place.
* `ListHeader.recount` — the size counted anew.
-/

namespace SharedValues.ListHeader

/-- The first link of a chain that must not be empty. -/
def someHead (op : Op) (l : ListHeader) (h : Heap) : Except Fault Addr :=
  if h.isNothing l.head then .error (.refused (.emptySequence op .list)) else .ok l.head

/-- The first cell of a chain that must not be empty, with its element and its next link. -/
def firstCell (op : Op) (l : ListHeader) (h : Heap) : Except Fault (Addr × Addr × Addr) := do
  let head ← l.someHead op h
  let (item, next) ← (h.cell head).mapError .violated
  return (head, item, next)

/-- Whether an index, counted from one, is within the size. -/
def inRange (l : ListHeader) (index : Int) : Bool := 1 ≤ index && index ≤ l.size

/-- The cell at an index. -/
def cellAt (l : ListHeader) (index : Int) (h : Heap) : Except Fault Addr :=
  let w := h.cells l
  if !l.inRange index then .error (.refused (.outOfRange .list index l.size))
  else
    -- the chain may be shorter than the size, or break off before the index
    match w.found[index.toNat - 1]?, w.fault? with
    | some c, _ => .ok c
    | none, some f => .error f
    | none, none => .error (.refused (.outOfRange .list index l.size))

/-- The last cell that a walk along the list reaches. -/
def lastCell (l : ListHeader) (h : Heap) : Except Fault Addr := do
  let head ← l.someHead .last h
  let w := h.cells l
  match w.fault? with
  | some f => throw f
  | none => return w.found.getLast?.getD head

/-- The number of distinct cells of a chain. -/
def distinctCells (head : Addr) (h : Heap) : Except Fault Nat :=
  let w := h.lap head
  match w.fault? with
  | some f => .error f
  | none => .ok w.found.length

/-- The element at an index. -/
def item (l : ListHeader) (index : Int) : Operation Addr := do
  let c ← Operation.check (l.cellAt index)
  Operation.share (← Operation.look (·.itemOf c))

/-- The first element. -/
def first (l : ListHeader) : Operation Addr := do
  let (_, item, _) ← Operation.check (l.firstCell .first)
  Operation.share item

/-- The last element. -/
def last (l : ListHeader) : Operation Addr := do
  let c ← Operation.check l.lastCell
  let (item, _) ← Operation.assert (·.cell c)
  Operation.share item

/-- A list of all elements but the first, on the same cells. -/
def butFirst (l : ListHeader) : Operation Addr := do
  let (_, _, next) ← Operation.check (l.firstCell .butFirst)
  Operation.create (.list { head := next, size := l.size - 1 })

/-- A list of all elements but the last, on fresh cells. -/
def butLast (l : ListHeader) : Operation Addr := do
  let _ ← Operation.check (l.someHead .butLast)
  let w ← Operation.look (·.chain (l.size - 1) l.head)
  match w.fault? with
  | some f => throw f
  | none =>
    -- the items are retained before the new cells take them over
    let items ← Operation.look fun h => w.found.map h.itemOf
    Operation.alter (·.retainAll items)
    Operation.make (·.listOf items)

/-- A list from the first cell on whose element equals a value, on the same cells, or an empty
list. -/
def fromMember (ignoreCase : Bool) (x : Addr) (l : ListHeader) (value : Addr) :
    Operation Addr := do
  match ← Operation.ask (·.memberAt ignoreCase x value) with
  | none => Operation.make (·.listOf [])
  | some i =>
    -- the head of the new list is the cell itself, shared with the list
    let head ← Operation.look fun h => (h.cells l).found.getD i l.head
    let size ← Operation.check (distinctCells head)
    Operation.create (.list { head, size })

/-- Another list on the same cells. -/
def shared (l : ListHeader) : Operation Addr :=
  Operation.create (.list { head := l.head, size := l.size })

/-- A list with one more element in front, on the same cells. -/
def cons (l : ListHeader) (item : Addr) : Operation Addr := do
  let head ← Operation.create (.cell item l.head)
  Operation.make (·.alloc (.list { head, size := l.size + 1 }))

/-- Gives a list another head and size, and makes it forget its parsed form.  The new head comes
with a handle that passes to the list, the old one's handle passes to the caller. -/
def replace (x : Addr) (l : ListHeader) (head : Addr) (size : Nat) : Operation Unit :=
  Operation.alter fun h => (h.setBody x (.list { head, size })).releaseAll l.parsed

/-- Puts another element into a cell. -/
def setCellItem (c value : Addr) : Operation Unit := do
  let (item, next) ← Operation.assert (·.cell c)
  Operation.alter fun h => ((h.retain value).setBody c (.cell value next)).release item

/-- Links a cell to another value. -/
def setCellNext (c value : Addr) : Operation Unit := do
  let (item, next) ← Operation.assert (·.cell c)
  Operation.alter fun h => ((h.retain value).setBody c (.cell item value)).release next

/-- Puts an element in front of a list.  Other lists on the same cells do not see it. -/
def prepend (x : Addr) (l : ListHeader) (item : Addr) : Operation Unit := do
  let item ← Operation.share item
  let head ← Operation.make (·.alloc (.cell item l.head))
  replace x l head (l.size + 1)

/-- Puts an element behind the last one.  The new cell is made first, and given up again if the
chain is not the list's own. -/
def append (x : Addr) (l : ListHeader) (item : Addr) : Operation Unit := do
  let item ← Operation.share item
  let nothing ← Operation.make (·.nothing)
  let c ← Operation.make (·.alloc (.cell item nothing))
  if ← Operation.look (·.isNothing l.head) then
    replace x l c (l.size + 1)
    Operation.release l.head
  else
    let last ← Operation.keeping c (Operation.check (·.lastExclusive l.head))
    Operation.holding c (setCellNext last c)
    replace x l l.head (l.size + 1)

/-- Replaces the element at an index. -/
def setItem (x : Addr) (l : ListHeader) (index : Int) (value : Addr) : Operation Unit := do
  let c ← Operation.check (l.cellAt index)
  setCellItem c value
  replace x l l.head l.size

/-- Replaces the first element. -/
def setFirst (x : Addr) (l : ListHeader) (value : Addr) : Operation Unit := do
  let (c, _, _) ← Operation.check (l.firstCell .setFirst)
  setCellItem c value
  replace x l l.head l.size

/-- Links the first cell to the chain of another list. -/
def setButFirst (x : Addr) (l : ListHeader) (value : Addr) : Operation Unit := do
  let rest ← Operation.demand (·.list value)
  let (c, _, _) ← Operation.check (l.firstCell .setButFirst)
  setCellNext c rest.head
  -- only the size of this list is brought up to date; others with the cell keep theirs
  replace x l l.head (rest.size + 1)

/-- Takes all elements from a list. -/
def clear (x : Addr) (l : ListHeader) : Operation Unit := do
  let nothing ← Operation.make (·.nothing)
  replace x l nothing 0
  Operation.release l.head

/-- Counts the distinct cells of a list and makes their number its size. -/
def recount (x : Addr) (l : ListHeader) : Operation Nat := do
  let size ← Operation.check (distinctCells l.head)
  Operation.alter (·.setBody x (.list { l with size }))
  return size

/-- Gives a list a parsed form, made at the time `stamp`. -/
def setParsed (x : Addr) (l : ListHeader) (stamp : Nat) (parsed : List Addr) : Operation Unit :=
  Operation.alter fun h =>
    ((h.retainAll parsed).setBody x (.list { l with stamp, parsed })).releaseAll l.parsed

/-- A list of the elements of an array, on fresh cells. -/
def ofSlots (slots : List Addr) : Operation Addr := do
  Operation.alter (·.retainAll slots)
  Operation.make (·.listOf slots)

end SharedValues.ListHeader
