import SharedValues.Sequence.Array
import SharedValues.Sequence.List
import SharedValues.Sequence.Word

/-!
# Sequences

The operations that words, lists and arrays have in common.  Words and lists count from one,
arrays from their origin.  A value of a kind that lacks an operation refuses it.

## Main definitions

* `Sequence.size`, `Sequence.inRange`, `Sequence.isEmpty` — what can be asked of a sequence.
* `Sequence.item`, `first`, `last`, `butFirst`, `butLast`, `fromMember` — its parts.
* `Sequence.setItem`, `setFirst`, `setButFirst` — changes in place.
-/

namespace SharedValues.Sequence

/-- The number of elements. -/
def size (x : Addr) (h : Heap) : Query Fault Nat :=
  match h.body x with
  | .word w => do return (← w.characters x).length
  | .list l => return l.size
  | .array _ slots => return slots.length
  | .node _ children => return children.length
  | body => throw (.refused (.unsupported .size body.kind))

/-- Whether an index means an element.  The size of a word is not asked for when the index is
below one. -/
def inRange (x : Addr) (index : Int) (h : Heap) : Query Fault Bool :=
  match h.body x with
  | .word w => do
    if index < 1 then return false
    return index ≤ (← w.characters x).length
  | .list l => return l.inRange index
  | .array origin slots => return Row.inRange { origin, slots } index
  | body => throw (.refused (.unsupported .inRange body.kind))

/-- Whether there are no elements.  A list is empty if its chain is, whatever its size. -/
def isEmpty (x : Addr) (h : Heap) : Query Fault Bool :=
  match h.body x with
  | .word w => do return (← w.characters x).isEmpty
  | .array _ slots => return slots.isEmpty
  | .list l => return h.isNothing l.head
  | body => throw (.violated (.kindMismatch .list body.kind))

/-- The element at an index. -/
def item (x : Addr) (index : Int) : Operation Addr := do
  match ← Operation.look (·.body x) with
  | .word w => w.item x index
  | .list l => l.item index
  | .array origin slots => Row.item { origin, slots } index
  | body => .unsupported .item body.kind

/-- The first element.  The first of an array is its origin, and the first of a syntax node is
nothing. -/
def first (x : Addr) : Operation Addr := do
  match ← Operation.look (·.body x) with
  | .word w => w.first x
  | .list l => l.first
  | .array origin slots => Row.first { origin, slots }
  | .node .. => .make (·.nothing)
  | body => .unsupported .first body.kind

/-- The last element. -/
def last (x : Addr) : Operation Addr := do
  match ← Operation.look (·.body x) with
  | .word w => w.last x
  | .list l => l.last
  | .array origin slots => Row.last { origin, slots }
  | body => .unsupported .last body.kind

/-- Everything but the first element. -/
def butFirst (x : Addr) : Operation Addr := do
  match ← Operation.look (·.body x) with
  | .word w => w.butFirst x
  | .list l => l.butFirst
  | .array origin slots => Row.butFirst { origin, slots }
  | body => .unsupported .butFirst body.kind

/-- Everything but the last element. -/
def butLast (x : Addr) : Operation Addr := do
  match ← Operation.look (·.body x) with
  | .word w => w.butLast x
  | .list l => l.butLast
  | .array origin slots => Row.butLast { origin, slots }
  | body => .unsupported .butLast body.kind

/-- Everything from the first element on that equals a value, or an empty sequence. -/
def fromMember (ignoreCase : Bool) (x value : Addr) : Operation Addr := do
  match ← Operation.look (·.body x) with
  | .word w => do
    let v ← Operation.demand (·.word value)
    w.fromMember ignoreCase x value v
  | .list l => l.fromMember ignoreCase x value
  | .array origin slots => Row.fromMember ignoreCase x { origin, slots } value
  | body => .unsupported .fromMember body.kind

/-- Replaces the element at an index. -/
def setItem (x : Addr) (index : Int) (value : Addr) : Operation Unit := do
  match ← Operation.look (·.body x) with
  | .list l => l.setItem x index value
  | .array origin slots => Row.setItem x { origin, slots } index value
  | body => .unsupported .setItem body.kind

/-- Replaces the first element. -/
def setFirst (x value : Addr) : Operation Unit := do
  match ← Operation.look (·.body x) with
  | .list l => l.setFirst x value
  | .array origin slots => Row.setFirst x { origin, slots } value
  | body => .unsupported .setFirst body.kind

/-- Replaces everything but the first element by the content of a value of the same kind. -/
def setButFirst (x value : Addr) : Operation Unit := do
  match ← Operation.look (·.body x) with
  | .list l => l.setButFirst x value
  | .array origin slots => Row.setButFirst x { origin, slots } value
  | body => .unsupported .setButFirst body.kind

end SharedValues.Sequence
