import SharedValues.Query.Containment
import SharedValues.Store

/-!
# Arrays

The slots of an array are numbered from its origin, which may be any integer.  Arrays do not share
slots: every array made from another is a copy, and keeps its origin.

## Main definitions

* `Row` — the origin and the slots of an array.
* `Row.slotOf?` — the slot that an index means.
* `Row.item`, `last`, `part`, `butFirst`, `butLast`, `fromMember` — parts of an array.
* `Row.setItem`, `setFirst`, `setButFirst`, `append` — changes in place.
-/

namespace SharedValues

/-- The origin and the slots of an array. -/
structure Row where
  /-- The index of the first slot. -/
  origin : Int
  /-- The slots. -/
  slots : List Addr
  deriving DecidableEq, Repr

namespace Row

/-- The array with these slots. -/
def body (r : Row) : Body := .array r.origin r.slots

/-- The array at an address. -/
def at? (h : Heap) (x : Addr) : Except Refusal Row := do
  let (origin, slots) ← h.array x
  return { origin, slots }

/-- The difference of two integers of 64 bits, if it is one as well. -/
def checkedSub (a b : Int) : Option Int :=
  let d := a - b
  let bound : Nat := 1 <<< 63
  if -bound ≤ d ∧ d < bound then some d else none

/-- The slot that an index means, if it means one.  The index is first counted from the origin, as
an integer of 64 bits. -/
def slotOf? (r : Row) (index : Int) : Option Nat := do
  let slot ← checkedSub index r.origin
  if 0 ≤ slot ∧ slot < r.slots.length then some slot.toNat else none

/-- Whether an index means a slot. -/
def inRange (r : Row) (index : Int) : Bool := (r.slotOf? index).isSome

/-- The slot that an index means, with the value in it. -/
def slotAt (r : Row) (index : Int) : Except Fault (Nat × Addr) :=
  match r.slotOf? index with
  | some slot => .ok (slot, r.slots.getD slot 0)
  | none => .error (.refused (.outOfRange .array index r.slots.length))

/-- The slots of an array that must have some. -/
def someSlots (op : Op) (r : Row) : Except Fault (List Addr) :=
  if r.slots.isEmpty then .error (.refused (.emptySequence op .array)) else .ok r.slots

/-- A copy with other slots. -/
def copy (r : Row) (slots : List Addr) : Operation Addr :=
  Operation.create { r with slots }.body

/-- The value at an index. -/
def item (r : Row) (index : Int) : Operation Addr := do
  let (_, value) ← Operation.check fun _ => r.slotAt index
  Operation.share value

/-- The origin, as a new word. -/
def first (r : Row) : Operation Addr := Operation.make (·.number (.ofInt r.origin))

/-- The value in the last slot. -/
def last (r : Row) : Operation Addr := do
  let slots ← Operation.check fun _ => r.someSlots .last
  Operation.share (slots.getLastD 0)

/-- A copy of the slots from `start` up to and without `stop`.  A part that is not there is
refused with the index of `stop`. -/
def part (r : Row) (start stop : Nat) : Operation Addr := do
  if start ≤ stop ∧ stop ≤ r.slots.length then
    r.copy ((r.slots.take stop).drop start)
  else
    -- the end is named as a signed index, so one that is too large comes out below zero
    throw (.refused (.outOfRange .array (r.origin + Int.bmod stop (1 <<< 64)) r.slots.length))

/-- A copy of all slots but the first. -/
def butFirst (r : Row) : Operation Addr := do
  let slots ← Operation.check fun _ => r.someSlots .butFirst
  r.part 1 slots.length

/-- A copy of all slots but the last. -/
def butLast (r : Row) : Operation Addr := do
  let slots ← Operation.check fun _ => r.someSlots .butLast
  r.part 0 (slots.length - 1)

/-- A copy of the slots from the first one on whose value equals another, or of none. -/
def fromMember (ignoreCase : Bool) (x : Addr) (r : Row) (value : Addr) : Operation Addr := do
  let i ← Operation.ask (·.memberAt ignoreCase x value)
  r.copy (r.slots.drop (i.getD r.slots.length))

/-- Puts another value into a slot. -/
def setSlot (x : Addr) (r : Row) (slot : Nat) (value old : Addr) : Operation Unit :=
  Operation.alter fun h =>
    ((h.retain value).setBody x { r with slots := r.slots.set slot value }.body).release old

/-- Replaces the value at an index. -/
def setItem (x : Addr) (r : Row) (index : Int) (value : Addr) : Operation Unit := do
  let (slot, old) ← Operation.check fun _ => r.slotAt index
  r.setSlot x slot value old

/-- Replaces the value in the first slot. -/
def setFirst (x : Addr) (r : Row) (value : Addr) : Operation Unit := do
  let slots ← Operation.check fun _ => r.someSlots .setFirst
  r.setSlot x 0 value (slots.headD 0)

/-- Keeps the first slot, and replaces the others by a copy of the slots of another array. -/
def setButFirst (x : Addr) (r : Row) (value : Addr) : Operation Unit := do
  let rest ← Operation.demand (at? · value)
  let slots ← Operation.check fun _ => r.someSlots .setButFirst
  -- the slots taken over are retained before the old ones go, as the arrays may be the same
  let changed := { r with slots := slots.take 1 ++ rest.slots }.body
  Operation.alter fun h => ((h.retainAll rest.slots).setBody x changed).releaseAll slots.tail

/-- Adds a slot at the end. -/
def append (x : Addr) (r : Row) (value : Addr) : Operation Unit :=
  Operation.alter fun h =>
    (h.retain value).setBody x { r with slots := r.slots ++ [value] }.body

/-- A new array of the elements of a list. -/
def ofElements (origin : Int) (x : Addr) : Operation Addr := do
  let w ← Operation.look (·.elements x)
  match w.fault? with
  | some f => throw f
  | none => Operation.create (Row.body { origin, slots := w.found })

end Row

end SharedValues
