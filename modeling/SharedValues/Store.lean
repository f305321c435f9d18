import SharedValues.Heap.Build
import SharedValues.Query.Basic

/-!
# The store

A store is a heap together with its settled words.  An operation works on a store and may end in
a fault; what it did to the store before the fault stays.

All operations keep one rule about handles: the addresses they are given are borrowed, so that
what an operation stores it retains first, and a value they return comes with a handle that the
caller owns.

## Main definitions

* `Store`, `Operation` — the state, and a step that may fail.
* `Operation.ask`, `Operation.check`, `Operation.alter`, `Operation.make` — the ways to read
  and to change a store.
* `Operation.holding` — a step that owns a handle until it ends.
-/

namespace SharedValues

/-- A heap with its settled words. -/
structure Store where
  /-- The heap. -/
  heap : Heap := {}
  /-- The settled words. -/
  settled : Settled := {}
  deriving Repr, Inhabited

/-- A step on a store that may end in a fault. -/
abbrev Operation (α : Type) := ExceptT Fault (StateM Store) α

namespace Operation

/-- Puts a query to the heap. -/
def ask {α : Type} (q : Heap → Query Fault α) : Operation α :=
  fun s =>
    let (result, settled) := (q s.heap).run s.settled
    (result, { s with settled })

/-- Looks at the heap. -/
def look {α : Type} (f : Heap → α) : Operation α := do return f (← get).heap

/-- Looks at the heap and stops at a fault. -/
def check {α : Type} (f : Heap → Except Fault α) : Operation α := fun s => (f s.heap, s)

/-- Looks at the heap and stops at a refusal. -/
def demand {α : Type} (f : Heap → Except Refusal α) : Operation α :=
  check fun h => (f h).mapError .refused

/-- Looks at the heap, a refusal being a violation. -/
def assert {α : Type} (f : Heap → Except Refusal α) : Operation α :=
  check fun h => (f h).mapError .violated

/-- Changes the heap. -/
def alter (f : Heap → Heap) : Operation Unit := modify fun s => { s with heap := f s.heap }

/-- Makes something on the heap. -/
def make {α : Type} (f : Heap → α × Heap) : Operation α :=
  modifyGet fun s =>
    let (a, heap) := f s.heap
    (a, { s with heap })

/-- A new value, whose stored handles are new too. -/
def create (body : Body) : Operation Addr := do
  alter (·.retainAll body.handles)
  make (·.alloc body)

/-- A handle to an existing value. -/
def share (a : Addr) : Operation Addr := do
  alter (·.retain a)
  return a

/-- Gives up a handle. -/
def release (a : Addr) : Operation Unit := alter (·.release a)

/-- Runs a step, and gives up an owned handle when it ends, whatever its outcome. -/
def holding {α : Type} (a : Addr) (step : Operation α) : Operation α :=
  fun s =>
    let (result, s) := step.run s
    (result, { s with heap := s.heap.release a })

/-- Runs a step, and gives up some owned handles when it ends, whatever its outcome. -/
def holdingAll {α : Type} (as : List Addr) (step : Operation α) : Operation α :=
  fun s =>
    let (result, s) := step.run s
    (result, { s with heap := s.heap.releaseAll as })

/-- Runs a step, and gives up an owned handle if the step ends in a fault. -/
def keeping {α : Type} (a : Addr) (step : Operation α) : Operation α :=
  fun s =>
    match step.run s with
    | (.ok x, s) => (.ok x, s)
    | (.error f, s) => (.error f, { s with heap := s.heap.release a })

/-- Runs a step that was promised to apply. -/
def promised {α : Type} (step : Operation α) : Operation α :=
  fun s =>
    let (result, s) := step.run s
    (result.mapError Fault.promised, s)

/-- Refuses an operation on values that do not have it. -/
def unsupported {α : Type} (op : Op) (kind : Kind) : Operation α :=
  throw (.refused (.unsupported op kind))

end Operation

end SharedValues
