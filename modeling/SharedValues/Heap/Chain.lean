import SharedValues.Fault
import SharedValues.Heap.Basic

/-!
# Walking chains

A list is a header that refers to a chain of cells.  Chains are shared between lists, and a link
can be set to any value, so a chain may run in a circle or break off at a value that is no cell.
A walk records the cells it met, and what it broke off at.

## Main definitions

* `Walk` — what a walk met.
* `Heap.chain` — a walk of a bounded number of steps.
* `Heap.lap` — a walk that ends at the first cell met twice.
* `Heap.elements` — the elements of a list or an array.
* `Heap.lastExclusive` — the last cell of a chain that nobody else holds a part of.
-/

namespace SharedValues

/-- What a walk met: the cells or the elements in order, and the kind of the value that it broke
off at, if it met one that is neither a cell nor nothing. -/
structure Walk where
  /-- What was found. -/
  found : List Addr
  /-- The kind of the link that ended the walk before its time. -/
  broken : Option Kind := none
  deriving DecidableEq, Repr

/-- The fault of a walk that broke off. -/
def Walk.fault? (w : Walk) : Option Fault :=
  w.broken.map fun k => .violated (.kindMismatch .cell k)

namespace Heap

/-- The content at an address if `select` finds it there, and a refusal otherwise. -/
def expect {α : Type} (h : Heap) (kind : Kind) (select : Body → Option α) (a : Addr) :
    Except Refusal α :=
  match select (h.body a) with
  | some x => .ok x
  | none => .error (.kindMismatch kind (h.kind a))

/-- The word at an address. -/
def word (h : Heap) (a : Addr) : Except Refusal Word := h.expect .word Body.word? a

/-- The list header at an address. -/
def list (h : Heap) (a : Addr) : Except Refusal ListHeader := h.expect .list Body.list? a

/-- The element and the next link of the cell at an address. -/
def cell (h : Heap) (a : Addr) : Except Refusal (Addr × Addr) := h.expect .cell Body.cell? a

/-- The origin and the slots of the array at an address. -/
def array (h : Heap) (a : Addr) : Except Refusal (Int × List Addr) := h.expect .array Body.array? a

/-- The name and the children of the syntax node at an address. -/
def node (h : Heap) (a : Addr) : Except Refusal (Addr × List Addr) := h.expect .node Body.node? a

/-- The payload of the procedure at an address. -/
def payload (h : Heap) (a : Addr) : Except Refusal Payload :=
  h.expect .procedure Body.procedure? a

/-- The code, the text and the tag of the error at an address. -/
def error (h : Heap) (a : Addr) : Except Refusal (Int × Addr × Addr) :=
  h.expect .error Body.error? a

/-- Whether an address holds nothing. -/
def isNothing (h : Heap) (a : Addr) : Bool := h.kind a == .nothing

/-- The element in the cell at an address. -/
def itemOf (h : Heap) (a : Addr) : Addr := ((h.body a).cell?.map Prod.fst).getD a

/-- The cells from a link on, at most `n` of them. -/
def chain (h : Heap) : Nat → Addr → Walk
  | 0, _ => ⟨[], none⟩
  | n + 1, a =>
    match h.body a with
    | .nothing => ⟨[], none⟩
    | .cell _ next =>
      let w := h.chain n next
      ⟨a :: w.found, w.broken⟩
    | body => ⟨[], some body.kind⟩

/-- The cells from a link on, up to the first one met twice.  The cells in `seen` count as met,
and `n` bounds the number of the others. -/
def lapFrom (h : Heap) : Nat → List Addr → Addr → Walk
  | 0, _, _ => ⟨[], none⟩
  | n + 1, seen, a =>
    match h.body a with
    | .nothing => ⟨[], none⟩
    | .cell _ next =>
      -- the chain has come back on itself
      if seen.contains a then ⟨[], none⟩
      else
        let w := h.lapFrom n (a :: seen) next
        ⟨a :: w.found, w.broken⟩
    | body => ⟨[], some body.kind⟩

/-- The distinct cells of a chain, in the order of its links. -/
def lap (h : Heap) (a : Addr) : Walk := h.lapFrom h.blocks.size [] a

/-- The cells of a list, no more than its size. -/
def cells (h : Heap) (l : ListHeader) : Walk := h.chain l.size l.head

/-- The elements of a list or an array; other values have none. -/
def elements (h : Heap) (a : Addr) : Walk :=
  match h.body a with
  | .list l =>
    let w := h.cells l
    ⟨w.found.map h.itemOf, w.broken⟩
  | .array _ slots => ⟨slots, none⟩
  | _ => ⟨[], none⟩

/-- The number of elements that a list or an array reports: the size a list keeps, the slots of an
array. -/
def extent (h : Heap) (a : Addr) : Nat :=
  match h.body a with
  | .list l => l.size
  | .array _ slots => slots.length
  | _ => 0

/-- The last cell of a chain, within `n` steps, if every link on the way has no other handle.
A cell that is also held elsewhere makes the whole chain count as shared. -/
def lastExclusiveWithin (h : Heap) : Nat → Addr → Except Fault Addr
  | 0, _ => .error .endless
  | n + 1, a =>
    -- the count is looked at before the kind, so a shared link is refused whatever it leads to
    if 1 < h.count a then .error (.refused .sharedCells)
    else
      match h.body a with
      | .cell _ next => if h.isNothing next then .ok a else h.lastExclusiveWithin n next
      | body => .error (.violated (.kindMismatch .cell body.kind))

/-- The last cell of a chain that nobody else holds a part of. -/
def lastExclusive (h : Heap) (head : Addr) : Except Fault Addr :=
  h.lastExclusiveWithin (h.blocks.size + 1) head

end Heap

end SharedValues
