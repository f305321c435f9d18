import SharedValues.Kind
import SharedValues.Word

/-!
# The heap

Values live in blocks of a heap and refer to each other by address.  Every block counts the
handles to it: the ones stored in other blocks, and the ones held outside the heap.  A handle
held outside is *owned* by its holder, who has to store it in a block or to release it.

Addresses are given out in order and never a second time.

## Main definitions

* `Body`, `Block` — the content of a block, and the block with its count.
* `Body.handles` — the addresses a block refers to.
* `Heap` — the blocks, how many are live and how many have been at most.
* `Heap.alloc`, `Heap.retain`, `Heap.setBody` — the elementary steps on a heap.

## Main results

* `Heap.block?_alloc`, `Heap.block?_modify` — what the elementary steps do to each block.
-/

namespace SharedValues

/-- The place of a block in the heap. -/
abbrev Addr := Nat

/-- The header of a list. -/
structure ListHeader where
  /-- The first cell of the chain, or nothing. -/
  head : Addr
  /-- The number of elements.  A walk along the chain takes at most this many steps. -/
  size : Nat
  /-- When the parsed form was made; zero if there is none. -/
  stamp : Nat := 0
  /-- The parsed form. -/
  parsed : List Addr := []
  deriving DecidableEq, Repr

/-- What a procedure carries.  Copies of a procedure share one payload, which is told from others
by the address of the procedure it was made for. -/
structure Payload where
  /-- The procedure that the payload was made for. -/
  owner : Addr
  /-- The content. -/
  text : String
  deriving DecidableEq, Repr

/-- The content of a block. -/
inductive Body where
  /-- The value that stands for nothing. -/
  | nothing
  /-- A word. -/
  | word (w : Word)
  /-- The header of a chain. -/
  | list (l : ListHeader)
  /-- A link of a chain: an element, and the next link. -/
  | cell (item next : Addr)
  /-- A row of slots, the first of which has the index `origin`. -/
  | array (origin : Int) (slots : List Addr)
  /-- A node of a syntax tree. -/
  | node (name : Addr) (children : List Addr)
  /-- A procedure. -/
  | procedure (payload : Payload)
  /-- An error with its code, its text and the tag it was thrown with. -/
  | error (code : Int) (text tag : Addr)
  deriving DecidableEq, Repr

namespace Body

/-- The kind of value that a block holds. -/
def kind : Body → Kind
  | nothing => .nothing
  | word _ => .word
  | list _ => .list
  | cell .. => .cell
  | array .. => .array
  | node .. => .node
  | procedure _ => .procedure
  | error .. => .error

/-- The handles stored in a block, in the order in which they are given up. -/
def handles : Body → List Addr
  | nothing => []
  | word _ => []
  | list l => l.head :: l.parsed
  | cell item next => [item, next]
  | array _ slots => slots
  | node name children => name :: children
  | procedure _ => []
  | error _ text tag => [text, tag]

/-- The word in a block. -/
def word? : Body → Option Word
  | word w => some w
  | _ => none

/-- The list header in a block. -/
def list? : Body → Option ListHeader
  | list l => some l
  | _ => none

/-- The element and the next link in a block. -/
def cell? : Body → Option (Addr × Addr)
  | cell item next => some (item, next)
  | _ => none

/-- The origin and the slots in a block. -/
def array? : Body → Option (Int × List Addr)
  | array origin slots => some (origin, slots)
  | _ => none

/-- The name and the children in a block. -/
def node? : Body → Option (Addr × List Addr)
  | node name children => some (name, children)
  | _ => none

/-- The payload in a block. -/
def procedure? : Body → Option Payload
  | procedure p => some p
  | _ => none

/-- The code, the text and the tag in a block. -/
def error? : Body → Option (Int × Addr × Addr)
  | error code text tag => some (code, text, tag)
  | _ => none

end Body

/-- A block: a content, and the number of handles to it. -/
structure Block where
  /-- The content. -/
  body : Body
  /-- The number of handles. -/
  count : Nat := 1
  /-- A permanent block stays, whatever its count. -/
  permanent : Bool := false
  /-- Whether the value has been declared immutable, which nothing here enforces. -/
  frozen : Bool := false
  deriving DecidableEq, Repr

/-- A heap. -/
structure Heap where
  /-- The blocks by address; a block that was freed leaves its place empty. -/
  blocks : Array (Option Block) := #[]
  /-- The number of blocks that have not been freed. -/
  live : Nat := 0
  /-- The greatest number of live blocks since it was last asked for. -/
  peak : Nat := 0
  /-- The permanent block that stands for nothing, once it is there. -/
  nothingAt : Option Addr := none
  /-- The permanent word for truth, once it is there. -/
  trueAt : Option Addr := none
  /-- The permanent word for falsehood, once it is there. -/
  falseAt : Option Addr := none
  deriving Repr, Inhabited

namespace Heap

/-- The block at an address, if it has not been freed. -/
def block? (h : Heap) (a : Addr) : Option Block := h.blocks[a]?.join

/-- The content at an address; a place without a block reads as nothing. -/
def body (h : Heap) (a : Addr) : Body := (h.block? a).elim .nothing Block.body

/-- The kind of value at an address. -/
def kind (h : Heap) (a : Addr) : Kind := (h.body a).kind

/-- The number of handles to an address. -/
def count (h : Heap) (a : Addr) : Nat := (h.block? a).elim 0 Block.count

/-- Whether the block at an address is freed with its last handle. -/
def isDestroyable (h : Heap) (a : Addr) : Bool := (h.block? a).all (!·.permanent)

/-- Whether the value at an address has not been declared immutable. -/
def isMutable (h : Heap) (a : Addr) : Bool := (h.block? a).all (!·.frozen)

/-- A change to the block at an address. -/
def modify (h : Heap) (a : Addr) (f : Block → Block) : Heap :=
  { h with blocks := h.blocks.modify a (·.map f) }

/-- A new block at a new address, with one handle, which the caller owns.  The handles in the
body pass from the caller to the block. -/
def alloc (h : Heap) (body : Body) (permanent : Bool := false) : Addr × Heap :=
  (h.blocks.size,
    { h with
      blocks := h.blocks.push (some { body, permanent })
      live := h.live + 1
      peak := max h.peak (h.live + 1) })

/-- One more handle to an address, owned by the caller. -/
def retain (h : Heap) (a : Addr) : Heap := h.modify a fun b => { b with count := b.count + 1 }

/-- One more handle to each of some addresses. -/
def retainAll (h : Heap) (as : List Addr) : Heap := as.foldl retain h

/-- A new content for the block at an address.  The handles that only the new content has pass
from the caller to the block, the ones that only the old content had pass to the caller. -/
def setBody (h : Heap) (a : Addr) (body : Body) : Heap := h.modify a fun b => { b with body }

/-- The value at an address, declared immutable. -/
def freeze (h : Heap) (a : Addr) : Heap := h.modify a fun b => { b with frozen := true }

/-- The number of live blocks and its peak, and the heap with the peak set back. -/
def usage (h : Heap) : (Nat × Nat) × Heap := ((h.live, h.peak), { h with peak := h.live })

/-- A new block is found at the address given out, and no other block is touched. -/
theorem block?_alloc (h : Heap) (body : Body) (permanent : Bool) (a : Addr) :
    (h.alloc body permanent).2.block? a =
      if a = h.blocks.size then some { body, permanent } else h.block? a := by
  by_cases ha : a = h.blocks.size
  · simp [alloc, block?, ha]
  · simp [alloc, block?, Array.getElem?_push, ha]

/-- A change touches the block at its address only. -/
theorem block?_modify (h : Heap) (a b : Addr) (f : Block → Block) :
    (h.modify a f).block? b = if a = b then (h.block? b).map f else h.block? b := by
  by_cases hab : a = b
  · subst hab
    cases hb : h.blocks[a]? with
    | none => simp [modify, block?, Array.getElem?_modify, hb]
    | some o => cases o <;> simp [modify, block?, Array.getElem?_modify, hb]
  · simp [modify, block?, Array.getElem?_modify, hab]

@[simp] theorem block?_retain (h : Heap) (a b : Addr) :
    (h.retain a).block? b =
      if a = b then (h.block? b).map fun k => { k with count := k.count + 1 }
      else h.block? b :=
  block?_modify ..

@[simp] theorem block?_setBody (h : Heap) (a b : Addr) (body : Body) :
    (h.setBody a body).block? b =
      if a = b then (h.block? b).map fun k => { k with body } else h.block? b :=
  block?_modify ..

end Heap

end SharedValues
