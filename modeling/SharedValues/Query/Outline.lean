import SharedValues.Heap.Chain
import SharedValues.Heap.Settled

/-!
# Outlines

The outline of a value is the structure reachable from it, as a tree.  Values are numbered in the
order in which they are first met, and one that is met again appears as its number.  A list is
walked to its end before its elements are drawn, so a broken chain is a fault ahead of any fault
inside the elements.  Drawing an outline settles no word.

## Main definitions

* `Outline` — the tree.
* `Heap.outline` — the outline of a value.
-/

namespace SharedValues

/-- The structure reachable from a value. -/
inductive Outline where
  /-- A value met before, by its number. -/
  | again (number : Nat)
  /-- A word made from a number. -/
  | number (value : Binary64)
  /-- A word made from a text. -/
  | text (raw : String)
  /-- A settled word. -/
  | clean (raw : String) (value : Binary64)
  /-- A list. -/
  | list (isEmpty : Bool) (elements : List Outline) (size : Nat)
  /-- An array. -/
  | array (origin : Int) (elements : List Outline)
  /-- A syntax node: its name and its children. -/
  | node (parts : List Outline)
  /-- An error: its text and its tag. -/
  | error (code : Int) (parts : List Outline)
  /-- A cell: its element and its next link. -/
  | cell (parts : List Outline)
  /-- Any other value. -/
  | other (kind : Kind)
  deriving Repr, Inhabited

namespace Heap

/-- A traversal that keeps the values met so far, the last one first, and may fail.  A value's
number is the number of values met before it. -/
abbrev Numbering := StateT (List Addr) (Except Fault)

/-- The outline of the value at an address, within `n` levels. -/
def outlineWithin (h : Heap) (settled : Settled) : Nat → Addr → Numbering Outline
  | 0, _ => throw .endless
  | n + 1, x => do
    let met ← get
    match met.findIdx? (· == x) with
    | some i => return .again (met.length - 1 - i)
    | none =>
      -- the value is numbered before its parts, which may lead back to it
      set (x :: met)
      let draw := h.outlineWithin settled n
      match h.body x with
      | .word w =>
        match w.freshness (settled.contains x) with
        | .number => return .number w.value
        | .text => return .text w.raw
        | .clean => return .clean w.raw w.value
      | .list l =>
        let w := h.elements x
        match w.fault? with
        | some f => throw f
        | none => return .list (h.isNothing l.head) (← w.found.mapM draw) l.size
      | .array origin slots => return .array origin (← slots.mapM draw)
      | .node name children => return .node (← (name :: children).mapM draw)
      | .error code text tag => return .error code (← [text, tag].mapM draw)
      | .cell item next => return .cell (← [item, next].mapM draw)
      | body => return .other body.kind

/-- The outline of the value at an address.  Every level numbers another value, so there are no
more levels than blocks. -/
def outline (h : Heap) (settled : Settled) (x : Addr) : Except Fault Outline :=
  (h.outlineWithin settled (h.blocks.size + 2) x).run' []

end Heap

end SharedValues
