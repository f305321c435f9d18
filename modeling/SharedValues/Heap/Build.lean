import SharedValues.Heap.Release

/-!
# Building values

The ways to make new values.  Handles given to a builder pass into the new value, and the caller
owns the handle that comes back.
-/

namespace SharedValues.Heap

/-- A text word. -/
def text (h : Heap) (raw : String) (special : Bool := false) : Addr × Heap :=
  h.alloc (.word (.text raw special))

/-- A number word. -/
def number (h : Heap) (value : Binary64) : Addr × Heap := h.alloc (.word (.number value))

/-- A fresh chain of cells for some elements, ended by nothing.  The cells are made from the last
one to the first. -/
def chainOf (h : Heap) (items : List Addr) : Addr × Heap :=
  items.foldr (fun item (next, h) => h.alloc (.cell item next)) h.nothing

/-- A list of some elements on a fresh chain. -/
def listOf (h : Heap) (items : List Addr) : Addr × Heap :=
  let (head, h) := h.chainOf items
  h.alloc (.list { head, size := items.length })

/-- An array of some elements. -/
def arrayOf (h : Heap) (origin : Int) (items : List Addr) : Addr × Heap :=
  h.alloc (.array origin items)

/-- A procedure with a payload of its own. -/
def procedure (h : Heap) (text : String) : Addr × Heap :=
  h.alloc (.procedure { owner := h.blocks.size, text })

/-- One new value for each of some descriptions, in order. -/
def each {α : Type} (make : Heap → α → Addr × Heap) (xs : List α) (h : Heap) :
    List Addr × Heap :=
  let (made, h) := xs.foldl (fun (made, h) x =>
    let (a, h) := make h x
    (a :: made, h)) ([], h)
  (made.reverse, h)

/-- A list of text words. -/
def words (h : Heap) (raws : List String) : Addr × Heap :=
  let (items, h) := each (fun h raw => h.text raw) raws h
  h.listOf items

/-- A list of number words. -/
def numbers (h : Heap) (values : List Binary64) : Addr × Heap :=
  let (items, h) := each number values h
  h.listOf items

/-- An array of text words. -/
def wordArray (h : Heap) (origin : Int) (raws : List String) : Addr × Heap :=
  let (items, h) := each (fun h raw => h.text raw) raws h
  h.arrayOf origin items

/-- An array of number words. -/
def numberArray (h : Heap) (origin : Int) (values : List Binary64) : Addr × Heap :=
  let (items, h) := each number values h
  h.arrayOf origin items

/-- An array of fresh empty lists. -/
def emptyArray (h : Heap) (origin : Int) (size : Nat) : Addr × Heap :=
  let (items, h) := each (fun h _ => h.listOf []) (List.range size) h
  h.arrayOf origin items

/-- A list of two elements, the word and such a list of one level less; the innermost list is
empty. -/
def nested (h : Heap) (raw : String) (depth : Nat) : Addr × Heap :=
  match depth with
  | 0 => h.listOf []
  | depth + 1 =>
    let (inner, h) := h.nested raw depth
    let (word, h) := h.text raw
    h.listOf [word, inner]

end SharedValues.Heap
