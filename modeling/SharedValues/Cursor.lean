import SharedValues.Sequence

/-!
# Cursors

A cursor walks once over the elements of a list or an array or the characters of a word.  It owns
a handle to what it walks over, so that stays alive for as long as the cursor does: to the current
cell of a list, and to a whole array or word.  A sequence may be changed meanwhile; the cursor
sees it as it is when it advances.

## Main definitions

* `Cursor` — the place of a walk.
* `Cursor.start` — a cursor at the start of a sequence.
* `Cursor.hasMore`, `Cursor.sizeHint` — what is ahead.
* `Cursor.next`, `Cursor.takeNext` — advances.
-/

namespace SharedValues

/-- The place of a walk. -/
inductive Cursor where
  /-- Before the cell at `link`, with at most `remaining` cells left. -/
  | list (link : Addr) (remaining : Nat)
  /-- Before a slot of an array. -/
  | array (base : Addr) (slot : Nat)
  /-- Behind some characters of a word. -/
  | word (base : Addr) (taken : Nat)
  deriving DecidableEq, Repr

namespace Cursor

/-- The handle that a cursor owns. -/
def handle : Cursor → Addr
  | list link _ => link
  | array base _ => base
  | word base _ => base

/-- A cursor at the start of a list. -/
def ofList (l : ListHeader) : Operation Cursor := do
  return .list (← Operation.share l.head) l.size

/-- A cursor at the start of what is taken to be an array. -/
def ofArray (x : Addr) : Operation Cursor := do return .array (← Operation.share x) 0

/-- A cursor at the start of what is taken to be a word. -/
def ofWord (x : Addr) : Operation Cursor := do return .word (← Operation.share x) 0

/-- A cursor at the start of a sequence. -/
def start (x : Addr) : Operation Cursor := do
  match ← Operation.look (·.body x) with
  | .word _ => ofWord x
  | .list l => ofList l
  | .array .. => ofArray x
  | body => .unsupported .cursor body.kind

/-- The characters of what is taken to be a word. -/
def charactersOf (h : Heap) (base : Addr) : Query Fault (List Char) :=
  match h.word base with
  | .ok w => w.characters base
  | .error r => throw (.violated r)

/-- The slots of what is taken to be an array. -/
def slotsOf (h : Heap) (base : Addr) : Query Fault (List Addr) :=
  match h.array base with
  | .ok (_, slots) => return slots
  | .error r => throw (.violated r)

/-- Whether an element is ahead. -/
def hasMore (c : Cursor) (h : Heap) : Query Fault Bool :=
  match c with
  | list link remaining => return 0 < remaining && !h.isNothing link
  | array base slot => do return slot < (← slotsOf h base).length
  | word base taken => do return taken < (← charactersOf h base).length

/-- Bounds on the number of elements ahead.  Those of a word are known from the length of its text
in UTF-8, where a character takes one to four bytes. -/
def sizeHint (c : Cursor) (h : Heap) : Query Fault (Nat × Nat) :=
  match c with
  -- the chain may end before the size is reached, so there is no lower bound
  | list _ remaining => do return (0, if ← c.hasMore h then remaining else 0)
  | array base slot => do
    let left := (← slotsOf h base).length - slot
    return (left, left)
  | word base taken => do
    let left := ((← charactersOf h base).drop taken).foldl (fun n ch => n + ch.utf8Size) 0
    return ((left + 3) / 4, left)

/-- Advances over an element, if one is ahead.  The caller owns a handle to it. -/
def next (c : Cursor) : Operation (Option Addr × Cursor) := do
  if !(← Operation.ask c.hasMore) then return (none, c)
  match c with
  | list link remaining => do
    let (item, rest) ← Operation.assert (·.cell link)
    -- the link is given up last, as it may be the only handle to the rest
    Operation.alter fun h => ((h.retain rest).retain item).release link
    return (some item, .list rest (remaining - 1))
  | array base slot => do
    let slots ← Operation.ask (slotsOf · base)
    match slots[slot]? with
    | some item => return (some (← Operation.share item), .array base (slot + 1))
    | none => return (none, c)
  | word base taken => do
    let cs ← Operation.ask (charactersOf · base)
    match cs[taken]? with
    | some ch => return (some (← Word.ofCharacters [ch]), .word base (taken + 1))
    | none => return (none, c)

/-- The kind of sequence that a cursor walks over. -/
def containerKind (c : Cursor) (h : Heap) : Kind :=
  match c with
  | list .. => .list
  | array base _ => h.kind base
  | word base _ => h.kind base

/-- Advances over the element that was promised to be ahead. -/
def takeNext (c : Cursor) : Operation (Addr × Cursor) := do
  match ← c.next with
  | (some item, c) => return (item, c)
  | (none, c) =>
    throw (.violated (.emptySequence .takeNext (← Operation.look c.containerKind)))

end Cursor

end SharedValues
