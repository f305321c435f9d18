import SharedValues.Query.Equality

/-!
# Containment and membership

A value is *contained* in a sequence if it is met, as the very same block, on some way down
through the elements of lists and arrays; a word is also contained in every word that has it as a
part.  It is a *member* if one of the elements equals it.

## Main definitions

* `Heap.contains` — containment.
* `Heap.firstMatch` — the first of some elements that passes a test.
* `Heap.isMember` — membership.
-/

namespace SharedValues.Heap

/-- Looks through the elements of a walk one after the other, each with the sequences already
`seen`, until one holds what is sought. -/
def searchWalk (search : List Addr → Addr → Query Fault (Bool × List Addr)) :
    List Addr → Option Fault → List Addr → Query Fault (Bool × List Addr)
  | [], some f, _ => throw f
  | [], none, seen => return (false, seen)
  | x :: xs, f, seen => do
    let (found, seen) ← search seen x
    if found then return (true, seen) else searchWalk search xs f seen

/-- Looks for a value in the one at an address, within `n` levels.  Sequences already seen are
not entered again. -/
def searchWithin (h : Heap) (ignoreCase : Bool) (needle : Addr) :
    Nat → List Addr → Addr → Query Fault (Bool × List Addr)
  | 0, _, _ => throw .endless
  | n + 1, seen, x =>
    match h.body x with
    | .word w =>
      match h.body needle with
      | .word v => do return ((← Query.wordSeek? ignoreCase x w needle v).isSome, seen)
      | _ => return (false, seen)
    | .list _ | .array .. =>
      if seen.contains x then return (false, seen)
      else
        -- an element is compared with the needle by identity; only words are searched for a text
        let w := h.elements x
        let search := fun seen e =>
          if e = needle then return (true, seen) else h.searchWithin ignoreCase needle n seen e
        searchWalk search w.found w.fault? (x :: seen)
    | _ => return (false, seen)

/-- Whether the value at an address contains another.  Every level enters a sequence not seen
before, so there are no more levels than blocks. -/
def contains (h : Heap) (ignoreCase : Bool) (x needle : Addr) : Query Fault Bool :=
  match h.kind x with
  | .word | .list | .array => do
    return (← h.searchWithin ignoreCase needle (h.blocks.size + 2) [] x).1
  | k => throw (.refused (.unsupported .contains k))

/-- The position of the first element of a walk that passes a test. -/
def firstMatch (test : Addr → Query Fault Bool) :
    List Addr → Option Fault → Nat → Query Fault (Option Nat)
  | [], some f, _ => throw f
  | [], none, _ => return none
  | x :: xs, f, i => do if ← test x then return some i else firstMatch test xs f (i + 1)

/-- The position of the first member of a sequence that equals a value. -/
def memberAt (h : Heap) (ignoreCase : Bool) (x value : Addr) : Query Fault (Option Nat) :=
  let w := h.elements x
  firstMatch (fun e => h.equal ignoreCase e value) w.found w.fault? 0

/-- Whether a value is an element of the one at an address, or a part of the word there. -/
def isMember (h : Heap) (ignoreCase : Bool) (x value : Addr) : Query Fault Bool :=
  match h.body x with
  | .word w =>
    match h.body value with
    | .word v => do return (← Query.wordSeek? ignoreCase x w value v).isSome
    | _ => return false
  | .list _ => do
    -- the value stands on the left here, and on the right when its place is asked for
    let w := h.elements x
    return (← firstMatch (fun e => h.equal ignoreCase value e) w.found w.fault? 0).isSome
  | .array .. => do return (← h.memberAt ignoreCase x value).isSome
  | body => throw (.refused (.unsupported .isMember body.kind))

end SharedValues.Heap
