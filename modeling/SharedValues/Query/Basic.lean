import SharedValues.Heap.Chain
import SharedValues.Heap.Settled

/-!
# Queries

A query reads a heap that it cannot change.  All it does is to settle the words whose forms it
asks for, and what it has settled stays settled even if it ends in a fault.

## Main definitions

* `Query` — a reading of the heap that may end in an `ε`.
* `rawText`, `numberOf` — the forms of a word, asked for.
* `Heap.wordsEqual` — the comparison of two words.
* `Heap.wordSeek?` — the search for one word in another.
-/

namespace SharedValues

/-- A reading of a fixed heap that settles words and may end in an `ε`. -/
abbrev Query (ε α : Type) := ExceptT ε (StateM Settled) α

namespace Query

variable {ε : Type}

/-- Settles the word at an address. -/
def settle (a : Addr) : Query ε Unit := modify (·.insert a)

/-- Whether the word at an address is settled. -/
def isSettled (a : Addr) : Query ε Bool := do return (← get).contains a

/-- The raw text of the word `w` at an address.  Asking for it settles a number. -/
def rawText (a : Addr) (w : Word) : Query ε String := do
  if w.isNumber then settle a
  return w.raw

/-- The number of the word `w` at an address.  Asking for it settles a text that spells one. -/
def numberOf (a : Addr) (w : Word) : Query ε Binary64 := do
  if !w.isNumber && w.number?.isSome then settle a
  return w.value

/-- Whether the words `v` and `w` at two addresses are equal.  As soon as one of them is treated
as a number, both are compared as numbers; otherwise their texts are compared. -/
def wordsEqual (ignoreCase : Bool) (a : Addr) (v : Word) (b : Addr) (w : Word) :
    Query ε Bool := do
  if v.isNumeric (← isSettled a) then
    let n ← numberOf b w
    return w.number?.isSome && v.value.equals n
  else if w.isNumeric (← isSettled b) then
    let n ← numberOf a v
    return v.number?.isSome && n.equals w.value
  else
    return Word.sameText ignoreCase v w

/-- The rest of the word `hay` from the leftmost occurrence of `needle` on. -/
def wordSeek? (ignoreCase : Bool) (a : Addr) (hay : Word) (b : Addr) (needle : Word) :
    Query ε (Option String) := do
  let _ ← rawText a hay
  let _ ← rawText b needle
  return hay.seek? ignoreCase needle

/-- The written form of the word `w` at an address. -/
def renderWord (a : Addr) (w : Word) (o : PrintOptions) : Query ε String := do
  let settled ← isSettled a
  if w.isNumber then settle a
  return w.render settled o

end Query

end SharedValues
