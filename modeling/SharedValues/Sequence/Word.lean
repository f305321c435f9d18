import SharedValues.Store

/-!
# Words as sequences

A word is a sequence of characters, numbered from one; an element of it is a word of one
character.  The words made here are new.
-/

namespace SharedValues.Word

/-- The characters of the word `w` at an address. -/
def characters (x : Addr) (w : Word) : Query Fault (List Char) := do
  return (← Query.rawText x w).toList

/-- A new word with the given characters. -/
def ofCharacters (cs : List Char) : Operation Addr := .make (·.text (String.ofList cs))

/-- The characters of a word that must have some. -/
def someCharacters (op : Op) (x : Addr) (w : Word) : Operation (List Char) := do
  let cs ← Operation.ask fun _ => characters x w
  if cs.isEmpty then throw (.refused (.emptySequence op .word))
  return cs

/-- The character at an index. -/
def item (x : Addr) (w : Word) (index : Int) : Operation Addr := do
  let cs ← Operation.ask fun _ => characters x w
  match if 1 ≤ index then cs[index.toNat - 1]? else none with
  | some c => ofCharacters [c]
  | none => throw (.refused (.outOfRange .word index cs.length))

/-- The first character. -/
def first (x : Addr) (w : Word) : Operation Addr := do
  ofCharacters ((← someCharacters .first x w).take 1)

/-- The last character. -/
def last (x : Addr) (w : Word) : Operation Addr := do
  ofCharacters (← someCharacters .last x w).getLast?.toList

/-- All characters but the first. -/
def butFirst (x : Addr) (w : Word) : Operation Addr := do
  ofCharacters ((← someCharacters .butFirst x w).drop 1)

/-- All characters but the last. -/
def butLast (x : Addr) (w : Word) : Operation Addr := do
  ofCharacters (← someCharacters .butLast x w).dropLast

/-- The part from the leftmost occurrence of another word on, or the empty word. -/
def fromMember (ignoreCase : Bool) (x : Addr) (w : Word) (y : Addr) (v : Word) :
    Operation Addr := do
  let rest ← Operation.ask fun _ => Query.wordSeek? ignoreCase x w y v
  .make (·.text (rest.getD ""))

end SharedValues.Word
