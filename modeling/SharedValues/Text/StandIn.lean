/-!
# Stand-in characters

Brackets, blanks, quotes and the like mean something to a reader of program text.  Where such a
character was escaped, a word stores a control character that stands in for it, so that the word
is never read apart again.  When the word is displayed, the stand-in gives way to the character
it stands for.

## Main definitions

* `standIns` — the stand-ins, each with its visible character.
* `reveal`, `conceal` — from a stand-in to its visible character, and back.
* `revealAll`, `concealAll` — the same, through a text.
-/

namespace SharedValues.Text

/-- The stand-ins in ascending order, each with the visible character it stands for. -/
def standIns : List (Char × Char) := [
  ('\x02', ':'), ('\x03', ' '), ('\x04', '\t'), ('\x05', '\n'), ('\x06', '('), ('\x0b', '?'),
  ('\x0e', '+'), ('\x0f', '~'), ('\x10', ')'), ('\x11', '['), ('\x12', ']'), ('\x13', '-'),
  ('\x14', '*'), ('\x15', '/'), ('\x16', '='), ('\x17', '<'), ('\x18', '>'), ('\x19', '\x22'),
  ('\x1a', '\\'), ('\x1c', ';'), ('\x1d', '|'), ('\x1e', '\x7b'), ('\x1f', '\x7d')]

/-- A character below the blank.  Every stand-in is one. -/
def isControl (c : Char) : Bool := c < ' '

/-- The visible character behind a stand-in; any other character is left alone. -/
def reveal (c : Char) : Char := (standIns.lookup c).getD c

/-- The stand-in for a visible character; a character that has none is left alone. -/
def conceal (c : Char) : Char :=
  ((standIns.find? (·.2 == c)).map Prod.fst).getD c

/-- A text with every stand-in replaced by its visible character. -/
def revealAll (s : String) : String := String.ofList (s.toList.map reveal)

/-- A text with every character that has a stand-in replaced by it. -/
def concealAll (s : String) : String := String.ofList (s.toList.map conceal)

@[simp] theorem toList_revealAll (s : String) : (revealAll s).toList = s.toList.map reveal := by
  simp [revealAll]

@[simp] theorem toList_concealAll (s : String) : (concealAll s).toList = s.toList.map conceal := by
  simp [concealAll]

end SharedValues.Text
