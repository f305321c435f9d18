import SharedValues.Text.UpperCase.Table

/-!
# Upper case

The upper-case form of a text, taken character by character and without regard to
neighbouring characters.  A character may have an upper-case form of several characters, so
the form of a text can be longer than the text.

## Main definitions

* `upperChars` — the upper-case form of one character.
* `upperCase` — the upper-case form of a text.
-/

namespace SharedValues.Text

/-- The upper-case form of a character: an ASCII letter becomes its capital, any other
character goes by the tables, and a character outside them stands for itself. -/
def upperChars (c : Char) : List Char :=
  if c.toNat < 128 then [c.toUpper]
  else
    match caseExpansions.lookup c with
    | some cs => cs
    | none =>
      match caseRuns.findSome? (·.capital? c.toNat) with
      | some n => [Char.ofNat n]
      | none => [c]

/-- The upper-case form of a text. -/
def upperCase (s : String) : String := String.ofList (s.toList.flatMap upperChars)

@[simp] theorem toList_upperCase (s : String) :
    (upperCase s).toList = s.toList.flatMap upperChars := by
  simp [upperCase]

end SharedValues.Text
