import SharedValues.Text.UpperCase

/-!
# Searching a text

A search answers with the rest of the text from the leftmost match on.  With letter case
ignored, two characters match when their upper-case forms are the same, so a match has as many
characters as the text sought.

## Main definitions

* `sameLetter` — two characters that differ at most in case.
* `startsLike` — whether a text starts with a match.
* `fromMatch?` — the rest of a text from its leftmost match on.
-/

namespace SharedValues.Text

/-- Two characters with the same upper-case form. -/
def sameLetter (a b : Char) : Bool := upperChars a == upperChars b

/-- Whether the first characters of `hay` match those of `needle` one by one. -/
def startsLike (same : Char → Char → Bool) : List Char → List Char → Bool
  | _, [] => true
  | [], _ :: _ => false
  | h :: hay, n :: needle => same h n && startsLike same hay needle

/-- The first ending of `hay` that has a character and starts like `needle`. -/
def fromMatch? (same : Char → Char → Bool) (needle : List Char) : List Char → Option (List Char)
  | [] => none
  | h :: hay =>
    if startsLike same (h :: hay) needle then some (h :: hay) else fromMatch? same needle hay

/-- The rest of `hay` from the leftmost occurrence of `needle` on.  The empty text occurs
everywhere, save that a search which ignores case finds nothing in the empty text. -/
def seek? (ignoreCase : Bool) (hay needle : List Char) : Option (List Char) :=
  if ignoreCase then fromMatch? sameLetter needle hay
  else if needle.isEmpty then some hay
  else fromMatch? (· == ·) needle hay

end SharedValues.Text
