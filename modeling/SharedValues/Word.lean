import SharedValues.Number.Format
import SharedValues.PrintOptions
import SharedValues.Text.Search
import SharedValues.Text.StandIn

/-!
# Words

A word is a text or a number, and can serve as either.  Which of the two it was made from stays
visible until its other form has been asked for; from then on it is *settled*: both forms are
known, and it is treated as a number.  Whether a word is settled is not part of the word, so the
functions that depend on it take it as an argument.

## Main definitions

* `Word` — a text or a number.
* `Word.raw`, `Word.printable`, `Word.key`, `Word.number?` — the forms of a word.
* `Word.isNumeric` — whether a word is treated as a number.
* `Word.render` — the written form of a word.
-/

namespace SharedValues

/-- A word, as it was made. -/
inductive Word where
  /-- A text.  A special text is one that a reader of programs must not read apart again. -/
  | text (raw : String) (special : Bool)
  /-- A number. -/
  | number (value : Binary64)
  deriving DecidableEq, Repr

/-- Which forms of a word are known. -/
inductive Freshness where
  /-- Made from a number whose text has not been asked for. -/
  | number
  /-- Made from a text that is no number, or has not been asked for one. -/
  | text
  /-- Both forms are known. -/
  | clean
  deriving DecidableEq, Repr

namespace Word

/-- The raw text, stand-ins included. -/
def raw : Word → String
  | .text raw _ => raw
  | .number value => formatNumber value

/-- The text with its stand-ins revealed. -/
def printable (w : Word) : String := Text.revealAll w.raw

/-- The upper-case printable text, by which names are looked up. -/
def key (w : Word) : String := Text.upperCase w.printable

/-- The number that a word is or that its printable text spells. -/
def number? : Word → Option Binary64
  | .text raw _ => SharedValues.number? (Text.revealAll raw)
  | .number value => some value

/-- The number of a word, zero standing for none. -/
def value (w : Word) : Binary64 := w.number?.getD .zero

/-- Whether the text must not be read apart. -/
def isSpecial : Word → Bool
  | .text _ special => special
  | .number _ => false

/-- Whether the word was made from a number. -/
def isNumber : Word → Bool
  | .text .. => false
  | .number _ => true

/-- Whether the word is treated as a number. -/
def isNumeric (settled : Bool) (w : Word) : Bool := settled || w.isNumber

/-- Which forms of the word are known. -/
def freshness (settled : Bool) (w : Word) : Freshness :=
  if settled then .clean else if w.isNumber then .number else .text

/-- The raw text as a reader of programs has to meet it to read it back: bars around an empty
text or one with control characters, and a backslash before every character that has a
stand-in. -/
def quoted (raw : List Char) : List Char :=
  if raw.isEmpty then ['|', '|']
  else if raw.any Text.isControl then '|' :: raw.map Text.reveal ++ ['|']
  else raw.flatMap fun c => if Text.conceal c = c then [c] else ['\\', c]

/-- A text cut down to a number of characters.  Small limits would make words unreadable, so at
least ten characters are kept. -/
def clipped (limit : Option Nat) (cs : List Char) : List Char :=
  match limit with
  | none => cs
  | some n => if max n 10 < cs.length then cs.take (max n 10) ++ ['.', '.', '.'] else cs

/-- The written form.  A word that is treated as a number is written as it is, whatever the
limits. -/
def render (settled : Bool) (o : PrintOptions) (w : Word) : String :=
  if w.isNumeric settled then w.raw
  else if o.depthLimit = some 0 then "..."
  else if o.full then String.ofList (quoted w.raw.toList)
  else String.ofList (clipped o.widthLimit w.printable.toList)

/-- Whether two words have the same raw text, letter case aside if `ignoreCase`. -/
def sameText (ignoreCase : Bool) (v w : Word) : Bool :=
  if ignoreCase then Text.upperCase v.raw == Text.upperCase w.raw else v.raw == w.raw

/-- The rest of the raw text from the leftmost occurrence of another word's raw text on. -/
def seek? (ignoreCase : Bool) (hay needle : Word) : Option String :=
  (Text.seek? ignoreCase hay.raw.toList needle.raw.toList).map String.ofList

end Word

end SharedValues
