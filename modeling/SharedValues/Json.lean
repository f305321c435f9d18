/-!
# JSON texts

A reader for JSON texts.  It keeps what settings need: of the numbers only the natural ones have
a value, and a string with half of a surrogate pair in it has no text, though it is a string.

## Main definitions

* `Json` — the value of a text.
* `Json.read?` — the value that a text spells.
-/

namespace SharedValues

/-- The value of a JSON text. -/
inductive Json where
  /-- The value `null`. -/
  | null
  /-- A truth value. -/
  | bool (b : Bool)
  /-- A number written with digits only. -/
  | natural (n : Nat)
  /-- Any other number. -/
  | otherNumber
  /-- A string, and its text if it has one. -/
  | string (text : Option String)
  /-- An array. -/
  | array (items : List Json)
  /-- An object, with its members in the order of the text. -/
  | object (members : List (Option String × Json))
  deriving Repr, Inhabited

namespace Json

/-- A text without the blanks at its front. -/
def skipBlanks (cs : List Char) : List Char :=
  cs.dropWhile fun c => c = ' ' || c = '\t' || c = '\n' || c = '\r'

/-- An element of a string: a character, or a code unit that was written in hexadecimal. -/
inductive Piece where
  /-- A character. -/
  | char (c : Char)
  /-- A code unit. -/
  | unit (n : Nat)
  deriving DecidableEq, Repr

/-- The value of a hexadecimal digit. -/
def hexDigit? (c : Char) : Option Nat :=
  if '0' ≤ c ∧ c ≤ '9' then some (c.toNat - '0'.toNat)
  else if 'a' ≤ c ∧ c ≤ 'f' then some (c.toNat - 'a'.toNat + 10)
  else if 'A' ≤ c ∧ c ≤ 'F' then some (c.toNat - 'A'.toNat + 10)
  else none

/-- The character that a letter after a backslash means. -/
def escaped? : Char → Option Char
  | '\x22' => some '\x22'
  | '\\' => some '\\'
  | '/' => some '/'
  | 'b' => some '\x08'
  | 'f' => some '\x0c'
  | 'n' => some '\n'
  | 'r' => some '\r'
  | 't' => some '\t'
  | _ => none

/-- The elements of a string up to its closing quote, and the text after that. -/
def pieces? : List Char → Option (List Piece × List Char)
  | [] => none
  | '\x22' :: cs => some ([], cs)
  | '\\' :: 'u' :: a :: b :: c :: d :: cs => do
    let n := (((← hexDigit? a) * 16 + (← hexDigit? b)) * 16 + (← hexDigit? c)) * 16
      + (← hexDigit? d)
    let (ps, rest) ← pieces? cs
    return (.unit n :: ps, rest)
  | '\\' :: c :: cs => do
    let c ← escaped? c
    let (ps, rest) ← pieces? cs
    return (.char c :: ps, rest)
  | c :: cs => do
    if c < ' ' ∨ c = '\\' then none
    let (ps, rest) ← pieces? cs
    return (.char c :: ps, rest)

/-- Whether a code unit is the first half of a surrogate pair. -/
def isHigh (n : Nat) : Bool := 0xD800 ≤ n && n ≤ 0xDBFF

/-- Whether a code unit is the second half of a surrogate pair. -/
def isLow (n : Nat) : Bool := 0xDC00 ≤ n && n ≤ 0xDFFF

/-- The text of a string, its surrogate pairs joined.  There is none if half of a pair is left. -/
def join? : List Piece → Option (List Char)
  | [] => some []
  | .char c :: ps => do return c :: (← join? ps)
  | .unit n :: .unit m :: ps =>
    if isHigh n then
      if isLow m then do
        return Char.ofNat (0x10000 + (n - 0xD800) * 0x400 + (m - 0xDC00)) :: (← join? ps)
      else none
    else if isLow n then none
    else do return Char.ofNat n :: (← join? (.unit m :: ps))
  | .unit n :: ps => if isHigh n || isLow n then none else do return Char.ofNat n :: (← join? ps)

/-- The text of the string after its opening quote, if it has one, and the text after it. -/
def string? (cs : List Char) : Option (Option String × List Char) := do
  let (ps, rest) ← pieces? cs
  return ((join? ps).map String.ofList, rest)

/-- The digits at the front, of which there must be one, and the text after them. -/
def digits? (cs : List Char) : Option (List Char × List Char) :=
  let ds := cs.takeWhile Char.isDigit
  if ds.isEmpty then none else some (ds, cs.dropWhile Char.isDigit)

/-- The digits of a whole number at the front, which start with a zero only if it stands alone. -/
def whole? : List Char → Option (List Char × List Char)
  | '0' :: cs => some (['0'], cs)
  | cs => digits? cs

/-- The text after a fraction, if there is one at the front, and whether there is. -/
def fraction? : List Char → Option (Bool × List Char)
  | '.' :: cs => do return (true, (← digits? cs).2)
  | cs => some (false, cs)

/-- The text after an exponent, if there is one at the front, and whether there is. -/
def exponent? : List Char → Option (Bool × List Char)
  | c :: cs =>
    if c = 'e' ∨ c = 'E' then do
      let unsigned := match cs with
        | '+' :: cs => cs
        | '-' :: cs => cs
        | cs => cs
      return (true, (← digits? unsigned).2)
    else some (false, c :: cs)
  | [] => some (false, [])

/-- The number at the front, and the text after it. -/
def number? (cs : List Char) : Option (Json × List Char) := do
  let (negative, cs) := match cs with
    | '-' :: cs => (true, cs)
    | cs => (false, cs)
  let (ds, cs) ← whole? cs
  let (fractional, cs) ← fraction? cs
  let (scaled, cs) ← exponent? cs
  if negative || fractional || scaled then return (.otherNumber, cs)
  return (.natural (ds.foldl (fun n c => 10 * n + (c.toNat - '0'.toNat)) 0), cs)

mutual

/-- The value at the front, within `n` steps, and the text after it. -/
def value? : Nat → List Char → Option (Json × List Char)
  | 0, _ => none
  | n + 1, cs =>
    match skipBlanks cs with
    | 'n' :: 'u' :: 'l' :: 'l' :: cs => some (.null, cs)
    | 't' :: 'r' :: 'u' :: 'e' :: cs => some (.bool true, cs)
    | 'f' :: 'a' :: 'l' :: 's' :: 'e' :: cs => some (.bool false, cs)
    | '\x22' :: cs => do
      let (text, cs) ← string? cs
      return (.string text, cs)
    | '[' :: cs =>
      match skipBlanks cs with
      | ']' :: cs => some (.array [], cs)
      | cs => do
        let (items, cs) ← items? n cs
        return (.array items, cs)
    | '\x7b' :: cs =>
      match skipBlanks cs with
      | '\x7d' :: cs => some (.object [], cs)
      | cs => do
        let (members, cs) ← members? n cs
        return (.object members, cs)
    | cs => number? cs

/-- The items of an array up to its closing bracket, within `n` steps, and the text after that. -/
def items? : Nat → List Char → Option (List Json × List Char)
  | 0, _ => none
  | n + 1, cs => do
    let (item, cs) ← value? n cs
    match skipBlanks cs with
    | ']' :: cs => return ([item], cs)
    | ',' :: cs =>
      let (items, cs) ← items? n cs
      return (item :: items, cs)
    | _ => none

/-- The members of an object up to its closing brace, within `n` steps, and the text after that. -/
def members? : Nat → List Char → Option (List (Option String × Json) × List Char)
  | 0, _ => none
  | n + 1, cs =>
    match skipBlanks cs with
    | '\x22' :: cs => do
      let (key, cs) ← string? cs
      match skipBlanks cs with
      | ':' :: cs =>
        let (item, cs) ← value? n cs
        match skipBlanks cs with
        | '\x7d' :: cs => return ([(key, item)], cs)
        | ',' :: cs =>
          let (members, cs) ← members? n cs
          return ((key, item) :: members, cs)
        | _ => none
      | _ => none
    | _ => none

end

/-- The value that a text spells, with blanks around it.  A step that reads no character is
followed by one that does, so two steps for each character are enough. -/
def read? (s : String) : Option Json := do
  let cs := s.toList
  let (v, rest) ← value? (2 * cs.length + 2) cs
  if (skipBlanks rest).isEmpty then some v else none

end Json

end SharedValues
