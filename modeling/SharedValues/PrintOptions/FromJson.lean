import SharedValues.Json
import SharedValues.PrintOptions

/-!
# Print options as JSON

Print options are written as an object with the members `full`, `depth_limit` and `width_limit`,
or as an array of the three in this order.  What is left out has its default.  A limit is `null`
or a natural number of 64 bits.

## Main definitions

* `PrintOptions.ofJson?` — the options that a value stands for.
* `PrintOptions.read?` — the options that a text spells.
-/

namespace SharedValues.PrintOptions

/-- The mode that a value stands for. -/
def mode? : Json → Option Bool
  | .bool b => some b
  | _ => none

/-- The limit that a value stands for. -/
def limit? : Json → Option (Option Nat)
  | .null => some none
  | .natural n => if n < 1 <<< 64 then some (some n) else none
  | _ => none

/-- The meaning of a value that may be left out. -/
def orDefault {α : Type} (default : α) (meaning : Json → Option α) : Option Json → Option α
  | none => some default
  | some v => meaning v

/-- The value of the only member with a name; there may be none, and there may not be two. -/
def member? (members : List (Option String × Json)) (name : String) : Option (Option Json) :=
  match members.filter (·.1 == some name) with
  | [] => some none
  | [(_, v)] => some (some v)
  | _ => none

/-- The options made of a mode and two limits, each of which may be left out. -/
def ofParts? (mode depth width : Option Json) : Option PrintOptions := do
  let full ← orDefault false mode? mode
  let depthLimit ← orDefault none limit? depth
  let widthLimit ← orDefault none limit? width
  return { full, depthLimit, widthLimit }

/-- The options that a value stands for.  Members with other names are ignored, but every name has
to be a text. -/
def ofJson? : Json → Option PrintOptions
  | .array items => if items.length ≤ 3 then ofParts? items[0]? items[1]? items[2]? else none
  | .object members => do
    if members.any (·.1.isNone) then none
    ofParts? (← member? members "full") (← member? members "depth_limit")
      (← member? members "width_limit")
  | _ => none

/-- The options that a text spells. -/
def read? (s : String) : Option PrintOptions := do ofJson? (← Json.read? s)

end SharedValues.PrintOptions
