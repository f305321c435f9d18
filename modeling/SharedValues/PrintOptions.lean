/-!
# Print options

How much of a value is written out, and whether words are written so that they can be read back.
-/

namespace SharedValues

/-- Limits and mode of a rendering.  No limit is given as `none`. -/
structure PrintOptions where
  /-- Whether words are written so that reading them gives back the same text. -/
  full : Bool := false
  /-- The number of levels of nested sequences written before `...` stands for the rest. -/
  depthLimit : Option Nat := none
  /-- The number of elements of a sequence, or characters of a word, written before `...`. -/
  widthLimit : Option Nat := none
  deriving DecidableEq, Repr, Inhabited

namespace PrintOptions

/-- No limits, and words in full. -/
def inFull : PrintOptions := { full := true }

/-- The same options with a limit on the depth. -/
def withDepth (o : PrintOptions) (limit : Nat) : PrintOptions := { o with depthLimit := some limit }

/-- The same options with a limit on the width. -/
def withWidth (o : PrintOptions) (limit : Nat) : PrintOptions := { o with widthLimit := some limit }

/-- The options for the elements of a sequence: one level less is left, and never below zero. -/
def deeper (o : PrintOptions) : PrintOptions := { o with depthLimit := o.depthLimit.map (· - 1) }

end PrintOptions

end SharedValues
