import SharedValues.Kind

/-!
# Faults

An operation that does not apply refuses, and says why.  A refusal is handed back to a caller
who asked for a checked operation; for a caller who promised that the operation applies, the
same refusal is a violation of that promise.

## Main definitions

* `Op` — the operations that a refusal can name.
* `Refusal` — why an operation does not apply.
* `Fault` — how an operation can end without a result.
* `Refusal.message`, `Fault.message` — their wording.
-/

namespace SharedValues

/-- The operations named in refusals. -/
inductive Op where
  | cursor
  | size
  | inRange
  | item
  | first
  | last
  | butFirst
  | butLast
  | setItem
  | setFirst
  | setButFirst
  | contains
  | isMember
  | fromMember
  | takeNext
  deriving DecidableEq, Repr

/-- The name of an operation, as the user reads it. -/
def Op.name : Op → String
  | .cursor => "cursor"
  | .size => "size"
  | .inRange => "is_index_in_range"
  | .item => "datum_at_index"
  | .first => "first"
  | .last => "last"
  | .butFirst => "butfirst"
  | .butLast => "butlast"
  | .setItem => "set_item"
  | .setFirst => "set_first_item"
  | .setButFirst => "set_butfirst_item"
  | .contains => "contains_datum"
  | .isMember => "is_member"
  | .fromMember => "from_member"
  | .takeNext => "take_next"

/-- Why an operation does not apply. -/
inductive Refusal where
  /-- A value of one kind stands where another kind is needed. -/
  | kindMismatch (expected found : Kind)
  /-- An index outside a sequence of the given size. -/
  | outOfRange (kind : Kind) (index : Int) (size : Nat)
  /-- An operation that needs an element met an empty sequence. -/
  | emptySequence (op : Op) (kind : Kind)
  /-- An operation that values of this kind do not have. -/
  | unsupported (op : Op) (kind : Kind)
  /-- A chain that other holders can see is not extended. -/
  | sharedCells
  deriving DecidableEq, Repr

/-- The wording of a refusal. -/
def Refusal.message : Refusal → String
  | .kindMismatch expected found =>
    "expected a " ++ expected.name ++ " datum, found a " ++ found.name
  | .outOfRange kind index size =>
    "index " ++ toString index ++ " is out of range for a " ++ kind.name ++ " of size "
      ++ toString size
  | .emptySequence op kind => "`" ++ op.name ++ "` requires a non-empty " ++ kind.name
  | .unsupported op kind => "`" ++ op.name ++ "` is not supported by " ++ kind.name ++ " datums"
  | .sharedCells => "cannot append to a list whose cells are shared with another list"

/-- How an operation can end without a result. -/
inductive Fault where
  /-- A checked operation does not apply. -/
  | refused (r : Refusal)
  /-- An operation that was promised to apply does not. -/
  | violated (r : Refusal)
  /-- A command names a register that does not hold what the command needs. -/
  | unbound (register : String)
  /-- A traversal went deeper than there are ways to go down, which happens only below a syntax
  node or an error text that contains itself. -/
  | endless
  deriving DecidableEq, Repr

/-- The wording of a fault. -/
def Fault.message : Fault → String
  | .refused r => r.message
  | .violated r => "datum contract violation: " ++ r.message
  | .unbound register => "no usable value in register " ++ register
  | .endless => "endless structure"

/-- A refusal met by a caller who promised that the operation applies. -/
def Fault.promised : Fault → Fault
  | .refused r => .violated r
  | f => f

end SharedValues
