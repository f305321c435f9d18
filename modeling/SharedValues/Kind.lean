/-!
# Kinds of values

Every value is of one of eight kinds, and stays of that kind for as long as it lives.
-/

namespace SharedValues

/-- The kind of a value. -/
inductive Kind where
  /-- The one value that stands for nothing and ends every chain. -/
  | nothing
  /-- A text or a number. -/
  | word
  /-- The header of a chain of cells. -/
  | list
  /-- A link of a chain. -/
  | cell
  /-- A row of slots. -/
  | array
  /-- A node of a syntax tree. -/
  | node
  /-- A procedure, which is carried but never looked into. -/
  | procedure
  /-- An error raised by a running program. -/
  | error
  deriving DecidableEq, Repr, Inhabited

/-- The name of a kind, as the user reads it. -/
def Kind.name : Kind → String
  | .nothing => "nothing"
  | .word => "Word"
  | .list => "List"
  | .cell => "ListNode"
  | .array => "Array"
  | .node => "ASTNode"
  | .procedure => "Procedure"
  | .error => "Error"

end SharedValues
