import SharedValues.Heap.Build

/-!
# Value expressions

The expressions that denote new values in the commands of a session.  A register in an expression
denotes another handle to the value it holds.

## Main definitions

* `Expr` — the expressions.
* `Expr.registers` — the registers that an expression refers to.
* `Expr.eval` — the value of an expression.
* `Expr.ofWord` — the expression for a word.
-/

namespace SharedValues

/-- An expression for a value. -/
inductive Expr where
  /-- Nothing. -/
  | nothing
  /-- A permanent word for a truth value. -/
  | truth (value : Bool)
  /-- A number word. -/
  | number (value : Binary64)
  /-- A text word. -/
  | text (raw : String) (special : Bool)
  /-- A list. -/
  | list (items : List Expr)
  /-- An array. -/
  | array (origin : Int) (items : List Expr)
  /-- A syntax node. -/
  | node (name : Expr) (children : List Expr)
  /-- An error. -/
  | error (code : Int) (message tag : Expr)
  /-- A procedure. -/
  | procedure (payload : String)
  /-- A cell, with any value as its next link. -/
  | cell (item next : Expr)
  /-- The value in a register. -/
  | register (name : String)
  deriving Repr, Inhabited

namespace Expr

mutual

/-- The registers that an expression refers to. -/
def registers : Expr → List String
  | nothing => []
  | truth _ => []
  | number _ => []
  | text .. => []
  | list items => registersAll items
  | array _ items => registersAll items
  | node name children => registers name ++ registersAll children
  | error _ message tag => registers message ++ registers tag
  | procedure _ => []
  | cell item next => registers item ++ registers next
  | register name => [name]

/-- The registers that some expressions refer to. -/
def registersAll : List Expr → List String
  | [] => []
  | e :: es => registers e ++ registersAll es

end

mutual

/-- The value of an expression, from left to right and from the inside out, with a handle owned by
the caller.  A register without a value denotes nothing. -/
def eval (env : String → Option Addr) : Expr → Heap → Addr × Heap
  | nothing, h => h.nothing
  | truth value, h => h.truth value
  | number value, h => h.number value
  | text raw special, h => h.text raw special
  | list items, h =>
    let (items, h) := evalAll env items h
    h.listOf items
  | array origin items, h =>
    let (items, h) := evalAll env items h
    h.arrayOf origin items
  | node name children, h =>
    let (name, h) := eval env name h
    let (children, h) := evalAll env children h
    h.alloc (.node name children)
  | error code message tag, h =>
    let (message, h) := eval env message h
    let (tag, h) := eval env tag h
    h.alloc (.error code message tag)
  | procedure payload, h => h.procedure payload
  | cell item next, h =>
    let (item, h) := eval env item h
    let (next, h) := eval env next h
    h.alloc (.cell item next)
  | register name, h =>
    match env name with
    | some a => (a, h.retain a)
    | none => h.nothing

/-- The values of some expressions, in order. -/
def evalAll (env : String → Option Addr) : List Expr → Heap → List Addr × Heap
  | [], h => ([], h)
  | e :: es, h =>
    let (a, h) := eval env e h
    let (as, h) := evalAll env es h
    (a :: as, h)

end

/-- The expression for a new block with a word. -/
def ofWord : Word → Expr
  | .text raw special => .text raw special
  | .number value => .number value

@[simp] theorem registers_ofWord (w : Word) : (ofWord w).registers = [] := by
  cases w with
  | text raw special => rfl
  | number value => rfl

@[simp] theorem eval_ofWord (env : String → Option Addr) (w : Word) (h : Heap) :
    (ofWord w).eval env h = h.alloc (.word w) := by
  cases w with
  | text raw special => rfl
  | number value => rfl

end Expr

end SharedValues
