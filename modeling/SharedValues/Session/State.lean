import SharedValues.Cursor
import SharedValues.Query.Equality
import SharedValues.Session.Command

/-!
# The state of a session

A session holds a store, and registers that own a handle or a cursor each.  It also carries one
comparison and one rendering through all its commands: normally neither is under way between two
commands, but one that a fault interrupted leaves its traces.

## Main definitions

* `Holding`, `Registers` — what a register holds, and the registers in use.
* `Session` — the state.
* `Step` — a step of a session.
* `Step.put`, `Step.keep`, `Step.withOperand` — registers, results and second values.
-/

namespace SharedValues

/-- What a register holds. -/
inductive Holding where
  /-- A handle to a value. -/
  | value (a : Addr)
  /-- A cursor. -/
  | cursor (c : Cursor)
  deriving DecidableEq, Repr

/-- The handle that a register owns. -/
def Holding.handle : Holding → Addr
  | value a => a
  | cursor c => c.handle

/-- The registers in use and what they hold, in the order of their names. -/
abbrev Registers := List (String × Holding)

namespace Registers

/-- The registers after one of them got a new content. -/
def set (name : String) (x : Holding) : Registers → Registers
  | [] => [(name, x)]
  | (other, y) :: rest =>
    if name < other then (name, x) :: (other, y) :: rest
    else if name = other then (name, x) :: rest
    else (other, y) :: set name x rest

/-- The registers without one of them. -/
def erase (name : String) (rs : Registers) : Registers := rs.filter (·.1 != name)

end Registers

/-- The state of a session. -/
structure Session where
  /-- The values. -/
  store : Store := {}
  /-- The registers in use. -/
  registers : Registers := []
  /-- The pairs of sequences that the comparison of the session is inside of. -/
  trail : Trail := []
  /-- The sequences that the rendering of the session is writing. -/
  writing : List Addr := []
  deriving Repr, Inhabited

namespace Session

/-- The value in a register. -/
def value? (s : Session) (name : String) : Option Addr :=
  match s.registers.lookup name with
  | some (.value a) => some a
  | _ => none

/-- The cursor in a register. -/
def cursor? (s : Session) (name : String) : Option Cursor :=
  match s.registers.lookup name with
  | some (.cursor c) => some c
  | _ => none

end Session

/-- A step of a session that may end in a fault. -/
abbrev Step (α : Type) := ExceptT Fault (StateM Session) α

namespace Step

/-- An operation on the store of the session. -/
def on {α : Type} (op : Operation α) : Step α :=
  fun s =>
    let (result, store) := op.run s.store
    (result, { s with store })

/-- The value in a register. -/
def value (name : String) : Step Addr := do
  match (← get).value? name with
  | some a => return a
  | none => throw (.unbound name)

/-- The cursor in a register. -/
def cursor (name : String) : Step Cursor := do
  match (← get).cursor? name with
  | some c => return c
  | none => throw (.unbound name)

/-- Runs a step, and gives up an owned handle when it ends, whatever its outcome. -/
def holding {α : Type} (a : Addr) (step : Step α) : Step α :=
  fun s =>
    let (result, s) := step.run s
    (result, { s with store := { s.store with heap := s.store.heap.release a } })

/-- Puts something into a register, and gives up what was there before. -/
def put (name : String) (x : Holding) : Step Unit := do
  let old := (← get).registers.lookup name
  modify fun s => { s with registers := Registers.set name x s.registers }
  if let some old := old then on (.release old.handle)

/-- Puts a cursor back that has been advanced. -/
def advance (name : String) (c : Cursor) : Step Unit :=
  modify fun s => { s with registers := Registers.set name (.cursor c) s.registers }

/-- Makes sure that some registers hold values. -/
def bound (names : List String) : Step Unit := do
  let s ← get
  match names.find? fun name => (s.value? name).isNone with
  | some name => throw (.unbound name)
  | none => return ()

/-- The value of an expression, owned by the caller. -/
def eval (e : Expr) : Step Addr := do
  bound e.registers
  on (.make (e.eval (← get).value?))

/-- The values of some expressions, owned by the caller. -/
def evalAll (es : List Expr) : Step (List Addr) := do
  bound (Expr.registersAll es)
  on (.make (Expr.evalAll (← get).value? es))

/-- Makes sure that a value is of a kind, if one is promised. -/
def promise (x : Addr) (expected : Option Kind) : Step Unit := do
  let found ← on (.look (·.kind x))
  match expected with
  | some k => if k ≠ found then throw (.violated (.kindMismatch k found))
  | none => return ()

/-- Runs a step with the value of an expression, which is given up when the step ends. -/
def withOperand {α : Type} (y : Expr) (step : Addr → Step α) : Step α := do
  let a ← eval y
  holding a (step a)

/-- Answers with a new value, and keeps it or gives it up.  The written form comes first; if it
cannot be made, the value is given up. -/
def keep (k : Keep) (a : Addr) : Step Answer := do
  let kind ← on (.look (·.kind a))
  let shown ← if k.quiet then pure none else some <$> on (.keeping a (.ask (·.shown a)))
  match k.«to» with
  | some name => put name (.value a)
  | none => on (.release a)
  return .value kind shown

/-- Answers with a value, or with none. -/
def keep? (k : Keep) : Option Addr → Step Answer
  | some a => keep k a
  | none => return .noValue

/-- Answers for a change to the value at an address. -/
def changed (x : Addr) (quiet : Bool) : Step Answer := do
  if quiet then return .done else return .shown (← on (.ask (·.shown x)))

end Step

end SharedValues
