import SharedValues.Session.State

/-!
# Running a session

What each command does and answers.  A command that ends in a fault answers with the fault, and
the session goes on from there.

## Main definitions

* `Source.make`, `Derivation.run`, `Combination.run` — new values.
* `Change.run`, `Adjustment.run` — changes in place.
* `Question.run`, `Comparison.run` — questions.
* `Session.step`, `Session.run` — a command, and a sequence of commands.
-/

namespace SharedValues

namespace Mode

/-- Calls an operation in a mode. -/
def call {α : Type} (m : Mode) (op : Operation α) : Operation α :=
  match m with
  | checked => op
  | asserted | typed => op.promised

end Mode

namespace Source

/-- The sample numbers `0`, `1`, …. -/
def counting (size : Nat) : List Binary64 := (List.range size).map .ofNat

/-- Makes the value of a source. -/
def make : Source → Operation Addr
  | emptyList => .make (·.listOf [])
  | emptyArray origin size => .make (·.emptyArray origin size)
  | words raws => .make (·.words raws)
  | numbers values => .make (·.numbers values)
  | wordArray origin raws => .make (·.wordArray origin raws)
  | nested raw depth => .make (·.nested raw depth)
  | selfContaining raws => do
    let x ← Operation.make (·.words raws)
    Operation.keeping x do
      let l ← Operation.assert (·.list x)
      (l.append x x).promised
    return x
  | circular raws => do
    let x ← Operation.make (·.words raws)
    Operation.keeping x do
      let l ← Operation.assert (·.list x)
      (l.setButFirst x x).promised
    return x
  | shape .flat size => .make (·.numbers (counting size))
  | shape .nested size => .make (·.nested "leaf" size)
  | shape .array size => .make (·.numberArray 1 (counting size))
  | usage => .make fun h =>
    let ((live, peak), h) := h.usage
    h.numbers [.ofNat live, .ofNat peak]

end Source

namespace Piece

/-- Takes a part of a sequence. -/
def take (x : Addr) : Piece → Operation Addr
  | item index => Sequence.item x index
  | first => Sequence.first x
  | last => Sequence.last x
  | butFirst => Sequence.butFirst x
  | butLast => Sequence.butLast x

/-- Whether the part is one element at an index. -/
def isItem : Piece → Bool
  | item _ => true
  | _ => false

end Piece

namespace Derivation

/-- Obtains a value from the one at an address. -/
def run (x : Addr) : Derivation → Operation (Option Addr)
  | same => some <$> .share x
  | piece p mode => do
    -- of the parts of a word, only the item at an index is promised in typed form
    let isWord ← Operation.look (·.kind x == .word)
    let mode := if mode = .typed ∧ isWord ∧ !p.isItem then .checked else mode
    some <$> mode.call (p.take x)
  | head => do
    let l ← Operation.assert (·.list x)
    some <$> .share l.head
  | shared => do
    let l ← Operation.assert (·.list x)
    some <$> l.shared
  | listOfSlots => do
    let r ← Operation.assert (Row.at? · x)
    some <$> ListHeader.ofSlots r.slots
  | arrayOfElements origin => do
    let _ ← Operation.assert (·.list x)
    some <$> Row.ofElements origin x
  | part start stop => do
    let r ← Operation.assert (Row.at? · x)
    some <$> r.part start stop
  | slot n => do
    let r ← Operation.assert (Row.at? · x)
    r.slots[n]?.mapM .share
  | nodeName => do
    let (name, _) ← Operation.assert (·.node x)
    some <$> .share name
  | child n => do
    let (_, children) ← Operation.assert (·.node x)
    children[n]?.mapM .share
  | errorText => do
    let (_, text, _) ← Operation.assert (·.error x)
    some <$> .share text
  | errorTag => do
    let (_, _, tag) ← Operation.assert (·.error x)
    some <$> .share tag
  | cellItem => do
    let (item, _) ← Operation.assert (·.cell x)
    some <$> .share item
  | cellNext => do
    let (_, next) ← Operation.assert (·.cell x)
    some <$> .share next
  | procedureCopy => do
    let p ← Operation.assert (·.payload x)
    some <$> .make (·.alloc (.procedure p))

end Derivation

namespace Combination

/-- The kind that the first value must have before the second one is made. -/
def expects : Combination → Option Kind
  | fromMember .. => none
  | cons => some .list

/-- Obtains a value from two. -/
def run (x y : Addr) : Combination → Operation Addr
  | fromMember ignoreCase mode => mode.call (Sequence.fromMember ignoreCase x y)
  | cons => do
    let l ← Operation.assert (·.list x)
    l.cons y

end Combination

namespace Change

/-- The kind that the first value must have before the second one is made. -/
def expects : Change → Option Kind
  | setCellItem | setCellNext => some .cell
  | _ => none

/-- Stores a value in another. -/
def run (x y : Addr) : Change → Operation Unit
  | setItem index mode => mode.call (Sequence.setItem x index y)
  | setFirst mode => mode.call (Sequence.setFirst x y)
  | setButFirst mode => mode.call (Sequence.setButFirst x y)
  | append mode => do
    match ← Operation.look (·.body x) with
    | .array origin slots => Row.append x { origin, slots } y
    | .list l => mode.call (l.append x y)
    | body => throw (.violated (.kindMismatch .list body.kind))
  | prepend => do
    let l ← Operation.assert (·.list x)
    l.prepend x y
  | addChild => do
    let (name, children) ← Operation.assert (·.node x)
    Operation.alter fun h => (h.retain y).setBody x (.node name (children ++ [y]))
  | setCellItem => ListHeader.setCellItem x y
  | setCellNext => ListHeader.setCellNext x y

end Change

namespace Adjustment

/-- Changes or checks the value at an address. -/
def run (x : Addr) : Adjustment → Step Unit
  | clear => .on do
    let l ← Operation.assert (·.list x)
    l.clear x
  | freeze => .on (.alter (·.freeze x))
  | decode kind mode => .on do
    let found ← Operation.look (·.kind x)
    if kind ≠ found then mode.call (throw (.refused (.kindMismatch kind found)))
  | setParsed stamp items => do
    let parsed ← Step.evalAll items
    Step.on <| .holdingAll parsed do
      let l ← Operation.assert (·.list x)
      l.setParsed x stamp parsed

end Adjustment

namespace Question

/-- The default written forms of some values. -/
def shownAll (as : List Addr) : Operation Reply := do
  return .texts (← as.mapM fun a => Operation.ask (·.shown a))

/-- The kinds that a value is asked for, cells aside. -/
def askedKinds : List Kind := [.array, .node, .error, .list, .nothing, .procedure, .word]

/-- Answers a question about the value at an address. -/
def run (x : Addr) : Question → Operation Reply
  | kind => return .kind (← Operation.look (·.kind x))
  | kinds => do
    let found ← Operation.look (·.kind x)
    return .kinds (askedKinds.map fun k => (k, k == found))
  | isKind k => return .flag ((← Operation.look (·.kind x)) == k)
  | count => return .integer (← Operation.look (·.count x))
  | isDestroyable => return .flag (← Operation.look (·.isDestroyable x))
  | isMutable => return .flag (← Operation.look (·.isMutable x))
  | size mode => return .integer (← mode.call (.ask (Sequence.size x)))
  | inRange index mode => return .flag (← mode.call (.ask (Sequence.inRange x index)))
  | isEmpty => return .flag (← Operation.ask (Sequence.isEmpty x))
  | shown => return .text (← Operation.ask (·.shown x))
  | inspected => return .text (← Operation.ask (·.inspected x))
  | render style o => return .text (← Operation.ask (·.render style o x))
  | renderWord o => do
    let w ← Operation.assert (·.word x)
    return .text (← Operation.ask fun _ => Query.renderWord x w o)
  | outline => fun s => ((s.heap.outline s.settled x).map .outline, s)
  | recount => do
    let l ← Operation.assert (·.list x)
    return .integer (← l.recount x)
  | stamp => return .integer (← Operation.assert (·.list x)).stamp
  | parsed => do shownAll (← Operation.assert (·.list x)).parsed
  | origin => return .integer (← Operation.assert (Row.at? · x)).origin
  | slots => do shownAll (← Operation.assert (Row.at? · x)).slots
  | childCount => return .integer (← Operation.assert (·.node x)).2.length
  | children => do shownAll (← Operation.assert (·.node x)).2
  | errorCode => return .integer (← Operation.assert (·.error x)).1
  | payload => return .text (← Operation.assert (·.payload x)).text
  | payloadNumber => do
    let _ ← Operation.assert (·.payload x)
    return .null
  | label => do
    let _ ← Operation.assert (·.payload x)
    return .text "#<procedure>"
  | raw => do
    let w ← Operation.assert (·.word x)
    return .text (← Operation.ask fun _ => Query.rawText x w)
  | printable => do
    let w ← Operation.assert (·.word x)
    let _ ← Operation.ask fun _ => Query.rawText x w
    return .text w.printable
  | key => do
    let w ← Operation.assert (·.word x)
    let _ ← Operation.ask fun _ => Query.rawText x w
    return .text w.key
  | number => do
    let w ← Operation.assert (·.word x)
    return .number (← Operation.ask fun _ => Query.numberOf x w)
  | isNumber => do
    let w ← Operation.assert (·.word x)
    let _ ← Operation.ask fun _ => Query.numberOf x w
    return .flag w.number?.isSome
  | number? => do
    let w ← Operation.assert (·.word x)
    let _ ← Operation.ask fun _ => Query.numberOf x w
    return w.number?.elim .null .number
  | freshness => do
    let w ← Operation.assert (·.word x)
    return .freshness (w.freshness (← Operation.ask fun _ => Query.isSettled x))
  | isSpecial => return .flag (← Operation.assert (·.word x)).isSpecial

end Question

namespace Comparison

/-- The kind that the first value must have before the second one is made. -/
def expects : Comparison → Option Kind
  | wordEqual _ | wordContains _ => some .word
  | _ => none

/-- Answers a question about two values. -/
def run (x y : Addr) : Comparison → Operation Bool
  | same => return x == y
  | equal ignoreCase => .ask (·.equal ignoreCase x y)
  | wordEqual ignoreCase => do
    let v ← Operation.assert (·.word x)
    let w ← Operation.assert (·.word y)
    .ask fun _ => Query.wordsEqual ignoreCase x v y w
  | wordContains ignoreCase => do
    let v ← Operation.assert (·.word x)
    let w ← Operation.assert (·.word y)
    return (← .ask fun _ => Query.wordSeek? ignoreCase x v y w).isSome
  | contains ignoreCase mode => mode.call (.ask (·.contains ignoreCase x y))
  | isMember ignoreCase mode => mode.call (.ask (·.isMember ignoreCase x y))
  | samePayload => do
    let p ← Operation.assert (·.payload x)
    let q ← Operation.assert (·.payload y)
    return p.owner == q.owner

end Comparison

namespace Opening

/-- Puts a cursor on the value at an address. -/
def run (x : Addr) : Opening → Operation Cursor
  | sequence .typed => do Cursor.ofList (← Operation.assert (·.list x))
  | sequence mode => mode.call (Cursor.start x)
  | array => Cursor.ofArray x
  | word => Cursor.ofWord x

end Opening

namespace Step

/-- Advances the cursor in a register to the end, at most `n` elements on, and adds the written
form of each to the ones already `written`. -/
def collectWithin (name : String) : Nat → List String → Step (List String)
  | 0, written => return written.reverse
  | n + 1, written => do
    let (item, c) ← on (← cursor name).next
    advance name c
    match item with
    | none => return written.reverse
    | some a =>
      let s ← holding a (on (.ask (·.shown a)))
      collectWithin name n (s :: written)

/-- Advances the cursor in a register to the end, and writes every element. -/
def collect (name : String) : Step (List String) := do
  let (_, high) ← on (.ask (← cursor name).sizeHint)
  -- one step more than there may be elements, so that the end is met as well
  collectWithin name (high + 1) []

/-- Compares two values inside the trail of the session. -/
def compareHere (ignoreCase : Bool) (x y : Addr) : Step Bool :=
  fun s =>
    let ((result, trail), settled) :=
      (s.store.heap.compare ignoreCase s.trail x y).run s.store.settled
    (result, { s with trail, store := { s.store with settled } })

/-- Writes a value among the sequences that the session is writing. -/
def renderHere (style : Style) (o : PrintOptions) (x : Addr) : Step String :=
  fun s =>
    let ((result, writing), settled) :=
      (s.store.heap.renderFrom s.writing style o x).run s.store.settled
    (result, { s with writing, store := { s.store with settled } })

/-- What a command does and answers. -/
def perform : Command → Step Answer
  | .make e k => do keep k (← eval e)
  | .build source k => do keep k (← on source.make)
  | .derive x d k => do
    let x ← value x
    keep? k (← on (d.run x))
  | .combine x c y k => do
    let x ← value x
    promise x c.expects
    withOperand y fun y => do keep k (← on (c.run x y))
  | .change x c y quiet => do
    let x ← value x
    promise x c.expects
    withOperand y fun y => do
      on (c.run x y)
      changed x quiet
  | .adjust x a quiet => do
    let x ← value x
    a.run x
    changed x quiet
  | .ask x q => do
    let x ← value x
    return .reply (← on (q.run x))
  | .compare x c y => do
    let x ← value x
    promise x c.expects
    withOperand y fun y => do return .reply (.flag (← on (c.run x y)))
  | .compareHere x ignoreCase y => do
    let x ← value x
    withOperand y fun y => do return .reply (.flag (← compareHere ignoreCase x y))
  | .renderHere x style o => do
    let x ← value x
    return .reply (.text (← renderHere style o x))
  | .openCursor x how target => do
    let x ← value x
    put target (.cursor (← on (how.run x)))
    return .done
  | .hasMore x => do return .reply (.flag (← on (.ask (← cursor x).hasMore)))
  | .next x k => do
    let (item, c) ← on (← cursor x).next
    advance x c
    keep? k item
  | .takeNext x k => do
    let (item, c) ← on (← cursor x).takeNext
    advance x c
    keep k item
  | .sizeHint x => do
    let (low, high) ← on (.ask (← cursor x).sizeHint)
    return .reply (.bounds low high)
  | .collect x => do return .reply (.texts (← collect x))
  | .drop x => do
    let old := (← get).registers.lookup x
    -- the register is empty before its handle goes
    modify fun s => { s with registers := Registers.erase x s.registers }
    if let some old := old then on (.release old.handle)
    return .done
  | .dropAll => do
    let held := (← get).registers.map (·.2.handle)
    modify fun s => { s with registers := [] }
    on (.alter (·.releaseAll held))
    return .done
  | .usage => do
    let (live, peak) ← on (.make (·.usage))
    return .usage live peak
  | .isIdle => do return .reply (.flag (← get).trail.isEmpty)
  | .shapeName s => return .reply (.text s.name)

end Step

namespace Session

/-- What a command answers, and the session after it. -/
def step (c : Command) (s : Session) : Answer × Session :=
  match (Step.perform c).run s with
  | (.ok answer, s) => (answer, s)
  | (.error f, s) => (.fault f, s)

/-- The answers to a sequence of commands, and the session after them. -/
def run (cs : List Command) (s : Session) : List Answer × Session :=
  match cs with
  | [] => ([], s)
  | c :: cs =>
    let (answer, s) := s.step c
    let (answers, s) := s.run cs
    (answer :: answers, s)

end Session

end SharedValues
