import SharedValues.Query.Basic

/-!
# Rendering

A value is written in one of two styles: *bare*, where a list or an array leaves out its outer
brackets, or *delimited*, where it keeps them.  Elements are always delimited.  A sequence met
again while it is being written is cut short to `...`, and so is what lies beyond the limits of
the print options.

## Main definitions

* `Style` — bare or delimited.
* `Heap.renderOn` — a rendering inside the sequences being written.
* `Heap.renderFrom` — a rendering together with the sequences it leaves open.
* `Heap.render` — a rendering of its own.
-/

namespace SharedValues

/-- Whether a sequence is written with its outer brackets. -/
inductive Style where
  /-- Without the outer brackets. -/
  | bare
  /-- With the outer brackets. -/
  | delimited
  deriving DecidableEq, Repr

namespace Heap

/-- The brackets of a list or of an array. -/
def brackets : Kind → String × String
  | .list => ("[", "]")
  | .array => ("\x7b", "\x7d")
  | _ => ("", "")

/-- The elements of a walk, written by `write` and separated by blanks.  Once `width` of them are
written, `...` stands for the rest, and without any depth or width left it stands for all. -/
def renderWalk {ε : Type} (write : Addr → Query ε String) (halt : Fault → ε) (o : PrintOptions)
    (w : Walk) : Query ε String := do
  -- whether the chain broke off is known only when all that was found is written
  let ended : Query ε Unit := match w.fault? with
    | some f => throw (halt f)
    | none => return ()
  if w.found.isEmpty then
    ended
    return ""
  else if o.depthLimit = some 0 ∨ o.widthLimit = some 0 then return "..."
  else
    let width := o.widthLimit.getD w.found.length
    let parts ← (w.found.take width).mapM write
    if width < w.found.length then return " ".intercalate (parts ++ ["..."])
    else
      ended
      return " ".intercalate parts

/-- The written form of the value at an address, within `n` levels, while the sequences in
`writing` are being written.  A fault comes with the sequences that are being written then. -/
def renderWithin (h : Heap) :
    Nat → List Addr → Style → PrintOptions → Addr → Query (Fault × List Addr) String
  | 0, writing, _, _, _ => throw (.endless, writing)
  | n + 1, writing, style, o, x =>
    match h.body x with
    | .word w => Query.renderWord x w o
    | .list _ | .array .. =>
      match style with
      | .bare =>
        renderWalk (h.renderWithin n writing .delimited o.deeper) (·, writing) o (h.elements x)
      | .delimited =>
        if writing.contains x then return "..."
        else do
          let writing := x :: writing
          let inner ← renderWalk (h.renderWithin n writing .delimited o.deeper) (·, writing) o
            (h.elements x)
          let (opening, closing) := brackets (h.kind x)
          return opening ++ inner ++ closing
    | .node name children => do
      let parts ← (name :: children).mapM (h.renderWithin n writing .delimited o)
      return "( " ++ " ".intercalate parts ++ " )"
    -- an error is written as its text, whatever its code and its tag
    | .error _ text _ => h.renderWithin n writing .bare o text
    | body => return body.kind.name

/-- The written form of the value at an address while some sequences are being written.  On the way
down no sequence is entered twice in delimited style, an error that is not part of its own text is
met once, and between two of these lie at most all the syntax nodes. -/
def renderOn (h : Heap) (writing : List Addr) (style : Style) (o : PrintOptions) (x : Addr) :
    Query (Fault × List Addr) String :=
  h.renderWithin ((h.blocks.size + 2) * (h.blocks.size + 2)) writing style o x

/-- A rendering that starts while some sequences are being written: its outcome, and the sequences
that are being written when it ends.  Only a fault leaves more of them than there were. -/
def renderFrom (h : Heap) (writing : List Addr) (style : Style) (o : PrintOptions) (x : Addr) :
    StateM Settled (Except Fault String × List Addr) := do
  match ← (h.renderOn writing style o x).run with
  | .error (f, writing) => return (.error f, writing)
  | .ok s => return (.ok s, writing)

/-- The written form of the value at an address. -/
def render (h : Heap) (style : Style) (o : PrintOptions) (x : Addr) : Query Fault String :=
  (h.renderOn [] style o x).adapt Prod.fst

/-- The form in which values are shown by default. -/
def shown (h : Heap) (x : Addr) : Query Fault String := h.render .delimited {} x

/-- The form in which values are shown to a programmer: the kind, and up to eight levels. -/
def inspected (h : Heap) (x : Addr) : Query Fault String :=
  match h.kind x with
  | .nothing => return Kind.nothing.name
  | k => do
    let s ← h.render .delimited (PrintOptions.inFull.withDepth 8) x
    return k.name ++ "(" ++ s ++ ")"

end Heap

end SharedValues
