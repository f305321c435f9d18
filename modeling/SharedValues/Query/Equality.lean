import SharedValues.Query.Basic

/-!
# Structural equality

Two values are equal if they are the same block, if they are equal words, or if they are lists,
or arrays, with equal elements at the same positions.  Sequences may contain themselves, so the
comparison keeps a *trail* of the pairs of sequences it is inside of.  A pair whose two sides
were entered together is taken to be equal when it is met again; if only one side was entered
before, or the two were entered at different levels, the sides differ.

## Main definitions

* `Trail` — the pairs being compared, the innermost first.
* `Heap.equalOn` — the comparison inside a trail.
* `Comparison`, `Heap.compare` — a comparison that starts from a trail and leaves one behind.
* `Heap.equal` — a comparison of its own.
-/

namespace SharedValues

/-- The pairs of sequences being compared, the innermost first. -/
abbrev Trail := List (Addr × Addr)

namespace Heap

/-- Whether two walks found pairwise equal elements and ended together.  The left walk advances
first, so it is the left one whose break is met first.  What the elements are compared in may be
more than the settled words. -/
def walksEqual {ε σ : Type} (same : Addr → Addr → ExceptT ε (StateM σ) Bool) (halt : Fault → ε) :
    List Addr → Option Fault → List Addr → Option Fault → ExceptT ε (StateM σ) Bool
  | x :: xs, f, y :: ys, g => do
    if ← same x y then walksEqual same halt xs f ys g else return false
  | [], some f, _, _ => throw (halt f)
  | _, _, [], some g => throw (halt g)
  | [], none, [], none => return true
  | _, _, _, _ => return false

/-- Whether the values at two addresses are equal, inside a trail and within `n` levels.  A fault
comes with the trail of the pair that met it. -/
def equalWithin (h : Heap) (ignoreCase : Bool) :
    Nat → Trail → Addr → Addr → Query (Fault × Trail) Bool
  | 0, trail, _, _ => throw (.endless, trail)
  | n + 1, trail, x, y =>
    if h.kind x ≠ h.kind y then return false
    else if x = y then return true
    else
      match h.body x, h.body y with
      | .nothing, .nothing => return true
      | .word v, .word w => Query.wordsEqual ignoreCase x v y w
      | .list _, _ | .array .., _ => do
        -- a pair is met again only if both sides were entered at the same level of the trail
        let level := trail.findIdx? (·.1 == x)
        if level ≠ trail.findIdx? (·.2 == y) then return false
        else if level.isSome then return true
        else if h.extent x ≠ h.extent y then return false
        else
          let inner := (x, y) :: trail
          let v := h.elements x
          let w := h.elements y
          walksEqual (h.equalWithin ignoreCase n inner) (·, inner) v.found v.fault? w.found w.fault?
      | _, _ => return false

/-- Whether the values at two addresses are equal, inside a trail.  No two levels of a comparison
enter the same sequence on the left, so there are no more levels than blocks. -/
def equalOn (h : Heap) (ignoreCase : Bool) (trail : Trail) (x y : Addr) :
    Query (Fault × Trail) Bool :=
  h.equalWithin ignoreCase (h.blocks.size + 2) trail x y

/-- Whether two different values of one kind are sequences, whose comparison uses the trail. -/
def usesTrail (h : Heap) (x y : Addr) : Bool :=
  x != y && h.kind x == h.kind y && (h.kind x == .list || h.kind x == .array)

/-- A comparison that starts from a trail: its outcome, and the trail it leaves behind.  Equal
values leave the trail as it was, two different sequences clear it, and a fault leaves it where
it struck. -/
def compare (h : Heap) (ignoreCase : Bool) (trail : Trail) (x y : Addr) :
    StateM Settled (Except Fault Bool × Trail) := do
  match ← (h.equalOn ignoreCase trail x y).run with
  | .error (f, trail) => return (.error f, trail)
  | .ok true => return (.ok true, trail)
  | .ok false => return (.ok false, if h.usesTrail x y then [] else trail)

/-- Whether the values at two addresses are equal. -/
def equal (h : Heap) (ignoreCase : Bool) (x y : Addr) : Query Fault Bool :=
  (h.equalOn ignoreCase [] x y).adapt Prod.fst

end Heap

end SharedValues
