import SharedValues.Heap.Basic

/-!
# Permanent values

Nothing, and the words for truth and falsehood, exist once.  Each is made when it is first
needed, with a handle that is never given up.
-/

namespace SharedValues.Heap

/-- A heap in which nothing has its block, and the address of that block. -/
def ensureNothing (h : Heap) : Addr × Heap :=
  match h.nothingAt with
  | some a => (a, h)
  | none =>
    let (a, h) := h.alloc .nothing true
    (a, { h with nothingAt := some a })

/-- A heap in which the word for a truth value has its block, and the address of that block. -/
def ensureTruth (h : Heap) (truth : Bool) : Addr × Heap :=
  match if truth then h.trueAt else h.falseAt with
  | some a => (a, h)
  | none =>
    let (a, h) := h.alloc (.word (.text (if truth then "true" else "false") false)) true
    (a, if truth then { h with trueAt := some a } else { h with falseAt := some a })

/-- A handle to nothing. -/
def nothing (h : Heap) : Addr × Heap :=
  let (a, h) := h.ensureNothing
  (a, h.retain a)

/-- A handle to the word for a truth value. -/
def truth (h : Heap) (value : Bool) : Addr × Heap :=
  let (a, h) := h.ensureTruth value
  (a, h.retain a)

end SharedValues.Heap
