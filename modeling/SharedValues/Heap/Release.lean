import SharedValues.Heap.Permanent

/-!
# Releasing handles

When the last handle to a block is given up, the block is freed, and the handles stored in it are
given up in turn.  A chain of cells is not released cell by cell into the depth: a dying cell
first unlinks the cells behind it that nobody else holds, one after the other.  The pending steps
form a list of tasks, worked off from the front.

## Main definitions

* `Task` — a pending step of a release.
* `Heap.discharge` — works off a list of tasks.
* `Heap.release`, `Heap.releaseAll` — gives up handles.
-/

namespace SharedValues

/-- A pending step of a release. -/
inductive Task where
  /-- Gives up a handle. -/
  | drop (a : Addr)
  /-- Gives up the link to the rest of a dying chain. -/
  | unlink (a : Addr)
  /-- Counts out a block whose handles have all been given up. -/
  | retire
  deriving DecidableEq, Repr

/-- An upper bound on the number of steps that a task takes by itself. -/
def Task.weight : Task → Nat
  | drop _ => 1
  | unlink _ => 2
  | retire => 1

/-- An upper bound on the number of steps that some tasks take by themselves. -/
def Task.load : List Task → Nat
  | [] => 0
  | task :: tasks => task.weight + load tasks

theorem Task.load_append (ts us : List Task) : load (ts ++ us) = load ts + load us := by
  induction ts with
  | nil => simp [load]
  | cons t ts ih => simp only [List.cons_append, load, ih, Nat.add_assoc]

theorem Task.load_map_drop (as : List Addr) : load (as.map .drop) = as.length := by
  induction as with
  | nil => rfl
  | cons a as ih =>
    simp only [List.map_cons, load, weight, ih, List.length_cons]
    omega

/-- An upper bound on the number of steps that freeing a block adds. -/
def Block.weight (b : Block) : Nat := 2 * b.body.handles.length + 4

namespace Heap

/-- The heap without the block at an address. -/
def remove (h : Heap) (a : Addr) : Heap := { h with blocks := h.blocks.modify a fun _ => none }

/-- The heap with one handle less to an address. -/
def uncount (h : Heap) (a : Addr) : Heap := h.modify a fun b => { b with count := b.count - 1 }

/-- The heap with one live block less. -/
def countOut (h : Heap) : Heap := { h with live := h.live - 1 }

/-- An upper bound on the number of steps that freeing every block takes. -/
def weight (h : Heap) : Nat := h.blocks.toList.foldr (fun b n => b.elim 0 Block.weight + n) 0

private theorem foldr_add {α : Type} (w : α → Nat) (l : List α) (n : Nat) :
    l.foldr (fun x n => w x + n) n = l.foldr (fun x n => w x + n) 0 + n := by
  induction l with
  | nil => simp
  | cons x l ih => simp only [List.foldr_cons, ih, Nat.add_assoc]

private theorem foldr_modify {α : Type} (w : α → Nat) (f : α → α) (l : List α) (i : Nat) (x : α)
    (hx : l[i]? = some x) :
    (l.modify i f).foldr (fun x n => w x + n) 0 + w x =
      l.foldr (fun x n => w x + n) 0 + w (f x) := by
  induction l generalizing i with
  | nil => simp at hx
  | cons y l ih =>
    cases i with
    | zero =>
      have hy : y = x := by simpa using hx
      subst hy
      simp only [List.modify_zero_cons, List.foldr_cons]
      omega
    | succ i =>
      have := ih i (by simpa using hx)
      simp only [List.modify_succ_cons, List.foldr_cons]
      omega

theorem getElem?_blocks {h : Heap} {a : Addr} {b : Block} (hb : h.block? a = some b) :
    h.blocks.toList[a]? = some (some b) := by
  simpa [block?, Option.join_eq_some_iff] using hb

/-- Removing a block takes its weight off the heap. -/
theorem weight_remove {h : Heap} {a : Addr} {b : Block} (hb : h.block? a = some b) :
    (h.remove a).weight + b.weight = h.weight := by
  have := foldr_modify (fun o : Option Block => o.elim 0 Block.weight) (fun _ => none)
    h.blocks.toList a (some b) (getElem?_blocks hb)
  simpa [weight, remove, Array.toList_modify] using this

/-- Counts have no weight. -/
theorem weight_uncount {h : Heap} {a : Addr} {b : Block} (hb : h.block? a = some b) :
    (h.uncount a).weight = h.weight := by
  have := foldr_modify (fun o : Option Block => o.elim 0 Block.weight)
    (Option.map fun b : Block => { b with count := b.count - 1 })
    h.blocks.toList a (some b) (getElem?_blocks hb)
  simpa [weight, uncount, modify, Array.toList_modify, Block.weight] using this

/-- Making sure of nothing adds at most one block without handles. -/
theorem weight_ensureNothing (h : Heap) : h.ensureNothing.2.weight ≤ h.weight + 4 := by
  unfold ensureNothing
  split
  · exact Nat.le_add_right ..
  · simp only [weight, alloc, Array.toList_push, List.foldr_append]
    rw [foldr_add]
    simp [Block.weight, Body.handles]

/-- Works off a list of tasks.  A block is taken out of the heap as soon as its last handle is
given up, and counted out when the handles stored in it have been given up too. -/
def discharge (h : Heap) (tasks : List Task) : Heap :=
  match tasks with
  | [] => h
  | .retire :: rest => discharge h.countOut rest
  | .drop a :: rest =>
    match _hb : h.block? a with
    | none => discharge h rest
    | some b =>
      -- the block stays: it has other handles, or is kept for good
      if b.permanent ∨ 1 < b.count then discharge (h.uncount a) rest
      else
        match _hc : b.body.cell? with
        | some (item, next) =>
          -- the rest of the chain is taken apart by a loop, and the element comes after it
          discharge (h.remove a).ensureNothing.2 (.unlink next :: .drop item :: .retire :: rest)
        | none => discharge (h.remove a) (b.body.handles.map .drop ++ .retire :: rest)
  | .unlink a :: rest =>
    match _hb : h.block? a with
    | none => discharge h (.drop a :: rest)
    | some b =>
      -- the chain is shared from here on, so this is the last link to be given up
      if b.permanent ∨ b.count ≠ 1 then discharge h (.drop a :: rest)
      else
        match _hc : b.body.cell? with
        | some (item, next) =>
          -- each cell is counted out before the next one is looked at
          discharge (h.remove a) (.drop item :: .retire :: .unlink next :: rest)
        | none => discharge h (.drop a :: rest)
termination_by h.weight + Task.load tasks
decreasing_by
  all_goals simp only [Task.load, Task.load_append, Task.load_map_drop, Task.weight]
  case _ => simp [weight, countOut]
  case _ => omega
  case _ => have := weight_uncount _hb; omega
  -- a cell has two handles, so its weight makes up for the three tasks and the block of nothing
  case _ =>
    have hr := weight_remove _hb
    have hn := weight_ensureNothing (h.remove a)
    have hw : b.weight = 8 := by
      revert _hc; cases hbody : b.body <;> simp [Body.cell?, Block.weight, Body.handles, hbody]
    omega
  case _ =>
    have hr := weight_remove _hb
    have hw : b.weight = 2 * b.body.handles.length + 4 := rfl
    omega
  case _ => omega
  case _ => omega
  case _ =>
    have hr := weight_remove _hb
    have hw : b.weight = 8 := by
      revert _hc; cases hbody : b.body <;> simp [Body.cell?, Block.weight, Body.handles, hbody]
    omega
  case _ => omega

/-- Gives up a handle. -/
def release (h : Heap) (a : Addr) : Heap := h.discharge [.drop a]

/-- Gives up some handles, in order. -/
def releaseAll (h : Heap) (as : List Addr) : Heap := h.discharge (as.map .drop)

end Heap

end SharedValues
