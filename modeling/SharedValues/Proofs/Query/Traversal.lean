import SharedValues.Cursor
import SharedValues.Proofs.Heap.Lent
import SharedValues.Proofs.Query.Legible
import SharedValues.Proofs.Sequence.Report

/-!
# Traversals that take handles

A query reads a heap that it cannot change.  A traversal works on the heap itself: it walks by a
cursor, which owns a handle to the place where it is, it owns a handle to the element that it is
about, and it may copy some slots and own handles to them all.  Whatever its outcome, it gives up
all of them by the time it ends.

To say so of a composed traversal, its steps are told apart by what they own when they begin.  A
step *spends* some handles if it has given them all up when it ends, with a result or with a fault,
and is like a query otherwise.  A traversal as a whole spends none.

## Main definitions

* `Traversal` — a reading that takes handles.
* `Traversal.holding`, `Traversal.keeping` — steps around which handles are owned.
* `Traversal.each`, `Traversal.both` — walks along the elements of one sequence, and of two.
* `Traversal.Spends` — a step that gives up what it owns, and is like a query.
* `Cursor.Ahead` — what a cursor has ahead of it.

## Main results

* `Spends.advance_of_cons`, `Spends.advance_of_nil`, `Spends.advance_of_broken` — a cursor moves on,
  is at the end, or meets what is no cell.
* `Spends.each`, `Spends.both` — the walks.
-/

namespace SharedValues

/-- A reading that takes handles and may end in an `ε`. -/
abbrev Traversal (ε α : Type) := ExceptT ε (StateM Store) α

/-- Visits elements one after the other until a visit is the last one. -/
def Query.each {ε β : Type} (halt : Fault → ε) (visit : Addr → β → Query ε (ForInStep β)) :
    List Addr → Option Fault → β → Query ε β
  | [], some f, _ => throw (halt f)
  | [], none, b => return b
  | x :: xs, f, b => do
    match ← visit x b with
    | .done b => return b
    | .yield b => Query.each halt visit xs f b

namespace Traversal

variable {ε α β : Type}

/-! ### Steps -/

/-- Puts a query. -/
def ask (q : Query ε α) : Traversal ε α :=
  fun s =>
    let (result, settled) := q.run s.settled
    (result, { s with settled })

/-- Looks at the heap. -/
def look (f : Heap → α) : Traversal ε α := do return f (← get).heap

/-- Takes some handles. -/
def takeAll (as : List Addr) : Traversal ε Unit :=
  modify fun s => { s with heap := s.heap.retainAll as }

/-- Runs a step, and gives up some owned handles when it ends, whatever its outcome. -/
def holding (as : List Addr) (step : Traversal ε α) : Traversal ε α :=
  fun s =>
    let (result, s) := step.run s
    (result, { s with heap := s.heap.releaseAll as })

/-- Runs a step, and gives up some owned handles if it ends in a fault. -/
def keeping (as : List Addr) (step : Traversal ε α) : Traversal ε α :=
  fun s =>
    match step.run s with
    | (.ok x, s) => (.ok x, s)
    | (.error f, s) => (.error f, { s with heap := s.heap.releaseAll as })

/-! ### Walks -/

/-- Begins to walk along a sequence, while some handles are owned. -/
def begin (halt : Fault → ε) (x : Addr) (as : List Addr) : Traversal ε Cursor :=
  keeping as ((Cursor.start x).adapt halt)

/-- Advances a cursor, while some more handles are owned. -/
def advance (halt : Fault → ε) (c : Cursor) (as : List Addr) :
    Traversal ε (Option Addr × Cursor) :=
  keeping (c.handle :: as) (c.next.adapt halt)

/-- Walks on until a visit is the last one, at most `n` times.  The cursor is owned all the while,
and every element while it is visited. -/
def each (halt : Fault → ε) (visit : Addr → β → Traversal ε (ForInStep β)) :
    ℕ → Cursor → β → Traversal ε β
  | 0, c, _ => holding [c.handle] (throw (halt .endless))
  | n + 1, c, b => do
    match ← advance halt c [] with
    | (none, c) => holding [c.handle] (return b)
    | (some x, c) =>
      match ← keeping [c.handle] (holding [x] (visit x b)) with
      | .done b => holding [c.handle] (return b)
      | .yield b => each halt visit n c b

/-- Walks along two sequences, at most `n` times, until their elements differ.  Both cursors are
owned all the while, and every two elements while they are compared. -/
def both (halt : Fault → ε) (same : Addr → Addr → Traversal ε Bool) :
    ℕ → Cursor → Cursor → Traversal ε Bool
  | 0, c, d => holding [c.handle, d.handle] (return true)
  | n + 1, c, d => do
    let (x, c) ← advance halt c [d.handle]
    let (y, d) ← advance halt d (c.handle :: x.toList)
    match x, y with
    | some x, some y => do
      if ← keeping [c.handle, d.handle] (holding [x, y] (same x y)) then both halt same n c d
      else holding [c.handle, d.handle] (return false)
    | none, none => holding [c.handle, d.handle] (return true)
    | x, y => holding ([c.handle, d.handle] ++ x.toList ++ y.toList) (return false)

/-- Visits some values, whose handles are owned, and gives up each of them after its visit. -/
def consume (visit : Addr → Traversal ε α) : List Addr → Traversal ε (List α)
  | [] => return []
  | a :: as => do
    let b ← keeping as (holding [a] (visit a))
    return b :: (← consume visit as)

/-! ### Spending handles -/

/-- **A step spends the handles that it owns**: it has given them up when it ends, and its outcome
and the words that it settles are those of a query. -/
def Spends (h : Heap) (own : Multiset Addr) (step : Traversal ε α) (q : Query ε α) : Prop :=
  ∀ held σ, step.run ⟨h.lent (own + held), σ⟩ = ((q.run σ).1, ⟨h.lent held, (q.run σ).2⟩)

variable {h : Heap} {own : Multiset Addr} {as : List Addr} {step : Traversal ε α} {q : Query ε α}
  {f : α → Traversal ε β} {g : α → Query ε β}

/-- A step after one that keeps handles has them, unless there is none. -/
theorem run_keeping_bind (as : List Addr) (step : Traversal ε α) (f : α → Traversal ε β)
    (s : Store) :
    (keeping as step >>= f).run s =
      match step.run s with
      | (.ok a, t) => (f a).run t
      | (.error e, t) => (.error e, { t with heap := t.heap.releaseAll as }) := by
  have hrun : (keeping as step).run s =
      match step.run s with
      | (.ok a, t) => (.ok a, t)
      | (.error e, t) => (.error e, { t with heap := t.heap.releaseAll as }) := rfl
  rw [run_bind, hrun]
  rcases step.run s with ⟨_ | _, _⟩ <;> rfl

theorem run_adapt {ε' : Type} (step : ExceptT ε (StateM Store) α) (r : ε → ε') (s : Store) :
    (step.adapt r).run s = ((step.run s).1.mapError r, (step.run s).2) := rfl

theorem spends_pure (h : Heap) (a : α) : Spends h 0 (pure a : Traversal ε α) (pure a) := by
  intro held σ
  rw [zero_add]
  rfl

theorem spends_throw (h : Heap) (e : ε) : Spends h 0 (throw e : Traversal ε α) (throw e) := by
  intro held σ
  rw [zero_add]
  rfl

theorem spends_ask (h : Heap) (q : Query ε α) : Spends h 0 (ask q) q := by
  intro held σ
  rw [zero_add]
  rfl

namespace Spends

theorem of_eq {own' : Multiset Addr} (hstep : Spends h own step q) (hown : own = own') :
    Spends h own' step q :=
  hown ▸ hstep

/-- Outside of any traversal, a step that owns nothing leaves the heap as it was. -/
theorem run (hstep : Spends h 0 step q) (σ : Settled) :
    step.run ⟨h, σ⟩ = ((q.run σ).1, ⟨h, (q.run σ).2⟩) := by
  simpa using hstep 0 σ

/-- A step after one that has given up everything. -/
theorem bind (hstep : Spends h own step q) (hf : ∀ a, Spends h 0 (f a) (g a)) :
    Spends h own (step >>= f) (q >>= g) := by
  intro held σ
  rw [run_bind, run_bind, hstep held σ]
  rcases q.run σ with ⟨e | a, τ⟩
  · rfl
  · simpa using hf a held τ

theorem map (hstep : Spends h own step q) (r : α → β) : Spends h own (r <$> step) (r <$> q) :=
  hstep.bind fun a => spends_pure h (r a)

theorem adapt {ε' : Type} (hstep : Spends h own step q) (r : ε → ε') :
    Spends h own (step.adapt r) (q.adapt r) := by
  intro held σ
  rw [run_adapt, hstep held σ]
  rfl

/-- What is looked at does not depend on the handles that are held. -/
theorem look {γ : Type} {r : Heap → γ} {f : γ → Traversal ε β} {q : Query ε β}
    (hr : ∀ held, r (h.lent held) = r h) (hf : Spends h own (f (r h)) q) :
    Spends h own (look r >>= f) q := by
  intro held σ
  rw [← hf held σ, ← hr (own + held)]
  rfl

/-- Handles that were taken are owned from then on. -/
theorem takeAll {f : Unit → Traversal ε β} {q : Query ε β} (hf : Spends h (as + own) (f ()) q) :
    Spends h own (takeAll as >>= f) q := by
  intro held σ
  rw [← hf held σ, add_assoc, ← Heap.retainAll_lent]
  rfl

/-- Handles are given up at the end. -/
theorem holding (hh : h.InUse) (as : List Addr) (hstep : Spends h own step q) :
    Spends h (as + own) (holding as step) q := by
  intro held σ
  have hrun : ∀ s, (Traversal.holding as step).run s =
      ((step.run s).1, { (step.run s).2 with heap := (step.run s).2.heap.releaseAll as }) :=
    fun _ => rfl
  rw [hrun, add_assoc, add_left_comm, hstep (as + held) σ, hh.releaseAll_lent]

/-- Nothing is left to be done with the handles that are owned. -/
theorem holding_pure (hh : h.InUse) (as : List Addr) (a : α) :
    Spends h as (Traversal.holding as (pure a) : Traversal ε α) (pure a) := by
  simpa using Spends.holding hh as (spends_pure (ε := ε) h a)

/-- Handles are kept for the next step, and given up if there is none. -/
theorem keeping (hh : h.InUse) (as : List Addr) (hstep : Spends h own step q)
    (hf : ∀ a, Spends h as (f a) (g a)) :
    Spends h (own + as) (keeping as step >>= f) (q >>= g) := by
  intro held σ
  rw [run_keeping_bind, run_bind, add_assoc, hstep (as + held) σ]
  rcases q.run σ with ⟨e | a, τ⟩
  · dsimp only
    rw [hh.releaseAll_lent]
  · exact hf a held τ

end Spends

end Traversal

/-! ### Cursors -/

namespace Cursor

open Heap Operation

variable {h : Heap} {c : Cursor} {w : Walk} {n : ℕ} {x : Addr}

/-- What a cursor has ahead of it: the elements, what comes after them, and a bound on the number of
the elements. -/
inductive Ahead (h : Heap) : Cursor → ℕ → Walk → Prop
  /-- The chain from a link on. -/
  | list (link : Addr) (n : ℕ) :
    Ahead h (.list link n) n ⟨(h.chain n link).found.map h.itemOf, (h.chain n link).broken⟩
  /-- The slots of an array from one of them on. -/
  | array {base : Addr} {origin : ℤ} {slots : List Addr} (slot : ℕ)
    (hbase : h.body base = .array origin slots) :
    Ahead h (.array base slot) (slots.length - slot) ⟨slots.drop slot, none⟩

/-- What happens when a cursor is advanced, other handles being held as well. -/
inductive Advances (h : Heap) (c : Cursor) : ℕ → Walk → Prop
  /-- The cursor moves on, and takes a handle to the element. -/
  | cons {n : ℕ} {c' : Cursor} {x : Addr} {xs : List Addr} {broken : Option Kind} :
    c'.Ahead h n ⟨xs, broken⟩ →
    (∀ held σ, c.next.run ⟨h.lent (c.handle ::ₘ held), σ⟩ =
      (.ok (some x, c'), ⟨h.lent (c'.handle ::ₘ x ::ₘ held), σ⟩)) →
    Advances h c (n + 1) ⟨x :: xs, broken⟩
  /-- The cursor is at the end. -/
  | nil {n : ℕ} : (∀ held σ, c.next.run ⟨h.lent held, σ⟩ = (.ok (none, c), ⟨h.lent held, σ⟩)) →
    Advances h c n ⟨[], none⟩
  /-- The cursor is at what is neither a cell nor nothing. -/
  | broken {n : ℕ} {k : Kind} : (∀ held σ, c.next.run ⟨h.lent held, σ⟩ =
      (.error (.violated (.kindMismatch .cell k)), ⟨h.lent held, σ⟩)) →
    Advances h c n ⟨[], some k⟩

/-- A cursor that has no more steps left is at the end. -/
theorem Ahead.eq_of_zero (hc : c.Ahead h 0 w) : w = ⟨[], none⟩ := by
  generalize hn : 0 = n at hc
  cases hc with
  | list link n => subst hn; rfl
  | array slot hbase => rw [List.drop_eq_nil_of_le (Nat.sub_eq_zero_iff_le.mp hn.symm)]

/-- A query that neither fails nor settles anything. -/
theorem run_ask_of_pure {α : Type} {q : Heap → Query Fault α} {a : α} {s : Store}
    (hq : q s.heap = pure a) : (ask q).run s = (.ok a, s) := by
  have hrun : (ask q).run s = (((q s.heap).run s.settled).1,
      { s with settled := ((q s.heap).run s.settled).2 }) := rfl
  rw [hrun, hq]
  rfl

/-- A cursor on a chain looks at its link. -/
theorem run_next_list (link : Addr) (n : ℕ) (s : Store) :
    (next (.list link n)).run s =
      if 0 < n && !s.heap.isNothing link then
        match s.heap.cell link with
        | .ok (item, rest) => (.ok (some item, .list rest (n - 1)),
            { s with heap := ((s.heap.retain rest).retain item).release link })
        | .error r => (.error (.violated r), s)
      else (.ok (none, .list link n), s) := by
  have hmore : (ask (hasMore (.list link n))).run s =
      (.ok (0 < n && !s.heap.isNothing link), s) := run_ask_of_pure rfl
  have hcell : (assert (·.cell link)).run s =
      ((s.heap.cell link).mapError .violated, s) := rfl
  rw [next, run_bind, hmore]
  cases 0 < n && !s.heap.isNothing link with
  | false => rfl
  | true =>
    refine (run_bind (assert (·.cell link)) _ s).trans ?_
    rw [hcell]
    rcases s.heap.cell link with _ | ⟨item, rest⟩ <;> rfl

/-- A cursor on a chain is advanced. -/
theorem advances_list (hh : h.InUse) (link : Addr) (n : ℕ) : Advances h (.list link n) n
    ⟨(h.chain n link).found.map h.itemOf, (h.chain n link).broken⟩ := by
  cases n with
  | zero => exact .nil fun _ _ => rfl
  | succ n =>
    rw [chain]
    cases hlink : h.body link with
    | nothing =>
      refine .nil fun held σ => ?_
      rw [run_next_list, if_neg (by simp [isNothing, kind, hlink, Body.kind])]
    | cell item rest =>
      have hitem : h.itemOf link = item := by simp [itemOf, hlink, Body.cell?]
      dsimp only
      rw [List.map_cons, hitem]
      refine .cons (.list rest n) fun held σ => ?_
      have hcell : (h.lent (link ::ₘ held)).cell link = .ok (item, rest) :=
        cell_eq_ok ((body_lent ..).trans hlink)
      rw [run_next_list, if_pos (by simp [isNothing, kind, hlink, Body.kind]), handle, hcell]
      dsimp only
      -- the cursor takes the rest of the chain and the item before it gives up its link
      have hheld : item ::ₘ rest ::ₘ link ::ₘ held = link ::ₘ rest ::ₘ item ::ₘ held := by
        rw [Multiset.cons_swap rest link, Multiset.cons_swap item link,
          Multiset.cons_swap item rest]
      rw [retain_lent, retain_lent, hheld, hh.release_lent]
      rfl
    | _ =>
      refine .broken fun held σ => ?_
      rw [run_next_list, if_pos (by simp [isNothing, kind, hlink, Body.kind])]
      simp [Heap.cell, expect, kind, hlink, Body.cell?]

/-- A cursor on an array looks at its slots. -/
theorem run_next_array {base : Addr} {origin : ℤ} {slots : List Addr} {s : Store}
    (hbase : s.heap.body base = .array origin slots) (slot : ℕ) :
    (next (.array base slot)).run s =
      match slots[slot]? with
      | some item => (.ok (some item, .array base (slot + 1)),
          { s with heap := s.heap.retain item })
      | none => (.ok (none, .array base slot), s) := by
  -- the slots are read off the array each time, so the cursor holds nothing but the array
  have harray : s.heap.array base = .ok (origin, slots) := by
    simp [Heap.array, expect, hbase, Body.array?]
  have hslots : slotsOf s.heap base = pure slots := by rw [slotsOf, harray]
  have hmore : hasMore (.array base slot) s.heap = pure (decide (slot < slots.length)) := by
    rw [hasMore, hslots, pure_bind]
  rw [next, run_bind, run_ask_of_pure hmore]
  by_cases hslot : slot < slots.length
  · rw [decide_eq_true hslot]
    refine (run_bind (ask (slotsOf · base)) _ s).trans ?_
    rw [run_ask_of_pure hslots]
    dsimp only
    cases slots[slot]? <;> rfl
  · rw [decide_eq_false hslot, List.getElem?_eq_none (Nat.le_of_not_lt hslot)]
    rfl

/-- A cursor on an array is advanced. -/
theorem advances_array {base : Addr} {origin : ℤ} {slots : List Addr}
    (hbase : h.body base = .array origin slots) (slot : ℕ) :
    Advances h (.array base slot) (slots.length - slot) ⟨slots.drop slot, none⟩ := by
  have hrun := fun held σ =>
    run_next_array (s := ⟨h.lent held, σ⟩) ((body_lent ..).trans hbase) slot
  by_cases hslot : slot < slots.length
  · obtain ⟨k, hk⟩ : ∃ k, slots.length - slot = k + 1 := ⟨slots.length - (slot + 1), by omega⟩
    rw [List.drop_eq_getElem_cons hslot, hk, show k = slots.length - (slot + 1) by omega]
    refine .cons (.array (slot + 1) hbase) fun held σ => ?_
    rw [hrun, List.getElem?_eq_getElem hslot]
    dsimp only
    rw [handle, handle, retain_lent, Multiset.cons_swap]
  · rw [List.drop_eq_nil_of_le (Nat.le_of_not_lt hslot)]
    refine .nil fun held σ => ?_
    rw [hrun, List.getElem?_eq_none (Nat.le_of_not_lt hslot)]

theorem Ahead.advances (hh : h.InUse) (hc : c.Ahead h n w) : Advances h c n w := by
  cases hc with
  | list link n => exact advances_list hh link n
  | array slot hbase => exact advances_array hbase slot

/-- A cursor starts with a look at the value. -/
theorem run_look_body (x : Addr) (s : Store) :
    (Operation.look (·.body x)).run s = (.ok (s.heap.body x), s) := rfl

theorem run_start_list {l : ListHeader} {s : Store} (hx : s.heap.body x = .list l) :
    (start x).run s = (.ok (.list l.head l.size), { s with heap := s.heap.retain l.head }) := by
  rw [start, run_bind, run_look_body, hx]
  rfl

theorem run_start_array {origin : ℤ} {slots : List Addr} {s : Store}
    (hx : s.heap.body x = .array origin slots) :
    (start x).run s = (.ok (.array x 0), { s with heap := s.heap.retain x }) := by
  rw [start, run_bind, run_look_body, hx]
  rfl

/-- A cursor on a sequence has its elements ahead. -/
theorem exists_start (hx : h.IsSequence x) : ∃ c, Ahead h c (h.extent x) (h.elements x) ∧
    ∀ held σ, (start x).run ⟨h.lent held, σ⟩ = (.ok c, ⟨h.lent (c.handle ::ₘ held), σ⟩) := by
  unfold IsSequence kind at hx
  unfold extent elements
  cases hbody : h.body x with
  | list l =>
    refine ⟨.list l.head l.size, .list l.head l.size, fun held σ => ?_⟩
    rw [run_start_list ((body_lent ..).trans hbody), handle, ← retain_lent]
  | array origin slots =>
    refine ⟨.array x 0, by simpa using Ahead.array 0 hbody, fun held σ => ?_⟩
    rw [run_start_array ((body_lent ..).trans hbody), handle, ← retain_lent]
  | _ => simp [hbody, Body.kind] at hx

end Cursor

/-! ### Walks -/

namespace Traversal

open Heap

variable {ε α β : Type} {h : Heap} {own : Multiset Addr} {as : List Addr} {halt : Fault → ε}
  {c d : Cursor} {v w : Walk} {n m : ℕ} {x y : Addr}

namespace Spends

/-- A walk begins with all elements ahead. -/
theorem begin {f : Cursor → Traversal ε β} {q : Query ε β} (as : List Addr) (hx : h.IsSequence x)
    (hf : ∀ c, c.Ahead h (h.extent x) (h.elements x) → Spends h (c.handle ::ₘ as) (f c) q) :
    Spends h as (begin halt x as >>= f) q := by
  obtain ⟨c, hc, hrun⟩ := Cursor.exists_start hx
  intro held σ
  rw [Traversal.begin, run_keeping_bind, run_adapt, hrun _ σ, ← Multiset.cons_add]
  exact hf c hc held σ

section Advance

variable {f : Option Addr × Cursor → Traversal ε β} {q : Query ε β}

/-- A cursor moves on to the next element. -/
theorem advance_of_cons
    (hrun : ∀ held σ, c.next.run ⟨h.lent (c.handle ::ₘ held), σ⟩ =
      (.ok (some x, d), ⟨h.lent (d.handle ::ₘ x ::ₘ held), σ⟩))
    (hf : Spends h (d.handle ::ₘ x ::ₘ as) (f (some x, d)) q) :
    Spends h (c.handle ::ₘ as) (advance halt c as >>= f) q := by
  intro held σ
  rw [advance, Multiset.cons_add, run_keeping_bind, run_adapt, hrun _ σ, ← Multiset.cons_add,
    ← Multiset.cons_add]
  exact hf held σ

/-- A cursor is at the end. -/
theorem advance_of_nil
    (hrun : ∀ held σ, c.next.run ⟨h.lent held, σ⟩ = (.ok (none, c), ⟨h.lent held, σ⟩))
    (hf : Spends h (c.handle ::ₘ as) (f (none, c)) q) :
    Spends h (c.handle ::ₘ as) (advance halt c as >>= f) q := by
  intro held σ
  rw [advance, run_keeping_bind, run_adapt, hrun _ σ]
  exact hf held σ

/-- A cursor that meets what is no cell ends the walk. -/
theorem advance_of_broken (hh : h.InUse) {e : Fault}
    (hrun : ∀ held σ, c.next.run ⟨h.lent held, σ⟩ = (.error e, ⟨h.lent held, σ⟩)) :
    Spends h (c.handle ::ₘ as) (advance halt c as >>= f) (throw (halt e)) := by
  intro held σ
  rw [advance, Multiset.cons_coe, run_keeping_bind, run_adapt, hrun _ σ]
  dsimp only [Except.mapError]
  rw [hh.releaseAll_lent]
  rfl

end Advance

/-- **A walk along a sequence** visits its elements, and gives up all handles in the end. -/
theorem each (hh : h.InUse) {visit : Addr → β → Traversal ε (ForInStep β)}
    {visit' : Addr → β → Query ε (ForInStep β)}
    (hvisit : ∀ x ∈ w.found, ∀ b, Spends h 0 (visit x b) (visit' x b)) (hc : c.Ahead h n w)
    (hm : n < m) (b : β) :
    Spends h {c.handle} (each halt visit m c b) (Query.each halt visit' w.found w.fault? b) := by
  induction m generalizing c n w b with
  | zero => exact absurd hm (Nat.not_lt_zero n)
  | succ m ih =>
    show Spends h (c.handle ::ₘ ↑([] : List Addr)) _ _
    cases hc.advances hh with
    | nil hrun => exact advance_of_nil hrun (holding_pure hh [c.handle] b)
    | broken hrun => exact advance_of_broken hh hrun
    | @cons n d x xs broken hrest hrun =>
      refine advance_of_cons hrun ?_
      -- the item is held while it is visited, and released before the cursor goes on
      have hx := (hvisit x List.mem_cons_self b).holding hh [x]
      refine (keeping hh [d.handle] hx fun r => ?_).of_eq (add_comm ..)
      cases r with
      | done b => exact holding_pure hh [d.handle] b
      | yield b =>
        exact ih (fun y hy => hvisit y (List.mem_cons_of_mem x hy)) hrest
          (Nat.lt_of_succ_lt_succ hm) b

/-- **A walk along two sequences** compares their elements, and gives up all handles in the end. -/
theorem both (hh : h.InUse) {same : Addr → Addr → Traversal ε Bool}
    {same' : Addr → Addr → Query ε Bool} (hsame : ∀ x ∈ v.found, ∀ y ∈ w.found,
      Spends h 0 (same x y) (same' x y)) (hc : c.Ahead h n v) (hd : d.Ahead h n w) :
    Spends h {c.handle, d.handle} (both halt same n c d)
      (walksEqual same' halt v.found v.fault? w.found w.fault?) := by
  induction n generalizing c d v w with
  | zero =>
    rw [hc.eq_of_zero, hd.eq_of_zero]
    exact holding_pure hh [c.handle, d.handle] true
  | succ n ih =>
    show Spends h (c.handle ::ₘ ↑[d.handle]) _ _
    cases hc.advances hh with
    | broken hrun => exact advance_of_broken hh hrun
    | nil hrun =>
      -- the first sequence is over, and an item that the second still has is taken and given up
      have hswap : (d.handle ::ₘ ↑[c.handle] : Multiset Addr) = c.handle ::ₘ ↑[d.handle] :=
        Multiset.cons_swap _ _ 0
      refine advance_of_nil hrun (of_eq ?_ hswap)
      cases hd.advances hh with
      | broken hrun' => exact advance_of_broken hh hrun'
      | nil hrun' =>
        exact advance_of_nil hrun'
          ((holding_pure hh [c.handle, d.handle] true).of_eq (Multiset.cons_swap _ _ 0))
      | @cons n d' y ys broken hrest' hrun' =>
        refine advance_of_cons hrun' ((holding_pure hh [c.handle, d'.handle, y] false).of_eq ?_)
        exact add_comm (↑[c.handle] : Multiset Addr) ↑[d'.handle, y]
    | @cons n c' x xs broken hrest hrun =>
      -- both have an item, and it is the item of the second that is taken last
      have hswap : (d.handle ::ₘ ↑[c'.handle, x] : Multiset Addr) =
          c'.handle ::ₘ x ::ₘ ↑[d.handle] := add_comm (↑[d.handle] : Multiset Addr) ↑[c'.handle, x]
      refine advance_of_cons hrun (of_eq ?_ hswap)
      cases hd.advances hh with
      | broken hrun' => exact advance_of_broken hh hrun'
      | nil hrun' =>
        exact advance_of_nil hrun'
          ((holding_pure hh [c'.handle, d.handle, x] false).of_eq (Multiset.cons_swap _ _ {x}))
      | @cons n d' y ys broken' hrest' hrun' =>
        refine advance_of_cons hrun' ?_
        -- both items are held while they are compared, and released whatever the answer
        have hxy := (hsame x List.mem_cons_self y List.mem_cons_self).holding hh [x, y]
        refine (keeping hh [c'.handle, d'.handle] hxy fun r => ?_).of_eq ?_
        · cases r with
          | true =>
            exact ih (fun a ha b hb => hsame a (List.mem_cons_of_mem x ha) b
              (List.mem_cons_of_mem y hb)) hrest hrest'
          | false => exact holding_pure hh [c'.handle, d'.handle] false
        · simp only [← Multiset.cons_coe, Multiset.coe_nil, ← Multiset.singleton_add]
          abel

/-- Values are visited one after the other, and the handles to them are given up. -/
theorem consume (hh : h.InUse) {visit : Addr → Traversal ε α} {visit' : Addr → Query ε α}
    (hvisit : ∀ a ∈ as, Spends h 0 (visit a) (visit' a)) :
    Spends h as (consume visit as) (as.mapM visit') := by
  induction as with
  | nil => exact spends_pure h []
  | cons a as ih =>
    rw [List.mapM_cons]
    have ha := (hvisit a List.mem_cons_self).holding hh [a]
    refine (keeping hh as ha fun b => ?_).of_eq rfl
    exact (ih fun c hc => hvisit c (List.mem_cons_of_mem a hc)).map (b :: ·)

end Spends

end Traversal

end SharedValues
