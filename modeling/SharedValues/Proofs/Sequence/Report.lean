import SharedValues.Proofs.Chain.Unshared

/-!
# What a list reports

The size that a list keeps, its first and its last element, whether it has any, and the elements
that a cursor goes over, are all those of one sequence: the elements in the cells of its chain.

## Main definitions

* `Cursor.drain` — the next elements that a cursor goes over.
* `Store.Reports` — the answers of a list about its elements.
* `Heap.Walked` — the cells and the elements that a list finds in as many steps as its size allows.

## Main results

* `Heap.run_next_cell` — an advance of a cursor over one cell.
* `Heap.ensures_drain` — a cursor goes over the elements in the order of the cells.
* `Listed.reports` — a list reports its elements.
-/

namespace SharedValues

open Heap Operation

/-- The next elements that a cursor goes over, at most `n` of them. -/
def Cursor.drain : ℕ → Cursor → Operation (List Addr)
  | 0, _ => return []
  | n + 1, c => do
    match ← c.next with
    | (some a, c) => return a :: (← Cursor.drain n c)
    | (none, _) => return []

/-- **What a list reports**: the answers about its elements are those about the sequence `as`. -/
structure Store.Reports (s : Store) (x : Addr) (as : List Addr) : Prop where
  /-- The number of elements. -/
  size : ((ask (Sequence.size x)).run s).1 = .ok as.length
  /-- Whether there are none. -/
  isEmpty : ((ask (Sequence.isEmpty x)).run s).1 = .ok as.isEmpty
  /-- The first element. -/
  first : ((Sequence.first x).run s).1
    = as.head?.elim (.error (.refused (.emptySequence .first .list))) .ok
  /-- The last element. -/
  last : ((Sequence.last x).run s).1
    = as.getLast?.elim (.error (.refused (.emptySequence .last .list))) .ok
  /-- The elements that a new cursor goes over. -/
  cursor : ∀ n, ((Cursor.start x >>= Cursor.drain n).run s).1 = .ok (as.take n)

namespace Heap

/-- **A walk along the list `x` finds the cells `cs`**, one in each step that the size allows, with
the elements `as` in them.  A cell may be found twice. -/
structure Walked (h : Heap) (x : Addr) (l : ListHeader) (cs as : List Addr) : Prop where
  /-- The header. -/
  body : h.body x = .list l
  /-- The cells. -/
  offers : h.Offers l.head cs
  /-- There is one in each step. -/
  size : l.size = cs.length
  /-- The elements in the cells. -/
  items : cs.map h.itemOf = as

variable {h : Heap} {held : Multiset Addr} {a c item link n x head : Addr} {l : ListHeader}
  {cs as : List Addr} {s : Store}

/-! ### The cells of a walk -/

theorem cellAt_of_not_inRange (h : Heap) {index : ℤ} (hindex : ¬(1 ≤ index ∧ index ≤ l.size)) :
    l.cellAt index h = .error (.refused (.outOfRange .list index l.size)) := by
  have hrange : l.inRange index = false := by simpa [ListHeader.inRange] using hindex
  simp [ListHeader.cellAt, hrange]

namespace Offers

/-- A walk along a list finds the cells that its size allows. -/
theorem cells_eq (hcs : h.Offers l.head cs) (hsize : l.size = cs.length) :
    h.cells l = ⟨cs, none⟩ := by
  rw [cells, hsize, hcs.chain_eq]

/-- The search for a cell finds the one at the index. -/
theorem cellAt_of_inRange (hcs : h.Offers l.head cs) (hsize : l.size = cs.length) {index : ℤ}
    (hindex : 1 ≤ index ∧ index ≤ l.size) :
    ∃ c, cs[index.toNat - 1]? = some c ∧ l.cellAt index h = .ok c := by
  have hlt : index.toNat - 1 < cs.length := by omega
  refine ⟨cs[index.toNat - 1], List.getElem?_eq_getElem hlt, ?_⟩
  have hrange : l.inRange index = true := by simpa [ListHeader.inRange] using hindex
  simp [ListHeader.cellAt, hrange, hcs.cells_eq hsize, List.getElem?_eq_getElem hlt]

theorem someHead_eq (hcs : h.Offers l.head cs) (hne : cs ≠ []) (op : Op) :
    l.someHead op h = .ok l.head := by
  cases hcs with
  | nil => exact absurd rfl hne
  | cons hn _ => simp [ListHeader.someHead, isNothing, kind_of_next? hn]

/-- The first cell is read whole. -/
theorem firstCell_cons (hcs : h.Offers l.head (c :: cs)) (op : Op) :
    ∃ n, h.next? c = some n ∧ h.Offers n cs ∧ l.firstCell op h = .ok (c, h.itemOf c, n) := by
  have hhead := hcs.someHead_eq (List.cons_ne_nil c cs) op
  rcases hcs with _ | ⟨hn, hrest⟩
  obtain ⟨item, hbody⟩ := next?_eq_some_iff.mp hn
  refine ⟨_, hn, hrest, ?_⟩
  rw [ListHeader.firstCell, hhead, itemOf, hbody]
  simp only [bind, Except.bind, cell_eq_ok hbody]
  rfl

/-- The last cell is the one that a walk along the list ends with. -/
theorem lastCell_concat (hcs : h.Offers l.head (cs ++ [c])) (hsize : l.size = (cs ++ [c]).length) :
    l.lastCell h = .ok c := by
  rw [ListHeader.lastCell, hcs.someHead_eq (by simp), hcs.cells_eq hsize]
  simp [bind, Except.bind, Walk.fault?, pure, Except.pure]

end Offers

namespace Walked

theorem size_eq (hw : h.Walked x l cs as) : l.size = as.length := by
  rw [hw.size, ← hw.items, List.length_map]

theorem cells_ne_nil (hw : h.Walked x l cs as) (hne : as ≠ []) : cs ≠ [] := by
  rintro rfl
  exact hne hw.items.symm

end Walked

/-- A chain of the right length is walked to its end. -/
theorem Listed.walked (hl : h.Listed x head cs as) :
    h.Walked x { head, size := as.length } cs as where
  body := hl.body
  offers := hl.chain.offers
  size := hl.length_eq.symm
  items := hl.items

/-! ### The first and the last cell -/

namespace Listed

/-- An empty list has no cells. -/
theorem isNothing_head (hl : h.Listed x head cs as) : h.isNothing head = as.isEmpty := by
  have hlength := hl.length_eq
  cases hl.chain with
  | nil hk =>
    obtain rfl := List.eq_nil_of_length_eq_zero hlength.symm
    simp [isNothing, hk]
  | cons hn _ =>
    obtain ⟨a, as, rfl⟩ := List.exists_cons_of_length_eq_add_one hlength.symm
    simp [isNothing, kind_of_next? hn]

/-- A list that is not empty has a first cell with the first element. -/
theorem first_cell {bs : List Addr} (hl : h.Listed x head cs (a :: bs)) :
    ∃ n ds, cs = head :: ds ∧ h.body head = .cell a n := by
  have hlength := hl.length_eq
  have hitems := hl.items
  cases hl.chain with
  | nil _ => simp at hlength
  | @cons _ n ds hn _ =>
    obtain ⟨item, hbody⟩ := next?_eq_some_iff.mp hn
    have hitem : h.itemOf head = a := (List.cons.inj hitems).1
    rw [itemOf, hbody] at hitem
    exact ⟨n, ds, rfl, by rw [hbody]; exact congrArg (Body.cell · n) hitem⟩

/-- A walk along the list finds its cells. -/
theorem cells_eq (hl : h.Listed x head cs as) :
    h.cells { head, size := as.length } = ⟨cs, none⟩ := by
  rw [cells, hl.chain.chain_eq, ← hl.length_eq, List.take_length]

/-- The search for a cell is right about the range. -/
theorem cellAt_of_inRange (hl : h.Listed x head cs as) {index : ℤ}
    (hindex : 1 ≤ index ∧ index ≤ as.length) :
    ∃ c, cs[index.toNat - 1]? = some c ∧
      ListHeader.cellAt { head, size := as.length } index h = .ok c :=
  hl.chain.offers.cellAt_of_inRange hl.length_eq.symm hindex

/-- What needs an element is refused by an empty list. -/
theorem someHead_nil (hl : h.Listed x head cs []) (op : Op) (size : ℕ) :
    ListHeader.someHead op { head, size } h = .error (.refused (.emptySequence op .list)) := by
  simp [ListHeader.someHead, hl.isNothing_head]

theorem someHead_cons {bs : List Addr} (hl : h.Listed x head cs (a :: bs)) (op : Op) (size : ℕ) :
    ListHeader.someHead op { head, size } h = .ok head := by
  simp [ListHeader.someHead, hl.isNothing_head]

theorem firstCell_nil (hl : h.Listed x head cs []) (op : Op) (size : ℕ) :
    ListHeader.firstCell op { head, size } h = .error (.refused (.emptySequence op .list)) := by
  rw [ListHeader.firstCell, hl.someHead_nil]
  rfl

theorem firstCell_cons {bs : List Addr} (hl : h.Listed x head cs (a :: bs))
    (hn : h.body head = .cell a n) (op : Op) (size : ℕ) :
    ListHeader.firstCell op { head, size } h = .ok (head, a, n) := by
  rw [ListHeader.firstCell, hl.someHead_cons]
  simp only [bind, Except.bind, cell_eq_ok hn]
  rfl

theorem lastCell_nil (hl : h.Listed x head cs []) (size : ℕ) :
    ListHeader.lastCell { head, size } h = .error (.refused (.emptySequence .last .list)) := by
  rw [ListHeader.lastCell, hl.someHead_nil]
  rfl

end Listed

/-! ### Cursors -/

theorem ensures_next_nil {Q : Option Addr × Cursor → Store → Prop} {E : Fault → Store → Prop} :
    Ensures (Cursor.next (.list link 0)) s Q E ↔ Q (none, .list link 0) s :=
  ensures_bind.trans (ensures_ask_of_pure (a := false) rfl)

theorem ensures_next_cons {Q : Option Addr × Cursor → Store → Prop} {E : Fault → Store → Prop}
    (hbody : s.heap.body link = .cell item n) (size : ℕ) :
    Ensures (Cursor.next (.list link (size + 1))) s Q E ↔ Q (some item, .list n size)
      { s with heap := ((s.heap.retain n).retain item).release link } := by
  have hmore : Cursor.hasMore (.list link (size + 1)) s.heap = pure true := by
    rw [Cursor.hasMore, isNothing, kind, hbody]
    rfl
  rw [Cursor.next, ensures_bind, ensures_ask_of_pure hmore]
  refine ensures_bind.trans ?_
  rw [ensures_assert_of_ok (cell_eq_ok hbody)]
  exact Iff.rfl

/-- **A cursor advances over a cell**, gives out the element in it and goes on to its link.  What
comes after the cell is as it was. -/
theorem run_next_cell (hh : s.heap.Exact (held + {link})) (hn : s.heap.next? link = some n)
    (hcs : s.heap.Offers n cs) (m : ℕ) :
    ∃ t, (Cursor.next (.list link (m + 1))).run s =
        (.ok (some (s.heap.itemOf link), .list n m), t) ∧
      t.heap.Exact (held + {s.heap.itemOf link} + {n}) ∧ t.heap.Offers n cs ∧
      cs.map t.heap.itemOf = cs.map s.heap.itemOf := by
  obtain ⟨item, hbody⟩ := next?_eq_some_iff.mp hn
  have hitem : s.heap.itemOf link = item := by
    rw [itemOf, hbody]
    rfl
  -- what comes next is held by the cursor, and the element by the caller
  have hmoved := (ensures_next_cons hbody m).mp
    (kept_exact.cursor_next (c := .list link (m + 1)) hh)
  have hexact := hmoved.1
  obtain ⟨hchain, hitems⟩ := hcs.congr hh hexact (hh.live_next hn)
    (hexact.live_of_held (by simp [Cursor.handle])) fun a _ ha =>
      ((releaseAll_thins _ [link]).body_eq ha).trans ((body_retain ..).trans (body_retain ..))
  rw [Cursor.handle, add_right_comm] at hexact
  have hrun : Ensures (Cursor.next (.list link (m + 1))) s (fun r t =>
      r = (some item, .list n m) ∧
        t = { s with heap := ((s.heap.retain n).retain item).release link }) fun _ _ => False :=
    (ensures_next_cons hbody m).mpr ⟨rfl, rfl⟩
  obtain ⟨r, t, hrun, rfl, rfl⟩ := hrun.exists_ok
  rw [hitem]
  exact ⟨_, hrun, hexact, hchain, hitems⟩

/-- **A cursor goes over the elements** in the order of the cells. -/
theorem ensures_drain (hh : s.heap.Exact (held + {link})) (hcs : s.heap.Offers link cs) (k : ℕ) :
    Ensures (Cursor.drain k (.list link cs.length)) s
      (fun as _ => as = (cs.map s.heap.itemOf).take k) fun _ _ => False := by
  induction k generalizing s link cs held with
  | zero => exact ensures_pure.mpr rfl
  | succ k ih =>
    rw [Cursor.drain]
    cases hcs with
    | nil => exact ensures_bind.mpr (ensures_next_nil.mpr (ensures_pure.mpr rfl))
    | @cons _ n cs hn hrest =>
      obtain ⟨t, hrun, hexact, hchain, hitems⟩ := run_next_cell hh hn hrest cs.length
      refine ensures_bind.mpr ((ensures_of_ok hrun).mpr (ensures_bind.mpr ?_))
      refine (ih hexact hchain).mono ?_ fun _ _ => False.elim
      rintro as _ rfl
      refine ensures_pure.mpr ?_
      rw [hitems, List.map_cons, List.take_succ_cons]

/-- So does a new cursor on a list. -/
theorem Walked.run_drain (hw : s.heap.Walked x l cs as) (hh : s.heap.Exact held) (k : ℕ) :
    ((Cursor.start x >>= Cursor.drain k).run s).1 = .ok (as.take k) := by
  obtain ⟨hx, hoffers, hsize, rfl⟩ := hw
  have hlive := hh.live_of_mem hx List.mem_cons_self
  refine result_of_ensures (ensures_bind.mpr (ensures_bind.mpr (ensures_look.mpr ?_)))
  rw [hx]
  refine ensures_bind.mpr (ensures_share.mpr (ensures_pure.mpr ?_))
  obtain ⟨hoffers, hitems⟩ := hoffers.congr hh (hh.retain hlive) hlive (live_retain.mpr hlive)
    fun a _ _ => body_retain ..
  rw [hsize]
  refine (ensures_drain (hh.retain hlive) hoffers k).mono ?_ fun _ _ => False.elim
  intro as t has
  rw [has, hitems]

/-! ### The first and the last element -/

namespace Walked

theorem run_first (hw : s.heap.Walked x l cs as) (hne : as ≠ []) :
    ((Sequence.first x).run s).1 = .ok (as.head hne) := by
  have hcells := hw.cells_ne_nil hne
  obtain ⟨hx, hoffers, -, rfl⟩ := hw
  obtain ⟨c, ds, rfl⟩ := List.exists_cons_of_ne_nil hcells
  obtain ⟨n, -, -, hcell⟩ := hoffers.firstCell_cons .first
  refine result_of_ensures (ensures_bind.mpr (ensures_look.mpr ?_))
  rw [hx]
  exact ensures_bind.mpr ((ensures_check_of_ok hcell).mpr rfl)

theorem run_last (hw : s.heap.Walked x l cs as) (hne : as ≠ []) :
    ((Sequence.last x).run s).1 = .ok (as.getLast hne) := by
  have hcells := hw.cells_ne_nil hne
  obtain ⟨hx, hoffers, hsize, rfl⟩ := hw
  rcases List.eq_nil_or_concat cs with rfl | ⟨ds, c, rfl⟩
  · exact absurd rfl hcells
  · rw [List.concat_eq_append] at hoffers hsize
    obtain ⟨item, n, hbody⟩ := exists_cell_of_kind (hoffers.kind_of_mem c (by simp))
    refine result_of_ensures (ensures_bind.mpr (ensures_look.mpr ?_))
    rw [hx]
    refine ensures_bind.mpr ((ensures_check_of_ok (hoffers.lastCell_concat hsize)).mpr ?_)
    refine ensures_bind.mpr ((ensures_assert_of_ok (cell_eq_ok hbody)).mpr ?_)
    refine ensures_share.mpr ?_
    simp [itemOf, hbody, Body.cell?]

end Walked

namespace Listed

theorem run_first (hl : s.heap.Listed x head cs as) :
    ((Sequence.first x).run s).1
      = as.head?.elim (.error (.refused (.emptySequence .first .list))) .ok := by
  cases as with
  | nil =>
    refine result_of_ensures (ensures_bind.mpr (ensures_look.mpr ?_))
    rw [hl.body]
    exact ensures_bind.mpr ((ensures_check_of_error (hl.firstCell_nil _ _)).mpr rfl)
  | cons a as => exact hl.walked.run_first (List.cons_ne_nil a as)

theorem run_last (hl : s.heap.Listed x head cs as) :
    ((Sequence.last x).run s).1
      = as.getLast?.elim (.error (.refused (.emptySequence .last .list))) .ok := by
  cases as with
  | nil =>
    refine result_of_ensures (ensures_bind.mpr (ensures_look.mpr ?_))
    rw [hl.body]
    exact ensures_bind.mpr ((ensures_check_of_error (hl.lastCell_nil _)).mpr rfl)
  | cons a as =>
    have hne := List.cons_ne_nil a as
    rw [hl.walked.run_last hne, List.getLast?_eq_some_getLast hne]
    rfl

/-- **A list reports its elements**, whoever else has a part of its chain. -/
theorem reports (hl : s.heap.Listed x head cs as) (hh : s.heap.Exact held) : s.Reports x as where
  size := by
    refine result_of_ensures ((ensures_ask_of_pure (a := as.length) ?_).mpr rfl)
    rw [Sequence.size, hl.body]
  isEmpty := by
    refine result_of_ensures ((ensures_ask_of_pure (a := as.isEmpty) ?_).mpr rfl)
    rw [Sequence.isEmpty, hl.body, ← hl.isNothing_head]
  first := hl.run_first
  last := hl.run_last
  cursor := hl.walked.run_drain hh

end Listed

end Heap

end SharedValues
