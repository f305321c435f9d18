import SharedValues.Proofs.Chain.Shared
import SharedValues.Proofs.Session.Run

/-!
# Ways to the elements of a list

A cursor, an index, the first and the last element, the lists of all others, and a copy in an array:
each of these goes along the chain by a walk of its own, and each is bounded in its own way by the
size that the list keeps.  If the chain has a cell for each step that the size allows, then it does
not matter what is behind these cells.  The chain may end there, go on, or run in a circle, so that
the same cell is met more than once; all of the walks find the same elements.

## Main definitions

* `Store.Presents` — all that can be asked of a list by its elements is answered for one sequence.

## Main results

* `Walked.presents` — a list presents the elements that it finds.
* `list_access` — so do the lists that are made from it, with fewer elements or with the same ones.
-/

namespace SharedValues

open Heap Operation

/-- **All ways to the elements of the list `x` agree** on the sequence `as`. -/
structure Store.Presents (s : Store) (x : Addr) (as : List Addr) : Prop where
  /-- The number of elements. -/
  size : Sequence.size x s.heap = pure as.length
  /-- The elements that a new cursor goes over. -/
  cursor : ∀ n, ((Cursor.start x >>= Cursor.drain n).run s).1 = .ok (as.take n)
  /-- Which indices mean an element. -/
  inRange : ∀ index : ℤ, Sequence.inRange x index s.heap
    = pure (decide (1 ≤ index ∧ index ≤ as.length))
  /-- The element at an index, counted from one. -/
  item : ∀ index : ℤ, 1 ≤ index ∧ index ≤ as.length →
    ∃ a, as[(index - 1).toNat]? = some a ∧ ((Sequence.item x index).run s).1 = .ok a
  /-- There is no element at another index. -/
  refused : ∀ index : ℤ, ¬(1 ≤ index ∧ index ≤ as.length) → (Sequence.item x index).run s =
    (.error (.refused (.outOfRange .list index as.length)), s)
  /-- The first element. -/
  first : ∀ hne : as ≠ [], ((Sequence.first x).run s).1 = .ok (as.head hne)
  /-- The last element. -/
  last : ∀ hne : as ≠ [], ((Sequence.last x).run s).1 = .ok (as.getLast hne)

variable {s : Store} {held : Multiset Addr} {x y z head : Addr} {l : ListHeader}
  {cs as : List Addr} {index : ℤ}

/-! ### Elements -/

namespace Heap.Walked

theorem run_item_of_inRange (hw : s.heap.Walked x l cs as)
    (hindex : 1 ≤ index ∧ index ≤ as.length) :
    ∃ a, as[(index - 1).toNat]? = some a ∧ ((Sequence.item x index).run s).1 = .ok a := by
  rw [← hw.size_eq] at hindex
  obtain ⟨c, hc, hcell⟩ := hw.offers.cellAt_of_inRange hw.size hindex
  have hslot : (index - 1).toNat = index.toNat - 1 := by omega
  refine ⟨s.heap.itemOf c, ?_, ?_⟩
  · rw [hslot, ← hw.items, List.getElem?_map, hc]
    rfl
  · refine result_of_ensures (ensures_bind.mpr (ensures_look.mpr ?_))
    rw [hw.body]
    exact ensures_bind.mpr ((ensures_check_of_ok hcell).mpr rfl)

theorem run_item_of_not_inRange (hw : s.heap.Walked x l cs as)
    (hindex : ¬(1 ≤ index ∧ index ≤ as.length)) :
    (Sequence.item x index).run s =
      (.error (.refused (.outOfRange .list index as.length)), s) := by
  rw [← hw.size_eq] at hindex ⊢
  rw [Sequence.item, run_look_bind, hw.body]
  show (l.item index).run s = _
  rw [ListHeader.item, run_bind, run_check, cellAt_of_not_inRange s.heap hindex]

/-- **A list presents the elements that it finds.** -/
theorem presents (hw : s.heap.Walked x l cs as) (hh : s.heap.Exact held) : s.Presents x as where
  size := by rw [Sequence.size, hw.body, ← hw.size_eq]
  cursor := hw.run_drain hh
  inRange index := by
    rw [Sequence.inRange, hw.body, ← hw.size_eq, Bool.decide_and]
    rfl
  item _ hindex := hw.run_item_of_inRange hindex
  refused _ hindex := hw.run_item_of_not_inRange hindex
  first hne := hw.run_first hne
  last hne := hw.run_last hne

end Heap.Walked

/-! ### Lists that are made -/

/-- A new list on cells that are there. -/
theorem Heap.Exact.walked_headed {h : Heap} {held' : Multiset Addr} {size : ℕ} (hh : h.Exact held)
    (hg : (h.headed head size).2.Exact held') (hlive : h.Live head) (hcs : h.Offers head cs)
    (hsize : size = cs.length) :
    (h.headed head size).2.Walked (h.headed head size).1 { head, size } cs
      (cs.map h.itemOf) := by
  have hgrown := grown_headed h head size
  obtain ⟨hoffers, hitems⟩ := hcs.congr hh hg hlive (hgrown.live hlive) fun a ha _ =>
    hgrown.body_eq ha
  exact ⟨(body_alloc ..).trans (if_pos rfl), hoffers, hsize, hitems⟩

/-- A list of elements that are there, on new cells. -/
theorem presents_ofSlots (hh : s.heap.Exact held) (hlive : ∀ a ∈ as, s.heap.Live a) :
    Ensures (ListHeader.ofSlots as) s (fun y t => t.Presents y as) fun _ _ => False := by
  have hexact : (s.heap.retainAll as).Exact (held + (as : Multiset Addr)) :=
    kept_exact.retainAll hh hlive
  obtain ⟨head, cs, hnew⟩ := hexact.unshared_listOf
  refine ensures_bind.mpr (ensures_alter.mpr (ensures_make.mpr ?_))
  exact Walked.presents (s := { s with heap := _ }) hnew.walked hnew.exact

namespace Heap.Walked

/-- The list of all elements but the first is on the same cells. -/
theorem presents_butFirst (hw : s.heap.Walked x l cs as) (hh : s.heap.Exact held) (hne : as ≠ []) :
    ∃ y t, (Sequence.butFirst x).run s = (.ok y, t) ∧ t.Presents y as.tail := by
  have hcells := hw.cells_ne_nil hne
  obtain ⟨hx, hoffers, hsize, rfl⟩ := hw
  obtain ⟨c, ds, rfl⟩ := List.exists_cons_of_ne_nil hcells
  obtain ⟨n, hn, hrest, hcell⟩ := hoffers.firstCell_cons .butFirst
  -- the counts with the new list in them tell that the cells behind the first one stay
  have hexact : Ensures l.butFirst s (fun y t => t.heap.Exact (held + {y})) _ :=
    kept_exact.list_butFirst hh hx
  rw [ListHeader.butFirst, ensures_bind, ensures_check_of_ok hcell, ensures_create] at hexact
  have hless : l.size - 1 = ds.length := by
    rw [hsize]
    rfl
  have hw := hh.walked_headed hexact (hh.live_next hn) hrest hless
  refine Ensures.exists_ok (ensures_bind.mpr (ensures_look.mpr ?_))
  rw [hx]
  refine ensures_bind.mpr ((ensures_check_of_ok hcell).mpr (ensures_create.mpr ?_))
  exact Walked.presents (s := { s with heap := _ }) hw hexact

/-- The list of all elements but the last is on new cells. -/
theorem presents_butLast (hw : s.heap.Walked x l cs as) (hh : s.heap.Exact held) (hne : as ≠ []) :
    ∃ y t, (Sequence.butLast x).run s = (.ok y, t) ∧ t.Presents y as.dropLast := by
  have hcells := hw.cells_ne_nil hne
  obtain ⟨hx, hoffers, hsize, rfl⟩ := hw
  have hlength : (cs.take (l.size - 1)).length = l.size - 1 := by
    rw [List.length_take, ← hsize]
    omega
  have hfirst := hoffers.take (l.size - 1)
  have hwalk := hfirst.chain_eq
  rw [hlength] at hwalk
  -- the items of all cells but the last are the items but the last
  have hitems : (cs.take (l.size - 1)).map s.heap.itemOf = (cs.map s.heap.itemOf).dropLast := by
    rw [List.dropLast_eq_take, List.map_take, List.length_map, hsize]
  refine Ensures.exists_ok (ensures_bind.mpr (ensures_look.mpr ?_))
  rw [hx]
  refine ensures_bind.mpr ((ensures_check_of_ok (hoffers.someHead_eq hcells _)).mpr ?_)
  refine ensures_bind.mpr (ensures_look.mpr ?_)
  rw [hwalk]
  refine ensures_bind.mpr (ensures_look.mpr ?_)
  rw [hitems]
  refine presents_ofSlots hh ?_
  -- the items that go into the copy are live, being in cells of the list
  intro a ha
  obtain ⟨c, hc, rfl⟩ := List.mem_map.mp (List.mem_of_mem_dropLast ha)
  exact hh.live_itemOf (hoffers.kind_of_mem c hc)

/-- An array of the elements, wherever its origin is. -/
theorem ensures_arrayOfElements (hw : s.heap.Walked x l cs as) (hh : s.heap.Exact held)
    (origin : ℤ) :
    Ensures ((Derivation.arrayOfElements origin).run x) s
      (fun r t => ∃ z, r = some z ∧ t.heap.Exact (held + {z}) ∧ t.heap.body z = .array origin as)
      fun _ _ => False := by
  have hexact : Ensures (Row.ofElements origin x) s (fun z t => t.heap.Exact (held + {z})) _ :=
    kept_exact.row_ofElements hh origin
  have hfound : s.heap.elements x = ⟨as, none⟩ := by
    rw [elements, hw.body]
    simp only [hw.offers.cells_eq hw.size, hw.items]
  refine ensures_bind.mpr ((ensures_assert_of_ok (list_eq_ok hw.body)).mpr (ensures_map.mpr ?_))
  rw [Row.ofElements, ensures_bind, ensures_look, hfound] at hexact ⊢
  exact ⟨_, rfl, hexact, (body_alloc ..).trans (if_pos rfl)⟩

end Heap.Walked

/-- A list of the slots of an array. -/
theorem ensures_listOfSlots {origin : ℤ} (hh : s.heap.Exact held)
    (hz : s.heap.body z = .array origin as) :
    Ensures (Derivation.listOfSlots.run z) s (fun r t => ∃ y, r = some y ∧ t.Presents y as)
      fun _ _ => False := by
  have hrow : Row.at? s.heap z = .ok ⟨origin, as⟩ := Row.at?_of_body hz
  have hlive : ∀ a ∈ as, s.heap.Live a := fun a ha => hh.live_of_mem hz ha
  refine ensures_bind.mpr ((ensures_assert_of_ok hrow).mpr (ensures_map.mpr ?_))
  refine (presents_ofSlots hh hlive).mono ?_ fun _ _ => id
  intro y t hy
  exact ⟨y, rfl, hy⟩

/-- **All ways to the elements of a list agree**, if the chain has a cell for each step that the
size allows.  The list presents the elements that it finds.  If there are any, the list of all but
the first and the list of all but the last present the others; and the elements are copied to an
array of any origin, and from there to a list that presents them again. -/
theorem list_access (hw : s.heap.Walked x l cs as) (hh : s.heap.Exact held) :
    s.Presents x as ∧
    (as ≠ [] →
      (∃ y t, (Sequence.butFirst x).run s = (.ok y, t) ∧ t.Presents y as.tail) ∧
      ∃ y t, (Sequence.butLast x).run s = (.ok y, t) ∧ t.Presents y as.dropLast) ∧
    ∀ origin, ∃ z t, ((Derivation.arrayOfElements origin).run x).run s = (.ok (some z), t) ∧
      t.heap.body z = .array origin as ∧
      ∃ y u, (Derivation.listOfSlots.run z).run t = (.ok (some y), u) ∧ u.Presents y as := by
  refine ⟨hw.presents hh, ?_, ?_⟩
  · intro hne
    exact ⟨hw.presents_butFirst hh hne, hw.presents_butLast hh hne⟩
  · intro origin
    obtain ⟨_, t, hcopy, z, rfl, hexact, hz⟩ := (hw.ensures_arrayOfElements hh origin).exists_ok
    obtain ⟨_, u, hback, y, rfl, hy⟩ := (ensures_listOfSlots hexact hz).exists_ok
    exact ⟨z, t, hcopy, hz, y, u, hback, hy⟩

/-- A list that is longer than its chain: its only cell is linked to itself, and it has three
elements. -/
theorem circle_access :
    let u := (Session.run [.build (.circular ["a", "b"]) ⟨some "x", true⟩] {}).2
    let s := u.store
    s.heap.Walked 5 { head := 4, size := 3 } [4, 4, 4] [0, 0, 0] ∧
      ((Cursor.start 5 >>= Cursor.drain 8).run s).1 = .ok [0, 0, 0] ∧
      ((Sequence.item 5 3).run s).1 = .ok 0 ∧
      (Sequence.item 5 4).run s = (.error (.refused (.outOfRange .list 4 3)), s) ∧
      (∃ y t, (Sequence.butFirst 5).run s = (.ok y, t) ∧ t.Presents y [0, 0]) ∧
      ∃ y t, (Sequence.butLast 5).run s = (.ok y, t) ∧ t.Presents y [0, 0] := by
  intro u s
  have hbody : s.heap.body 5 = .list { head := 4, size := 3 } ∧ s.heap.body 4 = .cell 0 4 := by
    decide +kernel
  obtain ⟨hlist, hcell⟩ := hbody
  have hheld : ∃ held, s.heap.Exact held := ⟨u.held, Session.exact_run _⟩
  -- from here on the store is any with these two bodies
  clear_value s
  obtain ⟨held, hexact⟩ := hheld
  have hnext : s.heap.next? 4 = some 4 := next?_eq_some_iff.mpr ⟨0, hcell⟩
  have hitem : s.heap.itemOf 4 = 0 := by rw [itemOf, hcell]; rfl
  have hw : s.heap.Walked 5 { head := 4, size := 3 } [4, 4, 4] [0, 0, 0] :=
    ⟨hlist, .cons hnext (.cons hnext (.cons hnext .nil)), rfl, by simp [hitem]⟩
  obtain ⟨hpresents, hparts, -⟩ := list_access hw hexact
  obtain ⟨hfirst, hlast⟩ := hparts (by decide)
  refine ⟨hw, hpresents.cursor 8, ?_, hpresents.refused 4 (by decide), hfirst, hlast⟩
  -- the third cell is the only one again, reached by going around the circle
  obtain ⟨a, ha, hrun⟩ := hpresents.item 3 (by decide)
  obtain rfl : 0 = a := Option.some.inj ha
  exact hrun

end SharedValues
