import SharedValues.Proofs.Chain.Shared
import SharedValues.Proofs.Sequence.Append
import SharedValues.Proofs.Session.Refusal

/-!
# Changes and sharing

What the changes of a list, and the operations that make a list from it, do to the blocks: the field
of a cell that each change writes, and the cells that each new list stands on.

## Main definitions

* `Change.write` — the field of a cell that a change of a list writes.
* `Heap.Framed` — other lists show a change only if they walk over the cell.

## Main results

* `Exact.change_rewritten` — each change writes its field, and the header of the list.
* `Exact.derived_butFirst`, `Exact.derived_cons`, … — the cells of each new list.
* `Session.list_sharing` — changes and derivations, in every run.
-/

namespace SharedValues

open Heap Operation

/-! ### Changes of a list -/

/-- The field of a cell that a change of the list with the header `l` writes. -/
def Change.write (h : Heap) (l : ListHeader) (value : Addr) : Change → Option CellWrite
  | setItem index _ => (h.cells l).found[index.toNat - 1]?.map (.item · value)
  | setFirst _ => some (.item l.head value)
  | setButFirst _ => (h.body value).list?.map fun r => .link l.head r.head
  | append _ => (h.lap l.head).found.getLast?.map (.link · h.blocks.size)
  | _ => none

theorem ListHeader.found_of_cellAt {h : Heap} {l : ListHeader} {index : ℤ} {c : Addr}
    (hc : l.cellAt index h = .ok c) : (h.cells l).found[index.toNat - 1]? = some c := by
  unfold cellAt at hc
  dsimp only at hc
  split at hc
  · exact absurd hc (by simp)
  · split at hc
    · next d _ hd =>
      obtain rfl := Except.ok.inj hc
      exact hd
    · exact absurd hc (by simp)
    · exact absurd hc (by simp)

section Changes

variable {s : Store} {held : Multiset Addr} {c x value : Addr} {l : ListHeader}

/-- Whatever an operation makes sure of if it ends with a result, it does so in every mode. -/
theorem ensures_call {α : Type} {op : Operation α} {Q : α → Store → Prop} (m : Mode)
    (hop : Ensures op s Q fun _ _ => True) : Ensures (m.call op) s Q fun _ _ => True := by
  cases m
  · exact hop
  · exact ensures_promised.mpr hop
  · exact ensures_promised.mpr hop

/-- Another element in a cell, and another header. -/
theorem rewritten_setCellItem (hc : s.heap.kind c = .cell) (head : Addr) (size : ℕ) :
    Ensures (do ListHeader.setCellItem c value; ListHeader.replace x l head size) s
      (fun _ t => s.heap.Rewritten t.heap x (some (.item c value))) fun _ _ => True := by
  obtain ⟨item, n, hbody⟩ := exists_cell_of_kind hc
  refine ensures_bind.mpr (ensures_bind.mpr ((ensures_assert_of_ok (cell_eq_ok hbody)).mpr ?_))
  refine ensures_alter.mpr (ensures_alter.mpr ?_)
  exact ((Rewritten.setItem hbody value x).also (.header ..)).also (.of_thins (releaseAll_thins ..))

theorem rewritten_setItem (index : ℤ) (m : Mode) :
    Ensures (l.setItem x index value) s
      (fun _ t => s.heap.Rewritten t.heap x ((Change.setItem index m).write s.heap l value))
      fun _ _ => True := by
  refine ensures_bind.mpr (ensures_check ?_ fun _ _ => trivial)
  intro c hc
  rw [Change.write, ListHeader.found_of_cellAt hc]
  exact rewritten_setCellItem (ListHeader.cellAt_eq_ok hc).2.2 ..

theorem rewritten_setFirst (m : Mode) :
    Ensures (l.setFirst x value) s
      (fun _ t => s.heap.Rewritten t.heap x ((Change.setFirst m).write s.heap l value))
      fun _ _ => True := by
  refine ensures_bind.mpr (ensures_check ?_ fun _ _ => trivial)
  rintro ⟨c, item, n⟩ hc
  obtain ⟨rfl, hbody⟩ := ListHeader.firstCell_eq_ok hc
  exact rewritten_setCellItem (by rw [Heap.kind, hbody]; rfl) ..

theorem rewritten_setButFirst (m : Mode) :
    Ensures (l.setButFirst x value) s
      (fun _ t => s.heap.Rewritten t.heap x ((Change.setButFirst m).write s.heap l value))
      fun _ _ => True := by
  apply ensures_setButFirst (fun _ => trivial)
  intro r item next hr hbody
  rw [Change.write, hr]
  exact (Rewritten.relink hbody ..).also (.of_thins (releaseAll_thins ..))

/-- The new cell comes after all the places that there are, because nothing has its place. -/
theorem Heap.cellFor_eq_size {h : Heap} (hn : h.nothingAt.isSome = true) (value : Addr) :
    h.cellFor value = h.blocks.size := by
  obtain ⟨n, hn⟩ := Option.isSome_iff_exists.mp hn
  have hretained : (h.retain value).nothingAt = some n := hn
  rw [cellFor, Heap.nothing, ensureNothing, hretained]
  simp [Heap.retain, Heap.modify]

theorem Heap.Exact.rewritten_append (hh : s.heap.Exact held) (hfounded : s.heap.Founded)
    (hx : s.heap.body x = .list l) (m : Mode) :
    Ensures (l.append x value) s
      (fun _ t => s.heap.Rewritten t.heap x ((Change.append m).write s.heap l value))
      fun _ _ => True := by
  have hhead := hh.live_of_mem hx List.mem_cons_self
  have hagree := (hh.agreeOn_withCell value).symm
  have hmade : s.heap.Rewritten (s.heap.withCell value) x none :=
    ((Rewritten.retain ..).also (.nothing ..)).also (.alloc ..)
  refine ensures_append (fun hempty => ?_) (fun _ _ _ => trivial)
    fun last item n hlast hbody _ => ?_
  · -- there is no cell yet
    rw [Change.write, (hagree.chain hhead (.nil hempty)).lap_eq]
    exact ((hmade.also (.header ..)).also (.of_thins (releaseAll_thins ..))).also
      (.of_thins (releaseAll_thins _ [_]))
  · obtain ⟨cs, hcs, -⟩ := chain_of_lastExclusive hlast
    rw [Change.write, (hagree.chain hhead hcs).lap_eq, List.getLast?_concat,
      ← cellFor_eq_size (hfounded x l hx) value]
    exact (hmade.before (.relink hbody ..)).also (.of_thins (releaseAll_thins ..))

theorem rewritten_prepend :
    Ensures (l.prepend x value) s (fun _ t => s.heap.Rewritten t.heap x none) fun _ _ => True := by
  refine ensures_bind.mpr (ensures_share.mpr (ensures_bind.mpr (ensures_make.mpr ?_)))
  refine ensures_alter.mpr ?_
  exact (((Rewritten.retain ..).also (.alloc ..)).also (.header ..)).also
    (.of_thins (releaseAll_thins ..))

theorem rewritten_clear :
    Ensures (l.clear x) s (fun _ t => s.heap.Rewritten t.heap x none) fun _ _ => True := by
  refine ensures_bind.mpr (ensures_make.mpr (ensures_bind.mpr (ensures_alter.mpr ?_)))
  refine ensures_release.mpr ?_
  exact (((Rewritten.nothing ..).also (.header ..)).also (.of_thins (releaseAll_thins ..))).also
    (.of_thins (releaseAll_thins _ [_]))

/-- **A change of a list writes its header and the field of a cell that belongs to the change**, or
it fails. -/
theorem Heap.Exact.change_rewritten (hh : s.heap.Exact held) (hfounded : s.heap.Founded)
    (hx : s.heap.body x = .list l) (c : Change) :
    Ensures (c.run x value) s
      (fun _ t => s.heap.Rewritten t.heap x (c.write s.heap l value)) fun _ _ => True := by
  have hlist : s.heap.list x = .ok l := list_eq_ok hx
  cases c with
  | setItem index m =>
    refine ensures_call m (ensures_bind.mpr (ensures_look.mpr ?_))
    rw [hx]
    exact rewritten_setItem index m
  | setFirst m =>
    refine ensures_call m (ensures_bind.mpr (ensures_look.mpr ?_))
    rw [hx]
    exact rewritten_setFirst m
  | setButFirst m =>
    refine ensures_call m (ensures_bind.mpr (ensures_look.mpr ?_))
    rw [hx]
    exact rewritten_setButFirst m
  | append m =>
    refine ensures_bind.mpr (ensures_look.mpr ?_)
    rw [hx]
    exact ensures_call m (hh.rewritten_append hfounded hx m)
  | prepend => exact ensures_bind.mpr ((ensures_assert_of_ok hlist).mpr rewritten_prepend)
  -- a list is no node and no cell
  | addChild =>
    refine ensures_bind.mpr (ensures_assert ?_ fun _ _ => trivial)
    rintro ⟨name, children⟩ hnode
    exact absurd (hx.symm.trans (body_of_node hnode)) (by simp)
  | setCellItem =>
    refine ensures_bind.mpr (ensures_assert ?_ fun _ _ => trivial)
    rintro ⟨item, next⟩ hcell
    exact absurd (hx.symm.trans (body_of_cell hcell)) (by simp)
  | setCellNext =>
    refine ensures_bind.mpr (ensures_assert ?_ fun _ _ => trivial)
    rintro ⟨item, next⟩ hcell
    exact absurd (hx.symm.trans (body_of_cell hcell)) (by simp)

end Changes

/-! ### Lists made from a list -/

section Derivations

variable {s : Store} {held : Multiset Addr} {x value : Addr} {l : ListHeader}

/-- Another list on the same cells. -/
theorem Heap.Exact.derived_shared (hh : s.heap.Exact held) (hx : s.heap.body x = .list l) :
    Ensures (Derivation.shared.run x) s
      (fun r t => ∀ held', t.heap.Exact held' → ∃ y, r = some y ∧
        s.heap.Derived t.heap y [] (s.heap.cells l).found (s.heap.elements x).found)
      fun _ _ => True := by
  refine ensures_bind.mpr ((ensures_assert_of_ok (list_eq_ok hx)).mpr (ensures_map.mpr ?_))
  refine ensures_create.mpr fun held' hg => ⟨_, rfl, ?_⟩
  rw [found_elements_of_list hx]
  exact hh.derived_headed hg (by rw [Heap.kind, hx, Body.kind])
    (hh.live_of_mem hx List.mem_cons_self)

/-- A part of a list is taken in every mode. -/
theorem ensures_piece {p : Piece} {Q : Addr → Store → Prop} (m : Mode)
    (hp : Ensures (p.take x) s Q fun _ _ => True) :
    Ensures ((Derivation.piece p m).run x) s (fun r t => ∃ y, r = some y ∧ Q y t)
      fun _ _ => True := by
  refine ensures_bind.mpr (ensures_look.mpr (ensures_map.mpr ?_))
  exact (ensures_call _ hp).mono (fun y _ hy => ⟨y, rfl, hy⟩) fun _ _ => id

/-- A list on all cells but the first. -/
theorem Heap.Exact.derived_butFirst (hh : s.heap.Exact held) (hx : s.heap.body x = .list l) :
    Ensures (Piece.butFirst.take x) s
      (fun y t => ∀ held', t.heap.Exact held' → s.heap.Derived t.heap y []
        (s.heap.cells l).found.tail (s.heap.elements x).found.tail)
      fun _ _ => True := by
  refine ensures_bind.mpr (ensures_look.mpr ?_)
  rw [hx]
  refine ensures_bind.mpr (ensures_check ?_ fun _ _ => trivial)
  rintro ⟨c, item, n⟩ hc
  obtain ⟨rfl, hbody⟩ := ListHeader.firstCell_eq_ok hc
  refine ensures_create.mpr fun held' hg => ?_
  rw [found_elements_of_list hx, ← List.map_tail, tail_found_cells hbody]
  exact hh.derived_headed hg (by rw [Heap.kind, hx, Body.kind])
    (hh.live_of_mem hbody (by simp [Body.handles]))

/-- A list on new cells. -/
theorem Heap.Exact.derived_butLast (hh : s.heap.Exact held) (hfounded : s.heap.Founded)
    (hx : s.heap.body x = .list l) :
    Ensures (Piece.butLast.take x) s
      (fun y t => ∃ cs, s.heap.Derived t.heap y cs [] ((s.heap.elements x).found.take (l.size - 1)))
      fun _ _ => True := by
  refine ensures_bind.mpr (ensures_look.mpr ?_)
  rw [hx]
  refine ensures_bind.mpr (ensures_check (fun _ _ => ?_) fun _ _ => trivial)
  refine ensures_bind.mpr (ensures_look.mpr ?_)
  split
  · exact ensures_throw.mpr trivial
  · refine ensures_bind.mpr (ensures_look.mpr (ensures_bind.mpr (ensures_alter.mpr ?_)))
    refine ensures_make.mpr ?_
    rw [found_elements_of_list hx, ← List.map_take, Heap.cells, take_found_chain (Nat.sub_le ..)]
    refine hh.derived_listOf (fun a ha => ?_) (hfounded x l hx)
    obtain ⟨c, hc, rfl⟩ := List.mem_map.mp ha
    obtain ⟨i, hi⟩ := List.mem_iff_getElem?.mp hc
    exact hh.live_itemOf (nth_of_chain_found hi).2

/-- A list with a new cell in front. -/
theorem Heap.Exact.derived_cons (hh : s.heap.Exact held) (hx : s.heap.body x = .list l) :
    Ensures (Combination.cons.run x value) s
      (fun y t => ∀ held', t.heap.Exact held' → ∃ c, s.heap.Derived t.heap y [c]
        (s.heap.cells l).found (value :: (s.heap.elements x).found))
      fun _ _ => True := by
  refine ensures_bind.mpr ((ensures_assert_of_ok (list_eq_ok hx)).mpr ?_)
  refine ensures_bind.mpr (ensures_create.mpr (ensures_make.mpr fun held' hg => ?_))
  exact ⟨(s.heap.withFirst value l.head).1, hh.derived_consed hg hx⟩

end Derivations

/-! ### Runs -/

/-- **A change of the list `x` that writes one field of a cell**, if any, beside the header: other
lists have the elements that they had, unless they walk over the cell. -/
structure Heap.Framed (h g : Heap) (x : Addr) (w : Option CellWrite) : Prop
    extends h.Rewritten g x w where
  /-- The list is still there. -/
  kind_eq : g.kind x = .list
  /-- The other lists that are left. -/
  others : ∀ {z k}, z ≠ x → g.Live z → h.body z = .list k →
    (∀ v ∈ w, v.cell ∉ (h.cells k).found) → g.body z = .list k ∧ g.elements z = h.elements z

theorem Heap.Rewritten.framed {h g : Heap} {held held' : Multiset Addr} {x : Addr}
    {w : Option CellWrite} (hw : h.Rewritten g x w) (hh : h.Exact held) (hg : g.Exact held')
    (hx : h.kind x = .list) (hheld : x ∈ held) (hheld' : x ∈ held') : h.Framed g x w where
  toRewritten := hw
  kind_eq := hw.list (hh.live_of_held hheld) (hg.live_of_held hheld') hx
  others hzx hlive hz hmiss := hw.elements_eq hx hh hg hzx hz hlive hmiss

section Framed

variable {s : Store} {held : Multiset Addr} {x value : Addr} {l : ListHeader}

/-- A change of a list that is held. -/
theorem Heap.Exact.change_framed (hh : s.heap.Exact held) (hfounded : s.heap.Founded)
    (hx : s.heap.body x = .list l) (hheld : x ∈ held) (hvalue : value ∈ held) (c : Change) :
    Ensures (c.run x value) s (fun _ t => s.heap.Framed t.heap x (c.write s.heap l value))
      fun _ _ => True := by
  have hkept := kept_exact.change_run hh hheld hvalue c (Set.subset_univ _)
  refine ((hh.change_rewritten hfounded hx c).and hkept).mono (fun _ t ht => ?_)
    fun _ _ _ => trivial
  exact ht.1.framed hh ht.2 (by rw [Heap.kind, hx, Body.kind]) hheld hheld

/-- All elements are taken from a list that is held. -/
theorem Session.clear_framed {s : Session}
    (hs : s.Owns (fun held h => h.Exact held) s.registers 0) (hx : s.store.heap.body x = .list l)
    (hheld : x ∈ s.held) :
    Ensures (Adjustment.clear.run x) s (fun _ t => s.store.heap.Framed t.store.heap x none)
      fun _ _ => True := by
  have hlist : Ensures (Adjustment.clear.run x) s
      (fun _ t => s.store.heap.Rewritten t.store.heap x none) fun _ _ => True := by
    rw [Adjustment.run]
    refine ensures_on.mpr (ensures_bind.mpr ?_)
    exact (ensures_assert_of_ok (list_eq_ok hx)).mpr rewritten_clear
  have hkept := kept_exact.adjustment_run hs (x := x) .clear (Set.subset_univ _)
  refine (hlist.and hkept).mono (fun _ t ht => ?_) fun _ _ _ => trivial
  have hexact : s.store.heap.Exact (s.held + 0) := hs.kept
  rw [add_zero] at hexact
  exact ht.1.framed hexact ht.2.kept (by rw [Heap.kind, hx, Body.kind]) hheld
    (Multiset.mem_add.mpr (Or.inl hheld))

end Framed

namespace Session

variable {cs : List Command} {s : Session} {name : String} {x : Addr}

/-- **What changes and derivations do to the blocks**, in every state that a run leads to.  A change
of a list that succeeds writes the header of the list and the field that belongs to the change, and
nothing else that is left has changed; so other lists have the elements that they had unless they
walk over the cell.  To clear a list writes its header only.  What is made from a list leaves every
block as it is: another list on the same cells, or on all but the first, makes no cell, a list with
one element more makes one cell in front, and a list without the last element makes all its
cells. -/
theorem list_sharing (hs : (Session.run cs {}).2 = s) (hname : s.value? name = some x) :
    (∀ {y value u l c t}, (Step.eval y).run s = (.ok value, u) →
      u.store.heap.body x = .list l → (Change.run x value c).run u.store = (.ok (), t) →
      u.store.heap.Framed t.heap x (c.write u.store.heap l value)) ∧
    (∀ {u l}, s.store.heap.body x = .list l → (Adjustment.clear.run x).run s = (.ok (), u) →
      s.store.heap.Framed u.store.heap x none) ∧
    (∀ {y value u l z t}, (Step.eval y).run s = (.ok value, u) →
      u.store.heap.body x = .list l → (Combination.cons.run x value).run u.store = (.ok z, t) →
      ∃ c, u.store.heap.Derived t.heap z [c] (u.store.heap.cells l).found
        (value :: (u.store.heap.elements x).found)) ∧
    ∀ {l}, s.store.heap.body x = .list l →
      (∀ {r t}, (Derivation.shared.run x).run s.store = (.ok r, t) → ∃ z, r = some z ∧
        s.store.heap.Derived t.heap z [] (s.store.heap.cells l).found
          (s.store.heap.elements x).found) ∧
      (∀ {m r t}, ((Derivation.piece .butFirst m).run x).run s.store = (.ok r, t) →
        ∃ z, r = some z ∧ s.store.heap.Derived t.heap z [] (s.store.heap.cells l).found.tail
          (s.store.heap.elements x).found.tail) ∧
      (∀ {m r t}, ((Derivation.piece .butLast m).run x).run s.store = (.ok r, t) →
        ∃ z cs, r = some z ∧ s.store.heap.Derived t.heap z cs []
          ((s.store.heap.elements x).found.take (l.size - 1))) := by
  subst hs
  set s := (Session.run cs {}).2
  have hsound := founded_sound cs
  have hheld : x ∈ s.held := mem_held_of_value? hname
  obtain ⟨hexact, hfounded⟩ : s.store.heap.Exact s.held ∧ s.store.heap.Founded := by
    simpa using hsound.kept
  -- making the operand keeps the counts, which then hold the operand once more
  have heval : ∀ {y value u}, (Step.eval y).run s = (.ok value, u) →
      u.store.heap.Exact (s.held + {value}) ∧ u.store.heap.Founded := by
    intro y value u hy
    have hkept := ((ensures_of_ok hy).mp (kept_founded.step_eval hsound.owns y)).kept
    rwa [zero_add] at hkept
  have hheld' : ∀ {value}, x ∈ s.held + {value} := Multiset.mem_add.mpr (Or.inl hheld)
  have hvalue : ∀ {value}, value ∈ s.held + {value} := by simp
  -- the change in place, the clearing and the new cell in front, then the three derivations
  refine ⟨fun hy hx hrun => ?change, fun hx hrun => ?clear, fun hy hx hrun => ?cons,
    fun hx => ⟨fun hrun => ?shared, fun hrun => ?butFirst, fun hrun => ?butLast⟩⟩
  case change =>
    obtain ⟨hu, hfound⟩ := heval hy
    -- whatever the change, what it writes is the header of the list and at most one cell
    exact (ensures_of_ok hrun).mp (hu.change_framed hfound hx hheld' hvalue _)
  case clear => exact (ensures_of_ok hrun).mp (clear_framed (exact_sound cs).owns hx hheld)
  -- the operand is held until it is in the new cell, so the counts before the step are with it
  case cons =>
    obtain ⟨hu, -⟩ := heval hy
    -- the new list is counted, so its chain can be followed to the cells it shares
    have ht := (ensures_of_ok hrun).mp (kept_exact.combination_run hu hvalue .cons)
    exact (ensures_of_ok hrun).mp (hu.derived_cons hx) _ ht
  -- sharing makes a new header on the same first cell
  case shared =>
    have ht := (ensures_of_ok hrun).mp (kept_exact.derivation_run hexact hheld .shared)
    exact (ensures_of_ok hrun).mp (hexact.derived_shared hx) _ ht
  case butFirst =>
    -- the new header stands on the second cell, in whatever mode the piece was taken
    have ht := (ensures_of_ok hrun).mp (kept_exact.derivation_run hexact hheld _)
    obtain ⟨z, hz, hderived⟩ := (ensures_of_ok hrun).mp
      (ensures_piece _ (hexact.derived_butFirst hx))
    exact ⟨z, hz, hderived _ ht⟩
  case butLast =>
    -- here the cells are all new, as the old chain cannot end before its last cell
    obtain ⟨z, rfl, cs, hderived⟩ := (ensures_of_ok hrun).mp
      (ensures_piece _ (hexact.derived_butLast hfounded hx))
    exact ⟨z, cs, rfl, hderived⟩

/-- A list is on all cells of two words but the first, so it does not show another first word. -/
theorem list_sharing_of_words :
    let s := (run [.build (.words ["a", "b"]) ⟨some "x", true⟩,
      .derive "x" (.piece .butFirst .checked) ⟨some "y", true⟩] {}).2
    let u := ((Step.eval (.text "c" false)).run s).2
    let t := ((Change.setFirst .checked).run 5 7 u.store).2
    u.store.heap.Framed t.heap 5 (some (.item 4 7)) ∧
      t.heap.elements 6 = u.store.heap.elements 6 := by
  intro s u t
  have hy : ((Step.eval (.text "c" false)).run s).1 = .ok 7 := by decide +kernel
  have hrun : ((Change.setFirst .checked).run 5 7 u.store).1 = .ok () := by decide +kernel
  have hx : u.store.heap.body 5 = .list { head := 4, size := 2 } := by decide +kernel
  have hz : u.store.heap.body 6 = .list { head := 3, size := 1 } := by decide +kernel
  have hname : s.value? "x" = some 5 := by decide +kernel
  have hframed : u.store.heap.Framed t.heap 5 (some (.item 4 7)) :=
    (list_sharing rfl hname).1 (Prod.ext hy rfl) hx (Prod.ext hrun rfl)
  have hlive : t.heap.body 6 = .list { head := 3, size := 1 } := by decide +kernel
  -- the other list starts behind the cell that was written, so its elements are as before
  refine ⟨hframed, (hframed.others (by decide) (live_of_body hlive (by simp)) hz ?_).2⟩
  intro v hv
  obtain rfl := Option.some.inj hv
  have hcells : (u.store.heap.cells { head := 3, size := 1 }).found = [3] := by decide +kernel
  rw [hcells]
  decide

end Session

end SharedValues
