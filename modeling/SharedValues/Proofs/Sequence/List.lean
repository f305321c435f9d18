import SharedValues.Proofs.Chain.Exclusive
import SharedValues.Proofs.Sequence.Array
import SharedValues.Sequence.List

/-!
# Lists keep what moves keep

The parts of a list are elements, or new headers on a part of its chain.  The changes write a
header, a cell, or both; the size they write is right if all sizes were, except where the chain of
another list goes behind the first cell.

## Main results

* `distinctCells_measures` — a size counted anew is right.
* `Kept.list_item`, `Kept.list_butFirst`, … — the parts of a list.
* `Kept.list_append`, `Kept.list_setItem`, … — the changes.
-/

namespace SharedValues

open Heap Operation

/-! ### Readers -/

namespace Heap

variable {h : Heap} {a x : Addr}

theorem body_of_list {l : ListHeader} (hr : h.list x = .ok l) : h.body x = .list l := by
  have hs := expect_eq_ok hr
  revert hs
  cases h.body x <;> simp [Body.list?]

theorem body_of_cell {item next : Addr} (hr : h.cell x = .ok (item, next)) :
    h.body x = .cell item next := by
  have hs := expect_eq_ok hr
  revert hs
  cases h.body x <;> simp [Body.cell?]

theorem body_of_word {w : Word} (hr : h.word x = .ok w) : h.body x = .word w := by
  have hs := expect_eq_ok hr
  revert hs
  cases h.body x <;> simp [Body.word?]

theorem list_eq_ok {l : ListHeader} (hx : h.body x = .list l) : h.list x = .ok l := by
  simp [Heap.list, expect, hx, Body.list?]

theorem cell_eq_ok {item next : Addr} (hx : h.body x = .cell item next) :
    h.cell x = .ok (item, next) := by
  simp [Heap.cell, expect, hx, Body.cell?]

theorem word_eq_ok {w : Word} (hx : h.body x = .word w) : h.word x = .ok w := by
  simp [Heap.word, expect, hx, Body.word?]

/-- A cell is read whole. -/
theorem exists_cell_of_kind (ha : h.kind a = .cell) : ∃ item next, h.body a = .cell item next := by
  obtain ⟨n, hn⟩ := exists_next?_of_kind ha
  obtain ⟨item, hbody⟩ := next?_eq_some_iff.mp hn
  exact ⟨item, n, hbody⟩

/-- The element in a cell is live. -/
theorem Exact.live_itemOf {held : Multiset Addr} (hh : h.Exact held) (ha : h.kind a = .cell) :
    h.Live (h.itemOf a) := by
  obtain ⟨item, next, hbody⟩ := exists_cell_of_kind ha
  rw [itemOf, hbody]
  exact hh.live_of_mem hbody (by simp [Body.handles, Body.cell?])

end Heap

namespace ListHeader

variable {h : Heap} {l : ListHeader} {a c : Addr}

theorem cellAt_eq_ok {index : ℤ} (hc : l.cellAt index h = .ok c) :
    l.inRange index = true ∧ h.nth l.head (index.toNat - 1) = some c ∧ h.kind c = .cell := by
  unfold cellAt at hc
  dsimp only at hc
  split at hc
  · exact absurd hc (by simp)
  · next hrange =>
    split at hc
    · next d hd hcd =>
      obtain rfl := Except.ok.inj hc
      exact ⟨by simpa using hrange, nth_of_chain_found hcd⟩
    · exact absurd hc (by simp)
    · exact absurd hc (by simp)

theorem someHead_eq_ok {op : Op} (hc : l.someHead op h = .ok a) :
    a = l.head ∧ h.kind l.head ≠ .nothing := by
  unfold someHead at hc
  split at hc
  · exact absurd hc (by simp)
  · next hne =>
    obtain rfl := Except.ok.inj hc
    exact ⟨rfl, by simpa [isNothing] using hne⟩

theorem firstCell_eq_ok {op : Op} {item next : Addr}
    (hc : l.firstCell op h = .ok (c, item, next)) :
    c = l.head ∧ h.body l.head = .cell item next := by
  unfold firstCell at hc
  -- the list may be empty, or its head no cell; either is refused
  cases hhead : l.someHead op h with
  | error e =>
    rw [hhead] at hc
    exact absurd hc (by simp [bind, Except.bind])
  | ok a =>
    obtain ⟨rfl, -⟩ := someHead_eq_ok hhead
    cases hcell : h.cell l.head with
    | error r =>
      rw [hhead] at hc
      simp [bind, Except.bind, hcell, Except.mapError] at hc
    | ok p =>
      rw [hhead] at hc
      obtain ⟨rfl, rfl⟩ : l.head = c ∧ p = (item, next) := by
        simpa [bind, Except.bind, hcell, Except.mapError, pure, Except.pure] using hc
      exact ⟨rfl, body_of_cell hcell⟩

/-- A size counted anew is right. -/
theorem distinctCells_measures (hl : h.Linked a) {size : ℕ} (hs : distinctCells a h = .ok size) :
    h.Measures a size := by
  refine ⟨hl, ?_⟩
  intro cs hcs
  unfold distinctCells at hs
  rw [hcs.lap_eq] at hs
  exact (Except.ok.inj hs).symm

end ListHeader

/-! ### Replacing everything but the first element -/

/-- The first cell of the list is linked to the chain of the value, if there are both. -/
theorem ensures_setButFirst {s : Store} {x value : Addr} {l : ListHeader} {Q : Unit → Store → Prop}
    {E : Fault → Store → Prop} (hrefused : ∀ f, E f s)
    (hlinked : ∀ r item next, s.heap.body value = .list r → s.heap.body l.head = .cell item next →
      Q () { s with heap := (s.heap.relink l.head item r.head [next] x
        { head := l.head, size := r.size + 1 }).releaseAll l.parsed }) :
    Ensures (l.setButFirst x value) s Q E := by
  refine ensures_bind.mpr (ensures_demand ?_ fun _ _ => hrefused _)
  intro r hr
  refine ensures_bind.mpr (ensures_check ?_ fun _ _ => hrefused _)
  rintro ⟨c, item, next⟩ hc
  obtain ⟨rfl, hbody⟩ := ListHeader.firstCell_eq_ok hc
  refine ensures_bind.mpr (ensures_bind.mpr (ensures_assert ?_ fun _ _ => hrefused _))
  rintro ⟨item', next'⟩ hcell
  obtain ⟨rfl, rfl⟩ := Body.cell.inj (hbody.symm.trans (body_of_cell hcell))
  exact ensures_alter.mpr (ensures_alter.mpr (hlinked r item next (body_of_list hr) hbody))

/-! ### Parts -/

namespace Kept

variable {A : Set Act} {F : Multiset Addr → Heap → Prop} {held : Multiset Addr} {s : Store}
  {x value : Addr} {l : ListHeader}

/-- Another list on links that a list has. -/
theorem list_create (hF : Kept A F) (hh : F held s.heap) (hx : s.heap.body x = .list l)
    {head : Addr} {size : ℕ} (hlive : s.heap.Live head) (hsized : s.heap.Sized head size) :
    Yields F held (Operation.create (.list { head, size })) s :=
  hF.create_yields hh (by simpa [Body.handles] using hlive) (.list hsized fun hf => hf x l hx)

/-- The head of a list is live. -/
theorem live_head (hF : Kept A F) (hh : F held s.heap) (hx : s.heap.body x = .list l) :
    s.heap.Live l.head :=
  (hF.exact hh).live_of_mem hx List.mem_cons_self

theorem list_item (hF : Kept A F) (hh : F held s.heap) (index : ℤ) :
    Yields F held (l.item index) s := by
  refine ensures_bind.mpr (ensures_check ?_ fun _ _ => hh)
  intro c hc
  refine ensures_bind.mpr (ensures_look.mpr ?_)
  exact hF.share hh ((hF.exact hh).live_itemOf (ListHeader.cellAt_eq_ok hc).2.2)

theorem list_first (hF : Kept A F) (hh : F held s.heap) : Yields F held l.first s := by
  refine ensures_bind.mpr (ensures_check ?_ fun _ _ => hh)
  rintro ⟨c, item, next⟩ hc
  obtain ⟨-, hbody⟩ := ListHeader.firstCell_eq_ok hc
  exact hF.share hh ((hF.exact hh).live_of_mem hbody (by simp [Body.handles]))

theorem list_last (hF : Kept A F) (hh : F held s.heap) : Yields F held l.last s := by
  refine ensures_bind.mpr (ensures_check ?_ fun _ _ => hh)
  intro c _
  refine ensures_bind.mpr (ensures_assert ?_ fun _ _ => hh)
  rintro ⟨item, next⟩ hcell
  exact hF.share hh ((hF.exact hh).live_of_mem (body_of_cell hcell) (by simp [Body.handles]))

theorem list_butFirst (hF : Kept A F) (hh : F held s.heap) (hx : s.heap.body x = .list l) :
    Yields F held l.butFirst s := by
  refine ensures_bind.mpr (ensures_check ?_ fun _ _ => hh)
  rintro ⟨c, item, next⟩ hc
  obtain ⟨-, hbody⟩ := ListHeader.firstCell_eq_ok hc
  apply hF.list_create hh hx ((hF.exact hh).live_of_mem hbody (by simp [Body.handles]))
  intro hm
  exact (hm x l hx).next (next?_eq_some_iff.mpr ⟨item, hbody⟩)

theorem list_butLast (hF : Kept A F) (hh : F held s.heap) : Yields F held l.butLast s := by
  refine ensures_bind.mpr (ensures_check (fun _ _ => ?_) fun _ _ => hh)
  refine ensures_bind.mpr (ensures_look.mpr ?_)
  split
  · exact ensures_throw.mpr hh
  · refine ensures_bind.mpr (ensures_look.mpr (ensures_bind.mpr (ensures_alter.mpr ?_)))
    refine ensures_make.mpr (hF.listOf _ (hF.retainAll hh ?_))
    intro a ha
    obtain ⟨c, hc, rfl⟩ := List.mem_map.mp ha
    obtain ⟨i, hi⟩ := List.mem_iff_getElem?.mp hc
    exact (hF.exact hh).live_itemOf (nth_of_chain_found hi).2

theorem list_fromMember (hF : Kept A F) (hh : F held s.heap) (hx : s.heap.body x = .list l)
    (ignoreCase : Bool) : Yields F held (l.fromMember ignoreCase x value) s := by
  refine ensures_bind.mpr ((reads_ask _).ensures ?_ fun _ t ht => ht ▸ hh)
  intro found t ht
  have hh' : F held t.heap := ht ▸ hh
  have hx' : t.heap.body x = .list l := ht ▸ hx
  cases found with
  | none => exact ensures_make.mpr (hF.listOf [] (by simpa using hh'))
  | some i =>
    refine ensures_bind.mpr (ensures_look.mpr ?_)
    refine ensures_bind.mpr (ensures_check ?_ fun _ _ => hh')
    intro size hsize
    -- the cell is one of the chain, or the head if the walk found none
    have hhead : t.heap.nth l.head i = some ((t.heap.cells l).found.getD i l.head)
        ∧ t.heap.kind ((t.heap.cells l).found.getD i l.head) = .cell
        ∨ (t.heap.cells l).found.getD i l.head = l.head := by
      rw [List.getD_eq_getElem?_getD]
      cases hc : (t.heap.cells l).found[i]? with
      | none => exact Or.inr rfl
      | some c => exact Or.inl (nth_of_chain_found hc)
    refine hF.list_create hh' hx' ?_ fun hm => ListHeader.distinctCells_measures ?_ hsize
    · rcases hhead with ⟨-, hkind⟩ | heq
      · exact live_of_kind hkind
      · rw [heq]
        exact hF.live_head hh' hx'
    · rcases hhead with ⟨hnth, -⟩ | heq
      · exact (hm x l hx').1.nth hnth
      · rw [heq]
        exact (hm x l hx').1

theorem list_shared (hF : Kept A F) (hh : F held s.heap) (hx : s.heap.body x = .list l) :
    Yields F held l.shared s :=
  hF.list_create hh hx (hF.live_head hh hx) fun hm => hm x l hx

theorem list_cons (hF : Kept A F) (hh : F held s.heap) (hx : s.heap.body x = .list l)
    (hvalue : s.heap.Live value) : Yields F held (l.cons value) s := by
  refine ensures_bind.mpr (ensures_create.mpr (ensures_make.mpr ?_))
  set g := s.heap.retainAll (Body.cell value l.head).handles
  have hcell : F (held + {g.blocks.size}) (g.alloc (.cell value l.head)).2 :=
    hF.create hh (by simpa [Body.handles] using ⟨hvalue, hF.live_head hh hx⟩)
      (.of_kind (by simp [Body.kind]) (by simp [Body.kind]))
  refine hF.alloc (.list { head := g.blocks.size, size := l.size + 1 })
    (by simpa [Body.handles] using hcell) ?_
  -- the old list is measured in the new heap, and the new cell is linked to its head
  have hxg : (g.alloc (.cell value l.head)).2.body x = .list l := by
    have hne : x ≠ g.blocks.size := by
      rw [size_blocks_retainAll]
      exact (live_of_body hx (by simp)).ne_size
    rw [body_alloc, if_neg hne, body_retainAll, hx]
  refine .list (fun hm => (hm x l hxg).cons ?_) fun hf => hf x l hxg
  exact next?_eq_some_iff.mpr ⟨value, (body_alloc ..).trans (if_pos rfl)⟩

theorem list_ofSlots (hF : Kept A F) (hh : F held s.heap) {slots : List Addr}
    (hlive : ∀ a ∈ slots, s.heap.Live a) : Yields F held (ListHeader.ofSlots slots) s :=
  ensures_bind.mpr (ensures_alter.mpr (ensures_make.mpr (hF.listOf _ (hF.retainAll hh hlive))))

/-! ### Changes -/

/-- Another head and size for a list: the handle to the new head is taken over, and the one to the
old head is handed out. -/
theorem list_replace (hF : Kept A F) (hheader : .header ∈ A) {head : Addr} {size : ℕ}
    {held' : Multiset Addr} (hh : F held s.heap) (hx : s.heap.body x = .list l)
    (hsized : s.heap.Sized head size) (hheld : held' + {head} = held + {l.head}) :
    Ensures (ListHeader.replace x l head size) s (fun _ t => F held' t.heap) fun _ _ => False := by
  refine ensures_alter.mpr (hF.releaseAll _ ?_)
  refine hF.move hheader (.header hx hsized ?_) hh
  rw [add_right_comm, hheld]

/-- Another element in a cell.  Whatever is held and no cell keeps its content. -/
theorem setCellItem (hF : Kept A F) (hitem : .item ∈ A) {c : Addr} (hh : F held s.heap)
    (hvalue : s.heap.Live value) :
    Ensures (ListHeader.setCellItem c value) s
      (fun _ t => F held t.heap ∧
        ∀ x ∈ held, s.heap.kind x ≠ .cell → t.heap.body x = s.heap.body x)
      fun _ t => F held t.heap := by
  refine ensures_bind.mpr (ensures_assert ?_ fun _ _ => hh)
  rintro ⟨item, next⟩ hcell
  have hc := body_of_cell hcell
  -- the item that was in the cell is now the caller's, who releases it
  have hmoved : F (held + {item}) ((s.heap.retain value).setBody c (.cell value next)) := by
    refine hF.move hitem (.item ((body_retain ..).trans hc) ?_) (hF.retain hh hvalue)
    rw [add_right_comm]
  refine ensures_alter.mpr ⟨hF.release hmoved, ?_⟩
  intro x hx hkind
  -- what is held beside the cell is no cell, so setting the cell does not touch it
  have hxc : x ≠ c := by
    rintro rfl
    exact hkind (by rw [Heap.kind, hc]; rfl)
  calc _ = ((s.heap.retain value).setBody c (.cell value next)).body x :=
        (hF.exact hmoved).body_releaseAll [item] hx
    _ = s.heap.body x := by rw [body_setBody_of_ne hxc, body_retain]

/-- Another next link for a cell. -/
theorem setCellNext (hF : Kept A F) (hlink : .link ∈ A) {c : Addr} (hh : F held s.heap)
    (hvalue : s.heap.Live value) : Keeps F held (ListHeader.setCellNext c value) s := by
  refine ensures_bind.mpr (ensures_assert ?_ fun _ _ => hh)
  rintro ⟨item, next⟩ hcell
  refine ensures_alter.mpr (hF.release ?_)
  refine hF.move hlink (.link ((body_retain ..).trans (body_of_cell hcell)) ?_)
    (hF.retain hh hvalue)
  rw [add_right_comm]

theorem list_prepend (hF : Kept A F) (hheader : .header ∈ A) (hh : F held s.heap)
    (hx : s.heap.body x = .list l) (hvalue : s.heap.Live value) :
    Keeps F held (l.prepend x value) s := by
  refine ensures_bind.mpr (ensures_share.mpr (ensures_bind.mpr (ensures_make.mpr ?_)))
  refine ensures_alter.mpr (hF.releaseAll _ ?_)
  exact hF.move hheader (.prepend ((body_retain ..).trans hx)) (hF.retain hh hvalue)

theorem list_setItem (hF : Kept A F) (hitem : .item ∈ A) (hheader : .header ∈ A)
    (hh : F held s.heap) (hx : s.heap.body x = .list l) (hheld : x ∈ held)
    (hvalue : s.heap.Live value) (index : ℤ) : Keeps F held (l.setItem x index value) s := by
  refine ensures_bind.mpr (ensures_check ?_ fun _ _ => hh)
  intro c _
  refine ensures_bind.mpr ((hF.setCellItem hitem hh hvalue).mono ?_ fun _ _ => id)
  rintro - t ⟨ht, hbody⟩
  have htx := (hbody x hheld (by simp [Heap.kind, hx, Body.kind])).trans hx
  exact (hF.list_replace hheader ht htx (fun hm => hm x l htx) rfl).mono (fun _ _ => id)
    fun _ _ => False.elim

theorem list_setFirst (hF : Kept A F) (hitem : .item ∈ A) (hheader : .header ∈ A)
    (hh : F held s.heap) (hx : s.heap.body x = .list l) (hheld : x ∈ held)
    (hvalue : s.heap.Live value) : Keeps F held (l.setFirst x value) s := by
  refine ensures_bind.mpr (ensures_check ?_ fun _ _ => hh)
  rintro ⟨c, _, _⟩ _
  refine ensures_bind.mpr ((hF.setCellItem hitem hh hvalue).mono ?_ fun _ _ => id)
  rintro - t ⟨ht, hbody⟩
  have htx := (hbody x hheld (by simp [Heap.kind, hx, Body.kind])).trans hx
  exact (hF.list_replace hheader ht htx (fun hm => hm x l htx) rfl).mono (fun _ _ => id)
    fun _ _ => False.elim

theorem list_clear (hF : Kept A F) (hheader : .header ∈ A) (hh : F held s.heap)
    (hx : s.heap.body x = .list l) : Keeps F held (l.clear x) s := by
  refine ensures_bind.mpr (ensures_make.mpr ?_)
  have hx' : s.heap.nothing.2.body x = .list l := (body_nothing ..).trans hx
  have hsized : s.heap.nothing.2.Sized s.heap.nothing.1 0 := fun _ =>
    (Chain.nil (hF.exact hh).kind_nothing).measures
  have hheld : held + {l.head} + {s.heap.nothing.1} = held + {s.heap.nothing.1} + {l.head} :=
    add_right_comm ..
  have hreplace := hF.list_replace (s := { s with heap := s.heap.nothing.2 }) hheader
    (hF.nothing hh) hx' hsized hheld
  exact ensures_bind.mpr (hreplace.mono (fun _ _ ht => ensures_release.mpr (hF.release ht))
    fun _ _ => False.elim)

theorem list_recount (hF : Kept A F) (hrecount : .recount ∈ A) (hh : F held s.heap)
    (hx : s.heap.body x = .list l) : Keeps F held (l.recount x) s := by
  refine ensures_bind.mpr (ensures_check ?_ fun _ _ => hh)
  intro size hsize
  refine ensures_bind.mpr (ensures_alter.mpr (ensures_pure.mpr ?_))
  exact hF.move hrecount
    (.recount hx fun hm => ListHeader.distinctCells_measures (hm x l hx).1 hsize) hh

theorem list_setParsed (hF : Kept A F) (hparse : .parse ∈ A) (hh : F held s.heap)
    (hx : s.heap.body x = .list l) {stamp : ℕ} {parsed : List Addr}
    (hlive : ∀ a ∈ parsed, s.heap.Live a) : Keeps F held (l.setParsed x stamp parsed) s := by
  refine ensures_alter.mpr (hF.releaseAll _ ?_)
  refine hF.move hparse (.parse ((body_retainAll ..).trans hx) ?_) (hF.retainAll hh hlive)
  rw [add_right_comm]

/-- Another chain behind the first cell of a list. -/
theorem list_setButFirst (hF : Kept A F) {a : Act} (ha : a ∈ A) (hh : F held s.heap)
    (hx : s.heap.body x = .list l) (hheld : x ∈ held)
    (hact : a = .tail ∨
      a = .extend ∧ x = value ∧ (s.heap.kind l.head = .cell → s.heap.count l.head = 1)) :
    Keeps F held (l.setButFirst x value) s := by
  refine ensures_setButFirst (fun _ => hh) fun r item next hvalue hhead => hF.releaseAll _ ?_
  refine hF.move ha (.tail hx hheld hvalue hhead ?_) hh
  apply hact.imp_right
  rintro ⟨ha, hxy, hcount⟩
  exact ⟨ha, hxy, hcount (by rw [Heap.kind, hhead]; rfl)⟩

end Kept

/-! ### Appending -/

namespace Heap

/-- The heap in which an appended value has got its cell. -/
def withCell (h : Heap) (value : Addr) : Heap :=
  ((h.retain value).nothing.2.alloc (.cell value (h.retain value).nothing.1)).2

/-- The address of the cell of an appended value. -/
def cellFor (h : Heap) (value : Addr) : Addr := (h.retain value).nothing.2.blocks.size

/-- The heap in which the cell `c` has become the only one of a list. -/
def opened (h : Heap) (x : Addr) (l : ListHeader) (c : Addr) : Heap :=
  ((h.setBody x (.list { head := c, size := l.size + 1 })).releaseAll l.parsed).release l.head

/-- The heap in which the cell `c` has gone behind the cell `last` of a list. -/
def extended (h : Heap) (x : Addr) (l : ListHeader) (last item n c : Addr) : Heap :=
  (h.relink last item c [n, c] x { head := l.head, size := l.size + 1 }).releaseAll l.parsed

variable {h : Heap} {held : Multiset Addr} {value a : Addr}

theorem body_withCell (h : Heap) (value : Addr) :
    (h.withCell value).body (h.cellFor value) = .cell value (h.retain value).nothing.1 :=
  (body_alloc ..).trans (if_pos rfl)

theorem count_withCell (h : Heap) (value : Addr) :
    (h.withCell value).count (h.cellFor value) = 1 := by
  have hblock : (h.withCell value).block? (h.cellFor value)
      = some { body := .cell value (h.retain value).nothing.1 } :=
    (block?_alloc ..).trans (if_pos rfl)
  rw [count, hblock]
  rfl

/-- What lives is not at the address of the new cell, and keeps its content. -/
theorem body_withCell_of_live (value : Addr) (ha : h.Live a) :
    a ≠ h.cellFor value ∧ (h.withCell value).body a = h.body a := by
  have hlive : (h.retain value).Live a := live_retain.mpr ha
  have hne := hlive.nothing.ne_size
  refine ⟨hne, ?_⟩
  rw [withCell, body_alloc, if_neg hne, body_nothing, body_retain]

/-- The link of the new cell is nothing. -/
theorem Exact.kind_withCell (hh : h.Exact held) (hvalue : h.Live value) :
    (h.withCell value).kind (h.retain value).nothing.1 = .nothing := by
  have hretained := hh.retain hvalue
  have hlive := (kept_exact.nothing hretained).live_of_held
    (a := (h.retain value).nothing.1) (by simp)
  rw [kind, withCell, body_alloc, if_neg hlive.ne_size]
  exact hretained.kind_nothing

end Heap

/-- **How appending ends.**  The new cell becomes the only one of an empty list; it is given up if
the search for the last cell fails, and otherwise goes behind that. -/
theorem ensures_append {s : Store} {x value : Addr} {l : ListHeader} {Q : Unit → Store → Prop}
    {E : Fault → Store → Prop}
    (hopened : (s.heap.withCell value).kind l.head = .nothing →
      Q () { s with heap := (s.heap.withCell value).opened x l (s.heap.cellFor value) })
    (hrefused : ∀ f, (s.heap.withCell value).kind l.head ≠ .nothing →
      (s.heap.withCell value).lastExclusive l.head = .error f →
      E f { s with heap := (s.heap.withCell value).release (s.heap.cellFor value) })
    (hextended : ∀ last item n, (s.heap.withCell value).lastExclusive l.head = .ok last →
      (s.heap.withCell value).body last = .cell item n →
      (s.heap.withCell value).kind n = .nothing →
      Q () { s with
        heap := (s.heap.withCell value).extended x l last item n (s.heap.cellFor value) }) :
    Ensures (l.append x value) s Q E := by
  refine ensures_bind.mpr (ensures_share.mpr (ensures_bind.mpr (ensures_make.mpr ?_)))
  refine ensures_bind.mpr (ensures_make.mpr (ensures_bind.mpr (ensures_look.mpr ?_)))
  change Ensures (if (s.heap.withCell value).isNothing l.head = true then _ else _)
    { s with heap := s.heap.withCell value } Q E
  split
  · next hnothing =>
    refine ensures_bind.mpr (ensures_alter.mpr (ensures_release.mpr (hopened ?_)))
    simpa [isNothing] using hnothing
  · next hnothing =>
    refine ensures_bind.mpr (ensures_keeping.mpr (ensures_check (fun last hlast => ?_) ?_))
    · obtain ⟨cs, hcs, -⟩ := chain_of_lastExclusive hlast
      obtain ⟨n, hn, hkind⟩ := hcs.next_of_last
      obtain ⟨item, hbody⟩ := next?_eq_some_iff.mp hn
      refine ensures_bind.mpr (ensures_holding.mpr (ensures_bind.mpr (ensures_assert ?_ ?_)))
      · rintro ⟨item', n'⟩ hcell
        obtain ⟨rfl, rfl⟩ := Body.cell.inj (hbody.symm.trans (body_of_cell hcell))
        refine ensures_alter.mpr (ensures_alter.mpr ?_)
        have hend := hextended last item n hlast hbody hkind
        simp only [extended, relink, releaseAll_cons, releaseAll_nil] at hend
        exact hend
      · -- the last cell is a cell
        intro r hr
        exact absurd ((cell_eq_ok hbody).symm.trans hr) (by simp)
    · exact fun f hf => hrefused f (by simpa [isNothing] using hnothing) hf

namespace Kept

variable {A : Set Act} {F : Multiset Addr → Heap → Prop} {held : Multiset Addr} {s : Store}
  {x value : Addr} {l : ListHeader}

/-- The new cell takes over a handle to the value, and its own handle is the caller's. -/
theorem withCell (hF : Kept A F) {h : Heap} (hh : F held h) (hvalue : h.Live value) :
    F (held + {h.cellFor value}) (h.withCell value) := by
  refine hF.alloc (.cell ..) ?_ (.of_kind (by simp [Body.kind]) (by simp [Body.kind]))
  rw [coe_handles_cell, ← add_assoc]
  exact hF.nothing (hF.retain hh hvalue)

theorem list_append (hF : Kept A F) (hheader : .header ∈ A) (hextend : .extend ∈ A)
    (hh : F held s.heap) (hx : s.heap.body x = .list l) (hheld : x ∈ held)
    (hvalue : s.heap.Live value) : Keeps F held (l.append x value) s := by
  have hg := hF.withCell hh hvalue
  have hkind := (hF.exact hh).kind_withCell hvalue
  have hbody := body_withCell s.heap value
  have hxg : (s.heap.withCell value).body x = .list l :=
    (body_withCell_of_live value (live_of_body hx (by simp))).2.trans hx
  refine ensures_append (fun hempty => ?_) (fun f _ _ => hF.release hg)
    fun last item n hlast hlastBody _ => ?_
  · -- the size of an empty list is zero
    refine hF.release (hF.releaseAll _ (hF.move hheader (.header hxg (fun hm => ?_) ?_) hg))
    · rw [(hm x l hxg).2 [] (.nil hempty)]
      exact (Chain.cons (next?_eq_some_iff.mpr ⟨value, hbody⟩) (.nil hkind)).measures
    · abel
  · have hmove := Move.extend hxg hheld hlast hlastBody hbody hkind
      (count_withCell s.heap value)
    exact hF.releaseAll _ (hF.move hextend hmove hg)

end Kept

end SharedValues
