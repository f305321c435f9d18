import SharedValues.Proofs.Chain.Unshared

/-!
# Lists that take the place of a list

A list with one element more in front, or one less, is a new header on the cells of the old list.
The two share these cells until the old list is given up.  With it goes its handle to its first
cell, and if that was the only one, the cell goes too with its handle to the next cell.  So the new
list is left alone with its chain.  A list without the last element has a chain of new cells.

## Main definitions

* `Heap.consed`, `Heap.headed` — a new list on the cells of another one.

## Main results

* `Exact.unshared_listOf` — a new list is on a chain of its own.
* `Exact.references_release_add_le` — the handles in a block that nobody leads to any more are gone.
* `Unshared.cons_release`, `Unshared.butFirst_release`, `Unshared.butLast_release` — the list that
  is left when the old one is given up.
-/

namespace SharedValues.Heap

variable {h : Heap} {held : Multiset Addr} {a c d item n value x y head : Addr}
  {items as cs : List Addr}

/-! ### New values -/

@[simp] theorem stored_retainAll (h : Heap) (as : List Addr) :
    (h.retainAll as).stored = h.stored := by
  induction as generalizing h with
  | nil => rfl
  | cons a as ih => rw [retainAll_cons, ih, stored_retain]

/-- A new value adds the handles stored in it. -/
theorem references_create (h : Heap) (held : Multiset Addr) (body : Body) (a : Addr) :
    ((h.retainAll body.handles).alloc body).2.references held a
      = h.references held a + (body.handles : Multiset Addr).count a := by
  rw [references_alloc, references_add, references, references, stored_retainAll]

theorem Spares.create (h : Heap) {body : Body} (hbody : ∀ l, body = .list l → l.stamp = 0) :
    h.Spares ((h.retainAll body.handles).alloc body).2 := by
  have hretained : ∀ (as : List Addr) (h : Heap), h.Spares (h.retainAll as) := by
    intro as
    induction as with
    | nil => exact .refl
    | cons a as ih => exact fun h => (Spares.modify (body_retain h a)).trans (ih _)
  exact (hretained _ h).trans (.alloc _ false hbody)

/-- **A new list** is on a chain of its own. -/
theorem Exact.unshared_listOf (hh : h.Exact (held + (items : Multiset Addr))) :
    ∃ head cs, (h.listOf items).2.Unshared held (h.listOf items).1 head cs items := by
  obtain ⟨cs, hcs, hmap, hcount⟩ := chainOf_chain hh
  have hexact := kept_exact.chainOf hh
  have hhead := hexact.live_of_held (a := (h.chainOf items).1) (by simp)
  have hlist := kept_exact.listOf items hh
  rw [listOf_eq] at hlist ⊢
  set k := (h.chainOf items).2
  set head := (h.chainOf items).1
  -- the header is the last block that is made, and the only one that leads to the first cell
  have hbody := body_alloc k (.list { head, size := items.length }) false
  have hrefs : ∀ a, (k.alloc (.list { head, size := items.length })).2.references
      (held + {k.blocks.size}) a
        = (held + {head} + k.stored).count a + Multiset.count a {k.blocks.size} := by
    intro a
    rw [references_alloc, references, Body.handles, Multiset.coe_singleton]
    simp only [Multiset.count_add]
    omega
  refine ⟨head, cs, ⟨(hbody _).trans (if_pos rfl),
    (hexact.agreeOn_alloc _ _).chain hhead.ne_size hcs, ?_⟩, hlist, ?_⟩
  · refine (List.map_congr_left fun c hc => ?_).trans hmap
    rw [itemOf, itemOf, hbody, if_neg (hcs.live_of_mem hc).ne_size]
  · intro a ha
    refine (hrefs a).le.trans ?_
    rcases List.mem_cons.mp ha with ha | hc
    -- the header is new, so only the caller holds it
    · rw [show a = k.blocks.size from ha, hexact.count_size, Multiset.count_singleton_self]
    · rw [Multiset.count_singleton, if_neg (hcs.live_of_mem hc).ne_size]
      exact hcount a hc

/-! ### The old list is given up -/

/-- **The handles in a list or a cell are gone** if no handle leads to it after a release. -/
theorem Exact.references_release_add_le (hg : (h.release x).Exact held)
    (hd : (h.release x).references held d = 0) (hkind : h.kind d = .list ∨ h.kind d = .cell)
    (a : Addr) :
    (h.release x).references held a + ((h.body d).handles : Multiset Addr).count a
      ≤ h.references held a := by
  have hgone : ¬(h.release x).Live d := by
    intro hlive
    have hsame : (h.release x).kind d = h.kind d :=
      congrArg Body.kind ((releaseAll_thins h [x]).body_eq hlive)
    refine hg.not_live_of_references hd ?_ ?_ hlive
    all_goals
      rw [hsame]
      rcases hkind with hk | hk <;> rw [hk] <;> decide
  have hstored := Multiset.count_le_of_le a (stored_discharge_add_le hgone)
  rw [Multiset.count_add] at hstored
  rw [references, references, Multiset.count_add, Multiset.count_add]
  exact (Nat.add_assoc ..).le.trans (Nat.add_le_add_left hstored _)

/-- The handle that a list has to its first cell is gone with the list. -/
theorem Listed.references_release_add_le (hl : h.Listed x head cs as)
    (hh : h.Exact (held + {x})) (hx : h.references held x = 0) (a : Addr) :
    (h.release x).references held a + Multiset.count a {head} ≤ h.references held a := by
  have hzero : (h.release x).references held x = 0 :=
    Nat.le_zero.mp (hx ▸ references_releaseAll_le h held [x] x)
  have hgone := hh.release.references_release_add_le hzero (Or.inl (by rw [kind, hl.body]; rfl)) a
  rwa [hl.body] at hgone

/-- A list is left alone with its chain when another list that shared it is given up. -/
theorem Listed.unshared_release (hl : h.Listed y head cs as) (hh : h.Exact (held + {y} + {x}))
    (hrefs : ∀ a ∈ y :: cs, (h.release x).references (held + {y}) a ≤ 1) :
    (h.release x).Unshared held y head cs as where
  toListed := hl.congr hh hh.release (hh.release.live_of_held (by simp)) fun _ _ hlive =>
    (releaseAll_thins h [x]).body_eq hlive
  exact := hh.release
  single := hrefs

/-! ### One element more -/

/-- The cell of a new first element, in front of the cells of a list. -/
def withFirst (h : Heap) (value head : Addr) : Addr × Heap :=
  (h.retainAll (Body.cell value head).handles).alloc (.cell value head)

/-- A new list with one more element in front, on the cells of another list. -/
def consed (h : Heap) (value head : Addr) (size : ℕ) : Addr × Heap :=
  (h.withFirst value head).2.alloc (.list { head := (h.withFirst value head).1, size := size + 1 })

theorem not_live_withFirst (h : Heap) (value head : Addr) : ¬h.Live (h.withFirst value head).1 :=
  fun hlive => hlive.ne_size (size_blocks_retainAll ..)

theorem not_live_consed (h : Heap) (value head : Addr) (size : ℕ) :
    ¬h.Live (h.consed value head size).1 := by
  have hspares : h.Spares (h.withFirst value head).2 := .create h (by simp)
  exact fun hlive => hlive.lt_size.not_ge hspares.size_le

/-- The new handles are the one to the new list and those in it and in the new cell. -/
theorem references_consed (h : Heap) (held : Multiset Addr) (value head : Addr) (size : ℕ)
    (a : Addr) :
    (h.consed value head size).2.references (held + {(h.consed value head size).1}) a
      = h.references held a + (Multiset.count a {value} + Multiset.count a {head})
        + Multiset.count a {(h.withFirst value head).1}
        + Multiset.count a {(h.consed value head size).1} := by
  rw [consed, references_alloc, references_add, withFirst, references_create, coe_handles_cell,
    coe_handles_list]
  simp only [references_add, Multiset.count_add, Multiset.coe_nil, add_zero]
  omega

namespace Unshared

/-- The new list shares the cells of the old one. -/
theorem listed_consed (hu : h.Unshared held x head cs as) (hv : value ∈ held) :
    (h.consed value head as.length).2.Exact (held + {x} + {(h.consed value head as.length).1}) ∧
      (h.consed value head as.length).2.Listed x head cs as ∧
      (h.consed value head as.length).2.Listed (h.consed value head as.length).1
        (h.withFirst value head).1 ((h.withFirst value head).1 :: cs) (value :: as) := by
  set k := h.withFirst value head
  have hvalue : h.Live value := hu.exact.live_of_held (Multiset.mem_add.mpr (Or.inl hv))
  -- the new cell takes over nothing from the list: its handles are new ones
  have hk : k.2.Exact (held + {x} + {k.1}) :=
    kept_exact.create hu.exact (by simpa [Body.handles] using ⟨hvalue, hu.live_head hu.exact⟩)
      (.of_kind (by simp [Body.kind]) (by simp [Body.kind]))
  have hspares : h.Spares k.2 := .create h (by simp)
  have hold := hu.listed_of_spares hspares hk (by simp)
  have hcell : k.2.body k.1 = .cell value head := (body_alloc ..).trans (if_pos rfl)
  have hg : (h.consed value head as.length).2.Exact
      (held + {x} + {(h.consed value head as.length).1}) := by
    refine kept_exact.alloc _ (by simpa [Body.handles] using hk)
      (.list (fun _ => ?_) fun hf => hf x _ hold.body)
    rw [← hu.length_eq]
    exact (Chain.cons (next?_eq_some_iff.mpr ⟨value, hcell⟩) hold.chain).measures
  -- the header of the longer list is made last, so the new cell is as it was
  have hlast : k.2.Spares (h.consed value head as.length).2 :=
    .alloc _ false (by rintro l ⟨rfl⟩; rfl)
  have hold := hu.listed_of_spares (hspares.trans hlast) hg (by simp)
  have hcell : (h.consed value head as.length).2.body k.1 = .cell value head :=
    ((body_alloc ..).trans (if_neg (hk.live_of_held (by simp)).ne_size)).trans hcell
  refine ⟨hg, hold, (body_alloc ..).trans (if_pos rfl),
    .cons (next?_eq_some_iff.mpr ⟨value, hcell⟩) hold.chain, ?_⟩
  rw [List.map_cons, itemOf, hcell, hold.items]
  rfl

/-- **One element more in front.** -/
theorem cons_release (hu : h.Unshared held x head cs as) (hv : value ∈ held) :
    ((h.consed value head as.length).2.release x).Unshared held (h.consed value head as.length).1
      (h.withFirst value head).1 ((h.withFirst value head).1 :: cs) (value :: as) := by
  obtain ⟨hg, hold, hnew⟩ := hu.listed_consed hv
  have hrefs := references_consed h held value head as.length
  have hknew := not_live_withFirst h value head
  have hgnew := not_live_consed h value head as.length
  have hkg := hnew.ne_of_mem List.mem_cons_self
  set k := h.withFirst value head
  set g := h.consed value head as.length
  have hvalue : h.Live value := hu.exact.live_of_held (Multiset.mem_add.mpr (Or.inl hv))
  -- the new blocks are not among the old ones, and the value is not a part of the list
  have hne : ∀ {a b}, h.Live a → ¬h.Live b → a ≠ b := fun ha hb hab => hb (hab ▸ ha)
  have hvx : ∀ a ∈ x :: cs, a ≠ value := fun a ha =>
    ne_of_mem_of_not_mem ha (hu.not_mem_of_held hv)
  rw [add_right_comm] at hg
  have hx : g.2.references (held + {g.1}) x = 0 := by
    rw [hrefs, hu.references_self]
    simp only [Multiset.count_singleton, if_neg (hvx x List.mem_cons_self),
      if_neg (hu.ne_of_chain hu.chain).symm, if_neg (hne hu.live hknew), if_neg (hne hu.live hgnew)]
  refine hnew.unshared_release hg fun a ha => ?_
  -- the handle to the old head that is left is the one in the new cell
  have hgone := hold.references_release_add_le hg hx a
  rw [hrefs] at hgone
  rcases List.mem_cons.mp ha with rfl | ha
  · have hzero := hu.references_fresh hgnew
    simp only [Multiset.count_singleton, if_neg (hne hvalue hgnew).symm, if_neg hkg.symm,
      if_true] at hgone
    omega
  rcases List.mem_cons.mp ha with rfl | hc
  · have hzero := hu.references_fresh hknew
    simp only [Multiset.count_singleton, if_neg (hne hvalue hknew).symm, if_neg hkg,
      if_true] at hgone
    omega
  · have hone := hu.references_cell hc
    have hlive := hu.chain.live_of_mem hc
    simp only [Multiset.count_singleton, if_neg (hvx a (List.mem_cons_of_mem x hc)),
      if_neg (hne hlive hknew), if_neg (hne hlive hgnew)] at hgone
    omega

end Unshared

/-! ### One element less -/

/-- A new list on the cells from a link on. -/
def headed (h : Heap) (head : Addr) (size : ℕ) : Addr × Heap :=
  (h.retainAll (Body.list { head, size }).handles).alloc (.list { head, size })

theorem not_live_headed (h : Heap) (head : Addr) (size : ℕ) : ¬h.Live (h.headed head size).1 :=
  fun hlive => hlive.ne_size (size_blocks_retainAll ..)

/-- The new handles are the one to the new list and the one in it. -/
theorem references_headed (h : Heap) (held : Multiset Addr) (head : Addr) (size : ℕ) (a : Addr) :
    (h.headed head size).2.references (held + {(h.headed head size).1}) a
      = h.references held a + Multiset.count a {head}
        + Multiset.count a {(h.headed head size).1} := by
  rw [headed, references_create, coe_handles_list]
  simp only [references_add, Multiset.coe_nil, add_zero]
  omega

namespace Unshared

/-- The new list shares the cells of the old one but the first. -/
theorem listed_butFirst (hu : h.Unshared held x c (c :: cs) (a :: as))
    (hn : h.body c = .cell item n) :
    (h.headed n as.length).2.Exact (held + {x} + {(h.headed n as.length).1}) ∧
      (h.headed n as.length).2.Listed x c (c :: cs) (a :: as) ∧
      (h.headed n as.length).2.Listed (h.headed n as.length).1 n cs as ∧
      (h.headed n as.length).2.body c = .cell item n := by
  set g := h.headed n as.length
  have hnext : h.next? c = some n := next?_eq_some_iff.mpr ⟨item, hn⟩
  obtain ⟨ds, hcs, hchain⟩ := hu.chain.tail hnext
  obtain ⟨-, rfl⟩ := List.cons.inj hcs
  have hlength : cs.length = as.length := Nat.succ.inj hu.length_eq
  -- the size of the new list is that of the chain behind the first cell
  have hg : g.2.Exact (held + {x} + {g.1}) := by
    refine kept_exact.create hu.exact ?_
      (.list (fun _ => hlength ▸ hchain.measures) fun hf => hf x _ hu.body)
    simpa [Body.handles] using hu.exact.live_next hnext
  have hspares : h.Spares g.2 := .create h (by rintro l ⟨rfl⟩; rfl)
  have hold := hu.listed_of_spares hspares hg (by simp)
  have hlive : h.Live c := hu.chain.live_of_mem List.mem_cons_self
  have hcell : g.2.body c = .cell item n :=
    (hspares.body_eq hlive.lt_size (hold.chain.live_of_mem List.mem_cons_self)).trans hn
  obtain ⟨ds, hds, hrest⟩ := hold.chain.tail (next?_eq_some_iff.mpr ⟨item, hcell⟩)
  obtain ⟨-, rfl⟩ := List.cons.inj hds
  -- the old list keeps its first cell, so the new chain is the rest of its own
  exact ⟨hg, hold, ⟨(body_alloc ..).trans (if_pos rfl), hrest, (List.cons.inj hold.items).2⟩, hcell⟩

/-- **All elements but the first**: the first cell goes with the old list. -/
theorem butFirst_release (hu : h.Unshared held x c (c :: cs) (a :: as))
    (hn : h.body c = .cell item n) :
    ((h.headed n as.length).2.release x).Unshared held (h.headed n as.length).1 n cs as := by
  obtain ⟨hg, hold, hnew, hcell⟩ := hu.listed_butFirst hn
  have hrefs := references_headed h held n as.length
  have hgnew := not_live_headed h n as.length
  set g := h.headed n as.length
  have hne : ∀ {a}, h.Live a → a ≠ g.1 := fun ha hab => hgnew (hab ▸ ha)
  have hlive : h.Live c := hu.chain.live_of_mem List.mem_cons_self
  rw [add_right_comm] at hg
  have hx : g.2.references (held + {g.1}) x = 0 := by
    rw [hrefs, hu.references_self]
    simp only [Multiset.count_singleton, if_neg (hold.ne_of_chain hnew.chain).symm,
      if_neg (hne hu.live)]
  -- the first cell goes with the old list, since the new one leads to the second
  have hcn : c ≠ n := by
    rintro rfl
    exact List.cons_ne_self c cs (hold.chain.unique hnew.chain)
  have hc : (g.2.release x).references (held + {g.1}) c = 0 := by
    have hgone := hold.references_release_add_le hg hx c
    have hone := hu.references_cell List.mem_cons_self
    rw [hrefs, Multiset.count_singleton_self] at hgone
    simp only [Multiset.count_singleton, if_neg hcn, if_neg (hne hlive)] at hgone
    omega
  refine hnew.unshared_release hg fun a ha => ?_
  have hgone := hg.release.references_release_add_le hc
    (Or.inr (hold.chain.kind_of_mem c List.mem_cons_self)) a
  rw [hcell, hrefs, coe_handles_cell, Multiset.count_add] at hgone
  rcases List.mem_cons.mp ha with rfl | ha
  · have hzero := hu.references_fresh hgnew
    rw [Multiset.count_singleton_self] at hgone
    omega
  · have hone := hu.references_cell (List.mem_cons_of_mem c ha)
    have hlive := hu.chain.live_of_mem (List.mem_cons_of_mem c ha)
    rw [Multiset.count_singleton a g.1, if_neg (hne hlive)] at hgone
    omega

/-- All elements but the last, in cells of their own. -/
theorem butLast_release (hu : h.Unshared held x head cs as) (hitems : ∀ a ∈ items, h.Live a) :
    ∃ head' cs', (((h.retainAll items).listOf items).2.release x).Unshared held
      ((h.retainAll items).listOf items).1 head' cs' items := by
  have hretained : (h.retainAll items).Exact (held + {x} + (items : Multiset Addr)) :=
    kept_exact.retainAll hu.exact hitems
  obtain ⟨head', cs', hnew⟩ := hretained.unshared_listOf
  exact ⟨head', cs', hnew.release⟩

end Unshared

end SharedValues.Heap
