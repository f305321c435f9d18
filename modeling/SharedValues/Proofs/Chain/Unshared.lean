import SharedValues.Proofs.Chain.Elements
import SharedValues.Proofs.Heap.Stored

/-!
# Lists on a chain of their own

A list is unshared if nobody but itself leads to its cells, and only one handle is held to it.  This
stays so while values are made and given up, because whoever makes them has no handle to the list
or to a part of its chain that could be copied.  A list that takes the place of another one shares
its cells for a moment, until the other one is given up.

## Main definitions

* `Heap.Listed` — a list has certain elements in certain cells.
* `Heap.Unshared` — nobody else holds a part of its chain.
* `Heap.pushed` — a list with a new cell in front of its own.

## Main results

* `Unshared.retain`, `Unshared.alloc`, `Unshared.releaseAll` — values made and given up.
* `Unshared.push`, `Unshared.setItem`, `Unshared.clear` — changes in place.
-/

namespace SharedValues.Heap

variable {h g : Heap} {held held' : Multiset Addr} {a b c i item j n x head : Addr}
  {as bs cs ds : List Addr}

/-- What is left has its content, so a chain whose first cell is left has its cells, with their
elements. -/
theorem Chain.congr (hc : h.Chain head cs) (hh : h.Exact held) (hg : g.Exact held')
    (hlive : h.Live head) (hleft : g.Live head)
    (hbody : ∀ a, h.Live a → g.Live a → g.body a = h.body a) :
    g.Chain head cs ∧ cs.map g.itemOf = cs.map h.itemOf := by
  have hagree : AgreeOn {a | h.Live a ∧ g.Live a} h g := by
    refine ⟨fun a ha => ?_, fun a ha => ?_, fun a ha n hn => ?_⟩
    · rw [kind, kind, hbody a ha.1 ha.2]
    · rw [next?, next?, hbody a ha.1 ha.2]
    · have hn' : g.next? a = some n := by rwa [next?, hbody a ha.1 ha.2]
      exact ⟨hh.live_next hn, hg.live_next hn'⟩
  have hchain := hagree.chain ⟨hlive, hleft⟩ hc
  refine ⟨hchain, List.map_congr_left fun c hmem => ?_⟩
  rw [itemOf, itemOf, hbody c (hc.live_of_mem hmem) (hchain.live_of_mem hmem)]

/-- Likewise for the cells that are offered from a place on. -/
theorem Offers.congr (hc : h.Offers head cs) (hh : h.Exact held) (hg : g.Exact held')
    (hlive : h.Live head) (hleft : g.Live head)
    (hbody : ∀ a, h.Live a → g.Live a → g.body a = h.body a) :
    g.Offers head cs ∧ cs.map g.itemOf = cs.map h.itemOf := by
  induction hc with
  | nil => exact ⟨.nil, rfl⟩
  | @cons a n cs hn _ ih =>
    have hsame := hbody a hlive hleft
    have hn' : g.next? a = some n := by rwa [next?, hsame]
    obtain ⟨hrest, hitems⟩ := ih (hh.live_next hn) (hg.live_next hn')
    refine ⟨.cons hn' hrest, ?_⟩
    rw [List.map_cons, List.map_cons, hitems, itemOf, itemOf, hsame]

/-- The list `x` has the elements `as` in the cells `cs`, and no parsed form. -/
structure Listed (h : Heap) (x head : Addr) (cs as : List Addr) : Prop where
  /-- The header. -/
  body : h.body x = .list { head, size := as.length }
  /-- The cells. -/
  chain : h.Chain head cs
  /-- The elements in the cells. -/
  items : cs.map h.itemOf = as

/-- **A list on a chain of its own**: one handle to the list is held outside, besides the handles in
`held`, and each cell has the handle that the list or the cell before has. -/
structure Unshared (h : Heap) (held : Multiset Addr) (x head : Addr) (cs as : List Addr) : Prop
    extends h.Listed x head cs as where
  /-- The counts are exact. -/
  exact : h.Exact (held + {x})
  /-- There is one handle to the list and to each cell. -/
  single : ∀ a ∈ x :: cs, h.references (held + {x}) a ≤ 1

namespace Listed

theorem length_eq (hl : h.Listed x head cs as) : cs.length = as.length := by
  rw [← hl.items, List.length_map]

theorem live (hl : h.Listed x head cs as) : h.Live x := live_of_body hl.body (by simp)

theorem ne_of_mem (hl : h.Listed x head cs as) (hc : c ∈ cs) : c ≠ x := by
  rintro rfl
  have hkind := hl.chain.kind_of_mem c hc
  simp [kind, hl.body, Body.kind] at hkind

/-- A chain begins with nothing or with a cell. -/
theorem ne_of_chain (hl : h.Listed x head cs as) (hc : h.Chain a ds) : a ≠ x := by
  rintro rfl
  have hkind := hc.linked.kind
  simp [kind, hl.body, Body.kind] at hkind

theorem live_head (hl : h.Listed x head cs as) (hh : h.Exact held) : h.Live head :=
  hh.live_of_mem hl.body List.mem_cons_self

/-- What is left has its content, so a list that is left has its elements. -/
theorem congr (hl : h.Listed x head cs as) (hh : h.Exact held) (hg : g.Exact held')
    (hx : g.Live x) (hbody : ∀ a, h.Live a → g.Live a → g.body a = h.body a) :
    g.Listed x head cs as := by
  have hxg := (hbody x hl.live hx).trans hl.body
  obtain ⟨hchain, hitems⟩ := hl.chain.congr hh hg (hl.live_head hh)
    (hg.live_of_mem hxg List.mem_cons_self) hbody
  exact ⟨hxg, hchain, hitems.trans hl.items⟩

end Listed

namespace Unshared

/-- What leads to a cell is the list or the cell before, so nobody holds it outside; and nobody
holds a second handle to the list. -/
theorem not_mem_of_held (hu : h.Unshared held x head cs as) (hb : b ∈ held) : b ∉ x :: cs := by
  intro hmem
  have hsingle := hu.single b hmem
  have hheld := Multiset.count_pos.mpr hb
  rcases List.mem_cons.mp hmem with rfl | hc
  · rw [references_add, references, Multiset.count_add, Multiset.count_singleton_self] at hsingle
    omega
  · obtain ⟨i, hi⟩ := List.mem_iff_getElem?.mp hc
    obtain ⟨p, hp⟩ := exists_storer hu.body (hu.chain.nth_of_getElem? hi)
    have hsole : h.Sole b := by
      rw [Sole, hu.exact.count_eq_references (hu.chain.kind_of_mem b hc)]
      exact hsingle
    exact hu.exact.not_held hsole hp (Multiset.mem_add.mpr (Or.inl hb))

/-- Nothing and words are not a part of the list. -/
theorem not_mem_of_kind (hu : h.Unshared held x head cs as) (hlist : h.kind b ≠ .list)
    (hcell : h.kind b ≠ .cell) : b ∉ x :: cs := by
  intro hmem
  rcases List.mem_cons.mp hmem with rfl | hc
  · exact hlist (by rw [kind, hu.body]; rfl)
  · exact hcell (hu.chain.kind_of_mem b hc)

theorem live_of_mem (hu : h.Unshared held x head cs as) (ha : a ∈ x :: cs) : h.Live a := by
  rcases List.mem_cons.mp ha with rfl | hc
  · exact hu.live
  · exact hu.chain.live_of_mem hc

/-- The handle to the list is the only one. -/
theorem references_self (hu : h.Unshared held x head cs as) : h.references held x = 0 := by
  have hsingle := hu.single x List.mem_cons_self
  rw [references_add, Multiset.count_singleton_self] at hsingle
  omega

theorem references_cell (hu : h.Unshared held x head cs as) (hc : c ∈ cs) :
    h.references held c ≤ 1 := by
  have hsingle := hu.single c (List.mem_cons_of_mem x hc)
  rw [references_add] at hsingle
  omega

theorem references_fresh (hu : h.Unshared held x head cs as) (ha : ¬h.Live a) :
    h.references held a = 0 := by
  have hnone := hu.exact.references_of_not_live ha
  rw [references_add] at hnone
  omega

/-! ### Values made and given up -/

/-- The list is still there while other values are made, whoever shares its chain now. -/
theorem listed_of_spares (hu : h.Unshared held x head cs as) (hspares : h.Spares g)
    (hg : g.Exact held') (hx : x ∈ held') : g.Listed x head cs as :=
  hu.congr hu.exact hg (hg.live_of_held hx) fun _ ha hlive => hspares.body_eq ha.lt_size hlive

/-- A list stays on a chain of its own while values are made and given up, unless somebody gets
another handle to it or to one of its cells. -/
theorem of_spares (hu : h.Unshared held x head cs as) (hspares : h.Spares g)
    (hg : g.Exact (held' + {x}))
    (hrefs : ∀ a ∈ x :: cs, g.references (held' + {x}) a ≤ h.references (held + {x}) a) :
    g.Unshared held' x head cs as where
  toListed := hu.listed_of_spares hspares hg (by simp)
  exact := hg
  single a ha := (hrefs a ha).trans (hu.single a ha)

theorem retain (hu : h.Unshared held x head cs as) (hb : b ∈ held) :
    (h.retain b).Unshared (held + {b}) x head cs as := by
  refine hu.of_spares (.modify (body_retain h b)) ?_ fun a ha => ?_
  · rw [add_right_comm]
    exact hu.exact.retain (hu.exact.live_of_held (Multiset.mem_add.mpr (Or.inl hb)))
  · have hab : a ≠ b := by
      rintro rfl
      exact hu.not_mem_of_held hb ha
    rw [references_retain, add_right_comm, references_add, Multiset.count_singleton, if_neg hab,
      add_zero]

/-- A new value that takes over some of the handles. -/
theorem alloc {body : Body} (hu : h.Unshared (held + (body.handles : Multiset Addr)) x head cs as)
    (hfresh : h.Fresh body) :
    (h.alloc body).2.Unshared (held + {h.blocks.size}) x head cs as := by
  refine hu.of_spares (.alloc h false fun l hl => (hfresh.unparsed hl).1) ?_ fun a ha => ?_
  · have hexact := hu.exact
    rw [add_right_comm] at hexact ⊢
    exact kept_exact.alloc body hexact hfresh
  · have hne := (hu.live_of_mem ha).ne_size
    rw [references_alloc, add_right_comm held, add_right_comm (held + {x}), references_add,
      Multiset.count_singleton, if_neg hne, add_zero, add_right_comm held]

theorem word (hu : h.Unshared held x head cs as) (w : Word) :
    (h.alloc (.word w)).2.Unshared (held + {h.blocks.size}) x head cs as :=
  alloc (by simpa [Body.handles] using hu) (.of_kind (by simp [Body.kind]) (by simp [Body.kind]))

theorem nothing (hu : h.Unshared held x head cs as) :
    h.nothing.2.Unshared (held + {h.nothing.1}) x head cs as := by
  have hexact : h.nothing.2.Exact (held + {x} + {h.nothing.1}) := kept_exact.nothing hu.exact
  refine hu.of_spares ((Spares.of_thins (.ensureNothing h)).trans (.modify (body_retain _ _)))
    (by rwa [add_right_comm]) fun a ha => ?_
  -- the block for nothing is no list and no cell
  have hne : a ≠ h.nothing.1 := by
    rintro rfl
    refine hu.not_mem_of_kind ?_ ?_ ha
    all_goals
      rw [kind, ← body_nothing, ← kind, hu.exact.kind_nothing]
      decide
  rw [add_right_comm, references_add, Multiset.count_singleton, if_neg hne, add_zero, references,
    references, stored_nothing]

theorem releaseAll (hu : h.Unshared (held + (bs : Multiset Addr)) x head cs as) :
    (h.releaseAll bs).Unshared held x head cs as := by
  have hexact := hu.exact
  rw [add_right_comm] at hexact
  refine hu.of_spares (.of_thins (releaseAll_thins h bs)) (hexact.releaseAll bs) fun a _ => ?_
  refine (references_releaseAll_le ..).trans ?_
  rw [add_right_comm held, references_add h (held + {x})]
  exact Nat.le_add_right _ _

theorem release (hu : h.Unshared (held + {b}) x head cs as) :
    (h.release b).Unshared held x head cs as := by
  have hu : h.Unshared (held + (([b] : List Addr) : Multiset Addr)) x head cs as := hu
  exact hu.releaseAll

end Unshared

/-! ### Changes in place -/

/-- A list with a new cell in front of its own. -/
def pushed (h : Heap) (x item head : Addr) (size : ℕ) : Heap :=
  (h.alloc (.cell item head)).2.setBody x (.list { head := h.blocks.size, size := size + 1 })

/-- The new handles are the one to the new cell and the one to its element. -/
theorem references_pushed {size : ℕ} (hx : h.body x = .list { head, size }) :
    (h.pushed x item head size).references held a
      = h.references (held + {item}) a + Multiset.count a {h.blocks.size} := by
  have hne : x ≠ h.blocks.size := (live_of_body hx (by simp)).ne_size
  have hxk : (h.alloc (.cell item head)).2.body x = .list { head, size } :=
    ((body_alloc ..).trans (if_neg hne)).trans hx
  have hset : (h.pushed x item head size).references (held + {head}) a
      = (h.alloc (.cell item head)).2.references (held + {h.blocks.size}) a :=
    references_setBody hxk (by simp) (add_right_comm ..)
  rw [references_alloc] at hset
  simp only [coe_handles_cell, references_add, Multiset.count_add] at hset ⊢
  omega

namespace Unshared

/-- A new cell in front, which takes over the list's handle to its head. -/
theorem push (hu : h.Unshared (held + {item}) x head cs as) :
    (h.pushed x item head as.length).Unshared held x h.blocks.size (h.blocks.size :: cs)
      (item :: as) := by
  have hexact : h.Exact (held + {x} + {item}) := by
    rw [add_right_comm]
    exact hu.exact
  set k := (h.alloc (.cell item head)).2
  -- the list and its cells were there before the new cell
  have hk : ∀ {a}, a ≠ h.blocks.size → k.body a = h.body a := fun ha =>
    (body_alloc ..).trans (if_neg ha)
  have hxk : k.body x = .list { head, size := as.length } := (hk hu.live.ne_size).trans hu.body
  have hlive : k.Live x := live_of_body hxk (by simp)
  have hcell : (h.pushed x item head as.length).body h.blocks.size = .cell item head :=
    (body_setBody_of_ne hu.live.ne_size.symm _).trans ((body_alloc ..).trans (if_pos rfl))
  refine ⟨⟨body_setBody hlive _, .cons (next?_eq_some_iff.mpr ⟨item, hcell⟩) ?_, ?_⟩, ?_, ?_⟩
  · have hchain : k.Chain head cs := (hexact.agreeOn_alloc ..).chain
      (hu.live_head hexact).ne_size hu.chain
    have hagree : AgreeOn Set.univ k (h.pushed x item head as.length) :=
      agreeOn_setBody hlive hxk rfl rfl
    exact hagree.chain (Set.mem_univ _) hchain
  · rw [List.map_cons, itemOf, hcell]
    refine congrArg (item :: ·) ((List.map_congr_left fun c hc => ?_).trans hu.items)
    rw [itemOf, itemOf, pushed, body_setBody_of_ne (hu.ne_of_mem hc),
      hk (hu.chain.live_of_mem hc).ne_size]
  · simpa [pushed] using kept_exact.move (Set.mem_univ _) (Move.prepend hu.body) hexact
  · intro a ha
    rw [references_pushed hu.body, add_right_comm]
    -- the new cell is held by the header alone, and everything else as before
    rcases List.mem_cons.mp ha with rfl | ha
    · rw [Multiset.count_singleton, if_neg hu.live.ne_size]
      exact hu.single a List.mem_cons_self
    · rcases List.mem_cons.mp ha with rfl | hc
      · rw [hu.exact.references_of_not_live fun hlive => hlive.ne_size rfl,
          Multiset.count_singleton_self]
      · rw [Multiset.count_singleton, if_neg (hu.chain.live_of_mem hc).ne_size]
        exact hu.single a (List.mem_cons_of_mem x hc)

/-- Another element in a cell. -/
theorem setItem (hu : h.Unshared (held + {j}) x head cs as) {k : ℕ} (hk : cs[k]? = some c)
    (hc : h.body c = .cell i n) :
    (h.setBody c (.cell j n)).Unshared (held + {i}) x head cs (as.set k j) := by
  have hmem : c ∈ cs := List.mem_of_getElem? hk
  have hlive := hu.chain.live_of_mem hmem
  have hheld : held + {i} + {x} + {j} = held + {j} + {x} + {i} := by abel
  refine ⟨⟨?_, ?_, ?_⟩, kept_exact.move (Set.mem_univ _) (.item hc hheld) hu.exact, ?_⟩
  · rw [body_setBody_of_ne (hu.ne_of_mem hmem).symm, hu.body, List.length_set]
  · have hagree : AgreeOn Set.univ h (h.setBody c (.cell j n)) := agreeOn_setBody hlive hc rfl rfl
    exact hagree.chain (Set.mem_univ _) hu.chain
  · -- the cells are distinct, so the element is replaced in one place
    have hitem : (h.setBody c (.cell j n)).itemOf = Function.update h.itemOf c j := by
      funext b
      by_cases hbc : b = c
      · rw [hbc, itemOf, body_setBody hlive, Function.update_self]
        rfl
      · rw [itemOf, body_setBody_of_ne hbc, Function.update_of_ne hbc, itemOf]
    have hnodup := hu.chain.nodup
    rw [hitem, hnodup.map_update, if_pos hmem, hu.items]
    obtain ⟨hlt, rfl⟩ := List.getElem?_eq_some_iff.mp hk
    rw [hnodup.idxOf_getElem k hlt]
  · intro a ha
    have hrefs : (h.setBody c (.cell j n)).references (held + {i} + {x}) a
        = h.references (held + {j} + {x}) a := by
      refine references_setBody hc (by simp) ?_
      rw [coe_handles_cell, coe_handles_cell]
      abel
    rw [hrefs]
    exact hu.single a ha

/-- The header once more. -/
theorem reset (hu : h.Unshared held x head cs as) :
    (h.setBody x (.list { head, size := as.length })).Unshared held x head cs as := by
  have hbody : ∀ a, (h.setBody x (.list { head, size := as.length })).body a = h.body a := by
    intro a
    by_cases hax : a = x
    · rw [hax, body_setBody hu.live, hu.body]
    · rw [body_setBody_of_ne hax]
  refine hu.of_spares (.modify hbody) ?_ fun a _ => ?_
  · exact hu.exact.setBody .list hu.body rfl rfl (by decide) rfl
  · exact (references_setBody hu.body (by simp) rfl).le

/-- No cells, and the handle to the first one handed out. -/
theorem clear (hu : h.Unshared (held + {n}) x head cs as) (hn : h.kind n = .nothing) :
    (h.setBody x (.list { head := n, size := 0 })).Unshared (held + {head}) x n [] [] := by
  have hheld : held + {head} + {x} + {n} = held + {n} + {x} + {head} := by abel
  have hnx : n ≠ x := by
    rintro rfl
    simp [kind, hu.body, Body.kind] at hn
  refine ⟨⟨body_setBody hu.live _, .nil ?_, rfl⟩, ?_, ?_⟩
  · rw [kind, body_setBody_of_ne hnx, ← kind, hn]
  · exact hu.exact.setBody .list hu.body rfl rfl (by decide) (by simpa [Body.handles] using hheld)
  · intro a ha
    have hrefs : (h.setBody x (.list { head := n, size := 0 })).references (held + {head} + {x}) a
        = h.references (held + {n} + {x}) a :=
      references_setBody hu.body (by simp) (by simpa [Body.handles] using hheld)
    rw [hrefs]
    exact hu.single a (List.mem_cons.mpr (Or.inl (List.mem_singleton.mp ha)))

end Unshared

end SharedValues.Heap
