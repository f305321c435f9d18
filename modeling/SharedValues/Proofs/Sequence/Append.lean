import SharedValues.Proofs.Session.Run

/-!
# Appending to an exclusive chain

A value is put behind the last cell of a list only if every cell of its chain has one handle, the
link that leads to it.  Where counts are exact this is the same as that no other list, no register
and no element holds a part of the chain, so no other list sees the new cell.

## Main definitions

* `Heap.references` — the number of handles to a place, wherever they are.
* `Heap.Exclusive` — the cells that a list reaches have one handle each.
* `Heap.Appended` — a list has got one more element, and the other lists are what they were.

## Main results

* `Exact.lastExclusive_withCell` — the search fails exactly if some cell has another handle.
* `Exact.appended_opened`, `Exact.appended_extended` — what a success makes of the lists.
* `Session.append_exclusive` — the whole operation, in every run.
-/

namespace SharedValues

namespace Heap

variable {h g : Heap} {held : Multiset Addr} {a c n x value last item : Addr} {l m : ListHeader}
  {cs : List Addr}

/-- The number of handles to a place, in blocks and outside of the heap. -/
def references (h : Heap) (held : Multiset Addr) (a : Addr) : ℕ := (held + h.stored).count a

/-- **A list has got one more element** at its end, in a cell that was made for it, and the lists
that are left otherwise are what they were, cell by cell. -/
structure Appended (h g : Heap) (x value : Addr) (l : ListHeader) : Prop where
  /-- The chain is longer by a new cell with the value. -/
  chain : ∃ cs c head, h.Chain l.head cs ∧ ¬h.Live c ∧
    g.body x = .list { head, size := l.size + 1 } ∧ g.Chain head (cs ++ [c]) ∧
    g.itemOf c = value ∧ ∀ b ∈ cs, g.itemOf b = h.itemOf b
  /-- Another list has its header. -/
  headers : ∀ z m, z ≠ x → g.Live z → (g.body z = .list m ↔ h.body z = .list m)
  /-- Another list has its links and the cells among them. -/
  links : ∀ z m i, z ≠ x → g.body z = .list m → g.nth m.head i = h.nth m.head i ∧
    ∀ c, h.nth m.head i = some c → h.kind c = .cell → g.body c = h.body c

/-! ### The new cell -/

/-- A list in the heap with the new cell was there before. -/
theorem list_of_withCell (hx : (h.withCell value).body x = .list l) : h.body x = .list l := by
  rw [withCell, body_alloc] at hx
  split at hx
  · exact absurd hx (by simp)
  · rwa [body_nothing, body_retain] at hx

/-- The new cell changes no link. -/
theorem Exact.agreeOn_withCell (hh : h.Exact held) (value : Addr) :
    AgreeOn {a | h.Live a} h (h.withCell value) where
  kind_eq a ha := by rw [kind, kind, (body_withCell_of_live value ha).2]
  next_eq a ha := by rw [next?, next?, (body_withCell_of_live value ha).2]
  closed _ _ _ hn := hh.live_next hn

/-- The new cell is one more place where the value is stored. -/
theorem stored_withCell (h : Heap) (value : Addr) :
    (h.withCell value).stored = h.stored + {value} + {(h.retain value).nothing.1} := by
  rw [withCell, stored_alloc, stored_nothing, stored_retain, coe_handles_cell, add_assoc]

/-- The count of a block that is neither nothing nor a word. -/
theorem Exact.count_eq_references (hh : h.Exact held) (ha : h.kind a = .cell) :
    h.count a = h.references held a := by
  obtain ⟨b, hb⟩ := live_of_kind ha
  have hbody : b.body.kind = .cell := by rw [← body_of_block? hb]; exact ha
  have hnot : b.permanent = false :=
    hh.not_permanent hb (by rintro hb; simp [hb, Body.kind] at hbody)
      (by rintro w hb; simp [hb, Body.kind] at hbody)
  have hcount := hh.count_eq hb
  rw [hnot] at hcount
  simpa [count, hb, references] using hcount

/-- A cell that is stored has one handle in the heap with the new cell exactly if it had one
before: if it is the appended value itself, it has too many in either heap. -/
theorem Exact.sole_withCell (hh : h.Exact held) (hvalue : value ∈ held) (ha : h.kind a = .cell)
    (hp : ∃ p, a ∈ (h.body p).handles) :
    (h.withCell value).Sole a ↔ h.references held a = 1 := by
  have hlive := live_of_kind ha
  have hvalueLive := hh.live_of_held hvalue
  obtain ⟨hne, hbody⟩ := body_withCell_of_live value hlive
  have hkind : (h.withCell value).kind a = .cell := by rw [kind, hbody]; exact ha
  have hnothing : a ≠ (h.retain value).nothing.1 := by
    rintro rfl
    rw [hh.kind_withCell hvalueLive] at hkind
    exact absurd hkind (by decide)
  -- the new cell adds a handle to the value and one to nothing
  have hcount : (h.withCell value).count a
      = h.references held a + if a = value then 1 else 0 := by
    rw [(kept_exact.withCell hh hvalueLive).count_eq_references hkind, references, references,
      stored_withCell]
    simp only [Multiset.count_add, Multiset.count_singleton, if_neg hne, if_neg hnothing]
    omega
  obtain ⟨p, hp⟩ := hp
  have hstored := count_stored_pos hp
  have hsplit : h.references held a = held.count a + h.stored.count a := Multiset.count_add ..
  unfold Sole
  rw [hcount]
  split
  · next hav =>
    -- the value is held and stored, so it has two handles before
    subst hav
    have := Multiset.count_pos.mpr hvalue
    omega
  · omega

/-- **The search for the last cell** of a list whose links lead to cells fails exactly if some cell
has another handle, and then for that reason. -/
theorem Exact.lastExclusive_withCell (hh : h.Exact held) (hx : h.body x = .list l)
    (hvalue : value ∈ held) (hl : h.Linked l.head) (hne : h.kind l.head ≠ .nothing) :
    match (h.withCell value).lastExclusive l.head with
    | .ok _ => ∀ i a, h.nth l.head i = some a → h.kind a = .cell → h.references held a = 1
    | .error f => f = .refused .sharedCells ∧
      ∃ i a, h.nth l.head i = some a ∧ h.kind a = .cell ∧ h.references held a ≠ 1 := by
  have hg := kept_exact.withCell hh (hh.live_of_held hvalue)
  have hhead := hh.live_of_mem hx (List.mem_cons_self)
  have hagree := hh.agreeOn_withCell value
  have hnth := fun i => (hagree.nth_eq (a := l.head) hhead i).1
  have hkind : ∀ {i b}, h.nth l.head i = some b → (h.withCell value).kind b = h.kind b :=
    fun hb => hagree.kind_eq _ ((hagree.nth_eq hhead _).2 _ hb)
  have hxg : (h.withCell value).body x = .list l :=
    (body_withCell_of_live value (live_of_body hx (by simp))).2.trans hx
  -- what is reached and is not where the chain ends is a cell
  have hcell : ∀ {i b}, h.nth l.head i = some b → (i = 0 ∨ (h.withCell value).kind b ≠ .nothing) →
      h.kind b = .cell := by
    intro i b hb hi
    apply (hl i b hb).resolve_right
    intro hnothing
    rcases hi with rfl | hi
    · obtain rfl := Option.some.inj hb
      exact hne hnothing
    · exact hi ((hkind hb).trans hnothing)
  have hspec := lastExclusiveWithin_spec (h.withCell value)
    ((h.withCell value).blocks.size + 1) l.head
  unfold lastExclusive
  split at hspec
  · next last hlast =>
    obtain ⟨cs, hcs, hsole⟩ := hspec
    rw [hlast]
    intro i a ha hcella
    obtain ⟨hrest, -⟩ := hcs.nth ((hnth i).trans ha)
    refine (hh.sole_withCell hvalue hcella (exists_storer hx ha)).mp (hsole a ?_)
    obtain ⟨n, hn⟩ := exists_next?_of_kind ((hkind ha).trans hcella)
    obtain ⟨ds, hds, -⟩ := hrest.tail hn
    exact List.mem_of_mem_drop (hds ▸ List.mem_cons_self)
  · next r hr =>
    obtain ⟨rfl, i, b, hb, hshared, hi⟩ := hspec
    rw [hnth] at hb
    rw [hr]
    have hcellb := hcell hb hi
    exact ⟨rfl, i, b, hb, hcellb, fun hone =>
      hshared ((hh.sole_withCell hvalue hcellb (exists_storer hx hb)).mpr hone)⟩
  · obtain ⟨i, b, hb, hno, hi⟩ := hspec
    rw [hnth] at hb
    exact absurd ((hkind hb).trans (hcell hb hi)) hno
  · exact hspec.elim
  · exact absurd (hg.sole_lt hxg hspec) (Nat.not_succ_le_self _)

/-! ### What a success makes of the lists -/

/-- Other lists are what they were, if what lives has kept its content but for the list `x` and for
some cells that no other list meets. -/
theorem Exact.appended_of_body_eq {held' : Multiset Addr} {T : Set Addr} (hh : h.Exact held)
    (hg : g.Exact held') (hx : h.body x = .list l) (hxg : g.body x = .list m)
    (hbody : ∀ a, g.Live a → a ≠ x → a ∉ T → g.body a = (h.withCell value).body a)
    (hcell : ∀ a ∈ T, (h.withCell value).kind a = .cell ∧ (g.Live a → g.kind a = .cell))
    (hmeet : ∀ z k i a, z ≠ x → (h.withCell value).body z = .list k →
      (h.withCell value).nth k.head i = some a → a ∉ T)
    (hchain : ∃ cs c head, h.Chain l.head cs ∧ ¬h.Live c ∧
      g.body x = .list { head, size := l.size + 1 } ∧ g.Chain head (cs ++ [c]) ∧
      g.itemOf c = value ∧ ∀ b ∈ cs, g.itemOf b = h.itemOf b) :
    h.Appended g x value l := by
  have hlist : ∀ {f : Heap} {z : Addr} {k : ListHeader}, f.body z = .list k →
      f.kind z ≠ .cell := by
    intro f z k hz
    simp [kind, hz, Body.kind]
  have hback : ∀ {z : Addr} {k : ListHeader}, z ≠ x → g.body z = .list k →
      (h.withCell value).body z = .list k := by
    intro z k hzx hz
    have hzlive : g.Live z := live_of_body hz (by simp)
    refine (hbody z hzlive hzx ?_).symm.trans hz
    intro hmem
    exact hlist hz ((hcell z hmem).2 hzlive)
  refine ⟨hchain, fun z k hzx hzlive => ⟨fun hz => list_of_withCell (hback hzx hz), fun hz => ?_⟩,
    fun z k i hzx hz => ?_⟩
  · have hze := (body_withCell_of_live value (live_of_body hz (by simp))).2.trans hz
    exact (hbody z hzlive hzx fun hmem => hlist hze (hcell z hmem).1).trans hze
  -- the links of the other list avoid the changed cells, so they are the old ones
  have hze := hback hzx hz
  have hzh := list_of_withCell hze
  have hhead := hh.live_of_mem hzh List.mem_cons_self
  have hxe : (h.withCell value).body x = .list l :=
    (body_withCell_of_live value (live_of_body hx (by simp))).2.trans hx
  have hagree := hg.agreeOn_avoiding hxe hxg hbody
  have hheadS : k.head ∈ {a | g.Live a ∧ ∀ i b, (h.withCell value).nth a i = some b → b ∉ T} :=
    ⟨hg.live_of_mem hz List.mem_cons_self, fun i b hb => hmeet z k i b hzx hze hb⟩
  have hnew := (hh.agreeOn_withCell value).nth_eq (a := k.head) hhead i
  have hold := hagree.nth_eq hheadS i
  refine ⟨hold.1.trans hnew.1, ?_⟩
  intro c hc hkind
  have hcS := hold.2 c (hnew.1.trans hc)
  have hce := (body_withCell_of_live value (hnew.2 c hc)).2
  refine (hbody c hcS.1 ?_ (hcS.2 0 c rfl)).trans hce
  rintro rfl
  simp [kind, ← hce, hxe, Body.kind] at hkind

/-- The new cell as a chain of its own. -/
theorem Exact.chain_cellFor {held' : Multiset Addr} (hh : h.Exact held) (hg : g.Exact held')
    (hvalue : h.Live value) (hcell : g.body (h.cellFor value)
      = .cell value (h.retain value).nothing.1)
    (hkind : g.Live (h.retain value).nothing.1 → g.body (h.retain value).nothing.1
      = (h.withCell value).body (h.retain value).nothing.1) :
    g.Chain (h.cellFor value) [h.cellFor value] := by
  have hn : g.next? (h.cellFor value) = some (h.retain value).nothing.1 :=
    next?_eq_some_iff.mpr ⟨value, hcell⟩
  refine .cons hn (.nil ?_)
  rw [kind, hkind (hg.live_next hn)]
  exact hh.kind_withCell hvalue

/-- An empty list gets its only cell. -/
theorem Exact.appended_opened (hh : h.Exact held) (hx : h.body x = .list l) (hheld : x ∈ held)
    (hvalue : value ∈ held) (hempty : (h.withCell value).kind l.head = .nothing) :
    h.Appended ((h.withCell value).opened x l (h.cellFor value)) x value l := by
  have hlive := hh.live_of_held hvalue
  have he := kept_exact.withCell hh hlive
  obtain ⟨-, hxe⟩ := body_withCell_of_live value (live_of_body hx (by simp))
  rw [hx] at hxe
  set e := h.withCell value
  set c := h.cellFor value
  set e' := e.setBody x (.list { head := c, size := l.size + 1 })
  have he' : e'.Exact (held + {l.head} + (l.parsed : Multiset Addr)) := by
    refine he.setBody .list hxe rfl rfl (by decide) ?_
    rw [coe_handles_list, coe_handles_list, Multiset.coe_nil]
    abel
  have hg := (he'.releaseAll l.parsed).release
  have hthins : e'.Thins (e.opened x l c) :=
    (releaseAll_thins e' l.parsed).trans (releaseAll_thins _ [l.head])
  have hxg : (e.opened x l c).body x = .list { head := c, size := l.size + 1 } :=
    (hthins.body_eq (hg.live_of_held hheld)).trans (body_setBody (live_of_body hxe (by simp)) _)
  have hbody : ∀ a, (e.opened x l c).Live a → a ≠ x → (e.opened x l c).body a = e.body a :=
    fun a ha hax => (hthins.body_eq ha).trans (body_setBody_of_ne hax _)
  -- what is nothing or a cell is not the list
  have hnx : ∀ {a : Addr}, e.kind a = .nothing ∨ e.kind a = .cell → a ≠ x := by
    rintro a ha rfl
    simp [kind, hxe, Body.kind] at ha
  have hcx : c ≠ x := hnx (Or.inr (by rw [kind, body_withCell]; rfl))
  have hcell : (e.opened x l c).body c = .cell value (h.retain value).nothing.1 :=
    (hbody c (hg.live_of_mem hxg List.mem_cons_self) hcx).trans (body_withCell h value)
  refine hh.appended_of_body_eq (T := ∅) hg hx hxg (fun a ha hax _ => hbody a ha hax)
    (fun a ha => ha.elim) (fun _ _ _ _ _ _ _ => id) ⟨[], c, _, ?_, ?_, hxg, ?_, ?_, by simp⟩
  · exact (hh.agreeOn_withCell value).symm.chain (hh.live_of_mem hx List.mem_cons_self)
      (.nil hempty)
  · exact fun hc => (body_withCell_of_live value hc).1 rfl
  · exact hh.chain_cellFor hg hlive hcell fun hn =>
      hbody _ hn (hnx (Or.inl (hh.kind_withCell hlive)))
  · rw [itemOf, hcell]
    rfl

/-- A list gets a cell behind the last one. -/
theorem Exact.appended_extended (hh : h.Exact held) (hx : h.body x = .list l) (hheld : x ∈ held)
    (hvalue : value ∈ held) (hlast : (h.withCell value).lastExclusive l.head = .ok last)
    (hlastBody : (h.withCell value).body last = .cell item n) :
    h.Appended ((h.withCell value).extended x l last item n (h.cellFor value)) x value l := by
  have hlive := hh.live_of_held hvalue
  have he := kept_exact.withCell hh hlive
  obtain ⟨-, hxe⟩ := body_withCell_of_live value (live_of_body hx (by simp))
  rw [hx] at hxe
  have hcellBody := body_withCell h value
  obtain ⟨cs, hcs, -⟩ := chain_of_lastExclusive hlast
  have hcsh := (hh.agreeOn_withCell value).symm.chain (hh.live_of_mem hx List.mem_cons_self) hcs
  have hlastLive : h.Live last := live_of_kind (hcsh.kind_of_mem last (by simp))
  have hclast := (body_withCell_of_live value hlastLive).1.symm
  set e := h.withCell value
  set c := h.cellFor value
  have hclive : e.Live c := live_of_body hcellBody (by simp)
  have htwo : held + (([n, c] : List Addr) : Multiset Addr) = held + {c} + {n} := by
    rw [coe_pair]
    abel
  have hrelink : (e.relink last item c [n, c] x { head := l.head, size := l.size + 1 }).Exact
      (held + (l.parsed : Multiset Addr)) := he.relink hxe hheld hlastBody hclive htwo
  have hg := hrelink.releaseAll l.parsed
  have hthins := releaseAll_thins (e.relink last item c [n, c] x
    { head := l.head, size := l.size + 1 }) l.parsed
  set g := e.extended x l last item n c
  have hxg : g.body x = .list { head := l.head, size := l.size + 1 } :=
    (hrelink.body_releaseAll _ hheld).trans
      (body_relink_list (hrelink.live_of_held (Multiset.mem_add.mpr (Or.inl hheld))))
  have hlastCell : e.kind last = .cell := by rw [kind, hlastBody, Body.kind]
  have hnx : ∀ {a : Addr}, e.kind a = .cell → a ≠ x := by
    rintro a ha rfl
    simp [kind, hxe, Body.kind] at ha
  -- of the cells only the last one has been changed
  have hlastg : g.Live last → g.body last = .cell item c := fun ha =>
    body_relink_self hthins ha (hnx hlastCell) (live_of_kind hlastCell)
  have hbody : ∀ a, g.Live a → a ≠ x → a ∉ ({last} : Set Addr) → g.body a = e.body a :=
    fun a ha hax halast => body_relink_of_ne hthins ha hax halast
  have hchain := hg.chain_relink hxe (hg.live_of_mem hxg List.mem_cons_self) hcs hlastBody
    hcellBody (hh.kind_withCell hlive) hclast hthins
  have hcellLive : ∀ b ∈ cs ++ [last] ++ [c], g.Live b := fun b hb =>
    live_of_kind (hchain.kind_of_mem b hb)
  refine hh.appended_of_body_eq (T := {last}) hg hx hxg hbody ?_ ?_
    ⟨cs ++ [last], c, _, hcsh, ?_, hxg, hchain, ?_, ?_⟩
  · rintro a rfl
    refine ⟨hlastCell, ?_⟩
    intro ha
    rw [kind, hlastg ha, Body.kind]
  · -- no other list leads to the last cell
    rintro z k i a hzx hz hi rfl
    exact he.nth_ne_last hxe hlast hz hzx i hi
  · exact fun hc => (body_withCell_of_live value hc).1 rfl
  · rw [itemOf, hbody c (hcellLive c (by simp)) (hnx (by rw [kind, hcellBody, Body.kind])) hclast,
      hcellBody]
    rfl
  · intro b hb
    have hbe := (body_withCell_of_live value (live_of_kind (hcsh.kind_of_mem b hb))).2
    have hbg := hcellLive b (List.mem_append_left _ hb)
    rw [itemOf, itemOf, ← hbe]
    by_cases hblast : b = last
    · subst hblast
      rw [hlastg hbg, hlastBody]
      rfl
    · rw [hbody b hbg (hnx (hcs.kind_of_mem b hb)) hblast]

end Heap

/-! ### The operation -/

open Heap Operation

/-- The cells that a list reaches have one handle each. -/
def Heap.Exclusive (h : Heap) (held : Multiset Addr) (head : Addr) : Prop :=
  ∀ i c, h.nth head i = some c → h.kind c = .cell → h.references held c = 1

/-- How appending ends on a list whose links lead to cells. -/
theorem Heap.Exact.ensures_append_exclusive {s : Store} {held : Multiset Addr} {x value : Addr}
    {l : ListHeader} (hh : s.heap.Exact held) (hx : s.heap.body x = .list l) (hheld : x ∈ held)
    (hvalue : value ∈ held) (hl : s.heap.Linked l.head) :
    Ensures (l.append x value) s
      (fun _ t => s.heap.Exclusive held l.head ∧ (∃ ds, s.heap.Chain l.head ds) ∧
        s.heap.Appended t.heap x value l)
      fun f _ => f = .refused .sharedCells ∧ ¬s.heap.Exclusive held l.head := by
  have hhead := hh.live_of_mem hx List.mem_cons_self
  have hagree := hh.agreeOn_withCell value
  have hkind : (s.heap.withCell value).kind l.head = s.heap.kind l.head :=
    hagree.kind_eq _ hhead
  refine ensures_append (fun hempty => ?_) (fun f hne hf => ?_)
    fun last item n hlast hlastBody _ => ?_
  · -- the list is empty, and there is no cell that could be shared
    have hnothing : s.heap.kind l.head = .nothing := hkind.symm.trans hempty
    refine ⟨?_, ⟨[], .nil hnothing⟩, hh.appended_opened hx hheld hvalue hempty⟩
    intro i c hc hcell
    cases i with
    | zero =>
      obtain rfl := Option.some.inj hc
      exact absurd (hnothing.symm.trans hcell) (by decide)
    | succ i =>
      rw [nth_succ_of_kind (by rw [hnothing]; decide)] at hc
      exact absurd hc (by simp)
  · -- the search has failed
    have hsearch := hh.lastExclusive_withCell hx hvalue hl (hkind ▸ hne)
    rw [hf] at hsearch
    obtain ⟨rfl, i, c, hc, hcell, hshared⟩ := hsearch
    exact ⟨rfl, fun hall => hshared (hall i c hc hcell)⟩
  · -- the search has found the last cell
    obtain ⟨cs, hcs, -⟩ := chain_of_lastExclusive hlast
    have hne : (s.heap.withCell value).kind l.head ≠ .nothing := by
      intro hnothing
      have := hcs.unique (.nil hnothing)
      simp at this
    have hsearch := hh.lastExclusive_withCell hx hvalue hl (hkind ▸ hne)
    rw [hlast] at hsearch
    exact ⟨hsearch, ⟨_, hagree.symm.chain hhead hcs⟩,
      hh.appended_extended hx hheld hvalue hlast hlastBody⟩

/-- **Appending is exclusive.**  In every state that a run leads to, and for every value, appending
to a list whose links lead to cells ends.  It succeeds exactly if each of the cells has one handle,
which is then the one in the list or in the cell before; it refuses otherwise, and always if the
links run in a circle.  After a success the chain has one more cell at its end, with the value, and
every other list is what it was. -/
theorem Session.append_exclusive {cs : List Command} {s : Session} {name : String} {y : Expr}
    {x value : Addr} {h : Heap} {l : ListHeader} (hs : (Session.run cs {}).2 = s)
    (hname : s.value? name = some x) (hy : y.eval s.value? s.store.heap = (value, h))
    (hx : h.body x = .list l) (hl : h.Linked l.head) :
    let result := ((Change.append .checked).run x value).run { s.store with heap := h }
    (result.1 = .ok () ∨ result.1 = .error (.refused .sharedCells)) ∧
    (result.1 = .ok () ↔ h.Exclusive (s.held + {value}) l.head) ∧
    (result.1 = .ok () → h.Appended result.2.heap x value l) ∧
    ((∀ ds, ¬h.Chain l.head ds) → result.1 = .error (.refused .sharedCells)) := by
  subst hs
  set s := (Session.run cs {}).2
  have hexact : h.Exact (s.held + {value}) := by
    have henv : ∀ name a, s.value? name = some a → a ∈ s.held := fun _ _ => mem_held_of_value?
    have heval := kept_exact.eval henv y (Session.exact_run cs)
    rwa [hy] at heval
  have hheld : x ∈ s.held + {value} := Multiset.mem_add.mpr (Or.inl (mem_held_of_value? hname))
  have hvalue : value ∈ s.held + {value} := Multiset.mem_add.mpr (Or.inr (by simp))
  have hend := hexact.ensures_append_exclusive (s := { s.store with heap := h }) hx hheld hvalue hl
  -- on a list the change is the append of lists
  have hrun : ((Change.append .checked).run x value).run { s.store with heap := h }
      = (l.append x value).run { s.store with heap := h } := by
    have hlook : (look (·.body x)).run { s.store with heap := h }
        = (.ok (.list l), { s.store with heap := h }) := by
      rw [← hx]
      rfl
    rw [Change.run, run_bind, hlook]
    rfl
  unfold Ensures at hend
  rw [← hrun] at hend
  generalize ((Change.append .checked).run x value).run _ = result at hend ⊢
  obtain ⟨f | ⟨⟩, t⟩ := result
  · obtain ⟨rfl, hnot⟩ := hend
    exact ⟨Or.inr rfl, by simpa using hnot, by simp, fun _ => rfl⟩
  · obtain ⟨hall, ⟨ds, hds⟩, happended⟩ := hend
    exact ⟨Or.inl rfl, by simpa using hall, fun _ => happended, fun hno => absurd hds (hno ds)⟩

/-- A third word goes behind two words in a list of their own. -/
theorem Session.appended_to_words :
    let s := (Session.run [.build (.words ["a", "b"]) ⟨some "x", true⟩] {}).2
    let (value, h) := (Expr.text "c" false).eval s.value? s.store.heap
    let result := ((Change.append .checked).run 5 value).run { s.store with heap := h }
    h.Appended result.2.heap 5 value { head := 4, size := 2 } := by
  intro s
  have hname : s.value? "x" = some 5 := by decide +kernel
  set h := ((Expr.text "c" false).eval s.value? s.store.heap).2
  have hlinks : h.next? 4 = some 3 ∧ h.next? 3 = some 2 ∧ h.kind 2 = .nothing := by decide +kernel
  have hchain : h.Chain 4 [4, 3] := .cons hlinks.1 (.cons hlinks.2.1 (.nil hlinks.2.2))
  have hx : h.body 5 = .list { head := 4, size := 2 } := by decide +kernel
  exact (Session.append_exclusive (y := .text "c" false) rfl hname rfl hx hchain.linked).2.2.1
    (by decide +kernel)

end SharedValues
