import SharedValues.Proofs.Chain.Exclusive

/-!
# Sizes

A list keeps the number of its elements.  While no cell is linked anew, every move keeps the sizes
of all lists right: new lists are made with the right size, cells are put in front of chains that
keep theirs, and a cell goes behind a chain only where nobody else sees it.

When the first cell of a list is linked to another chain, the list gets its new size, but another
list whose links lead to that cell does not.

## Main definitions

* `Heap.MeasuredBut` — sizes are right but for lists that lead to the first cell of a certain list.
* `Heap.CountedThrough` — those lists have the size that makes up for it.

## Main results

* `kept_measured` — sizes stay right under all moves that link no cell anew.
* `Exact.measuredBut_tail` — what linking the first cell anew does to sizes.
* `MeasuredBut.measured` — when it does no harm.
-/

namespace SharedValues

namespace Heap

variable {h g : Heap} {held held' : Multiset Addr} {a c item m n x y : Addr} {l r : ListHeader}
  {as cs ds : List Addr}

/-! ### Moves that link no cell anew -/

/-- Sizes are right in an agreeing heap if those of its lists were right before. -/
theorem measured_of_agreeOn {S : Set Addr} (hagree : AgreeOn S h g)
    (hlist : ∀ x l, g.body x = .list l → l.head ∈ S ∧ h.Measures l.head l.size) : g.Measured :=
  fun x l hx => hagree.measures (hlist x l hx).1 (hlist x l hx).2

theorem Measured.congr (hm : h.Measured) (hbody : ∀ a, g.body a = h.body a) : g.Measured :=
  measured_of_agreeOn (agreeOn_univ hbody) fun x l hx =>
    ⟨Set.mem_univ _, hm x l ((hbody x).symm.trans hx)⟩

theorem Measured.thins (hm : h.Measured) (hthins : h.Thins g) (hg : g.Exact held) : g.Measured := by
  apply measured_of_agreeOn (hthins.agreeOn hg)
  intro x l hx
  have hlive := live_of_body hx (by simp)
  exact ⟨hg.live_of_mem hx List.mem_cons_self, hm x l ((hthins.body_eq hlive).symm.trans hx)⟩

/-- A new block that is no list with a wrong size. -/
theorem Measured.alloc (hm : h.Measured) (hh : h.Exact held) {body : Body} {permanent : Bool}
    (hlist : ∀ l, body = .list l → h.Live l.head ∧ h.Measures l.head l.size) :
    (h.alloc body permanent).2.Measured := by
  apply measured_of_agreeOn (hh.agreeOn_alloc body permanent)
  intro x l hx
  rw [body_alloc] at hx
  split at hx
  · exact ⟨(hlist l hx).1.ne_size, (hlist l hx).2⟩
  · -- an older list leads to older blocks only
    exact ⟨(hh.live_of_mem hx List.mem_cons_self).ne_size, hm x l hx⟩

theorem Measured.ensureTruth (hm : h.Measured) (hh : h.Exact held) (value : Bool) :
    (h.ensureTruth value).2.Measured := by
  unfold Heap.ensureTruth
  split
  · exact hm
  · set h' := (h.alloc (.word (.text (if value then "true" else "false") false)) true).2
    have hword : h'.Measured := hm.alloc hh (by simp)
    apply hword.congr
    intro a
    cases value <;> rfl

/-- Another content of the same kind with the same next link. -/
theorem Measured.setBody (hm : h.Measured) {old new : Body} (hold : h.body a = old)
    (hnot : old ≠ .nothing) (hkind : new.kind = old.kind)
    (hnext : new.cell?.map Prod.snd = old.cell?.map Prod.snd)
    (hlist : ∀ l, new = .list l → h.Measures l.head l.size) : (h.setBody a new).Measured := by
  have ha := live_of_body hold hnot
  refine measured_of_agreeOn (agreeOn_setBody ha hold hkind hnext) fun x l hx =>
    ⟨Set.mem_univ _, ?_⟩
  by_cases hxa : x = a
  · rw [hxa, body_setBody ha] at hx
    exact hlist l hx
  · exact hm x l ((body_setBody_of_ne hxa new).symm.trans hx)

/-- A new cell in front of a list. -/
theorem Measured.prepend (hm : h.Measured) (hh : h.Exact held) (hx : h.body x = .list l) :
    ((h.alloc (.cell item l.head)).2.setBody x
      (.list { head := h.blocks.size, size := l.size + 1 })).Measured := by
  have hm' : (h.alloc (.cell item l.head)).2.Measured := hm.alloc hh (by simp)
  have hx' : (h.alloc (.cell item l.head)).2.body x = .list l := by
    rw [body_alloc, if_neg (live_of_body hx (by simp)).ne_size, hx]
  refine hm'.setBody hx' (by simp) rfl rfl ?_
  rintro k hk
  obtain rfl := Body.list.inj hk
  refine (hm' x l hx').cons (next?_eq_some_iff.mpr ⟨item, ?_⟩)
  rw [body_alloc, if_pos rfl]

/-! ### A cell behind an exclusive chain -/

/-- Links that do not lead to the changed cell keep their measure, if all that lives, but for that
cell and for the list `x`, has kept its content. -/
theorem Measured.measures_avoiding (hm : h.Measured) (hg : g.Exact held) (hx : h.body x = .list l)
    (hxg : g.body x = .list r)
    (hbody : ∀ a, g.Live a → a ≠ x → a ∉ ({c} : Set Addr) → g.body a = h.body a)
    (hcell : g.Live c → g.kind c = .cell) {z : Addr} {k : ListHeader} (hzx : z ≠ x)
    (hz : g.body z = .list k) (havoid : ∀ i, h.nth k.head i ≠ some c) :
    g.Measures k.head k.size := by
  have hzlive := live_of_body hz (by simp)
  have hzc : z ≠ c := by
    rintro rfl
    have hkind := hcell hzlive
    simp [kind, hz, Body.kind] at hkind
  have hzh : h.body z = .list k := (hbody z hzlive hzx hzc).symm.trans hz
  refine (hg.agreeOn_avoiding hx hxg hbody).measures ?_ (hm z k hzh)
  refine ⟨hg.live_of_mem hz List.mem_cons_self, ?_⟩
  rintro i b hb rfl
  exact havoid i hb

/-- A cell that nobody else refers to goes behind a chain that nobody else holds a part of. -/
theorem Measured.extend {last i e : Addr} (hm : h.Measured) (hh : h.Exact (held + {c}))
    (hg : (h.relink last item c [n, c] x { head := l.head, size := l.size + 1 }).Exact held')
    (hx : h.body x = .list l) (hheld : x ∈ held') (hlast : h.lastExclusive l.head = .ok last)
    (hlastBody : h.body last = .cell item n) (hc : h.body c = .cell i e)
    (he : h.kind e = .nothing) :
    (h.relink last item c [n, c] x { head := l.head, size := l.size + 1 }).Measured := by
  obtain ⟨cs, hcs, hsole⟩ := chain_of_lastExclusive hlast
  have hsize := (hm x l hx).2 _ hcs
  set g := h.relink last item c [n, c] x { head := l.head, size := l.size + 1 }
  have hxg : g.body x = _ := body_relink_list (hg.live_of_held hheld)
  have hlastx : last ≠ x := by
    rintro rfl
    simp [hx] at hlastBody
  have hlastg : g.Live last → g.body last = .cell item c := fun ha =>
    body_relink_self (.refl _) ha hlastx (live_of_body hlastBody (by simp))
  have hbody : ∀ a, g.Live a → a ≠ x → a ∉ ({last} : Set Addr) → g.body a = h.body a :=
    fun a ha hax halast => body_relink_of_ne (.refl _) ha hax halast
  -- the new cell is held, and the last one is not
  have hclast : c ≠ last := by
    rintro rfl
    obtain ⟨i, hi⟩ := List.mem_iff_getElem?.mp
      (List.mem_append_right cs (List.mem_singleton_self c))
    obtain ⟨p, hp⟩ := exists_storer hx (hcs.nth_of_getElem? hi)
    exact hh.not_held (hsole c (by simp)) hp (by simp)
  intro z k hz
  have hzlive := live_of_body hz (by simp)
  by_cases hzx : z = x
  · subst hzx
    obtain rfl := Body.list.inj (hxg.symm.trans hz)
    have hchain := hg.chain_relink hx (hg.live_of_mem hxg List.mem_cons_self) hcs hlastBody hc he
      hclast (.refl _)
    rw [hsize]
    simpa using hchain.measures
  · have hzlast : z ≠ last := by
      rintro rfl
      have hlist := hlastg hzlive
      simp [hz] at hlist
    have hzh := (hbody z hzlive hzx hzlast).symm.trans hz
    refine hm.measures_avoiding hg hx hxg hbody ?_ hzx hz
      (hh.nth_ne_last hx hlast hzh hzx)
    intro ha
    rw [kind, hlastg ha, Body.kind]

/-! ### Another chain behind the first cell -/

/-- The sizes of all lists are right, but for lists that lead to the first cell of the list `x`;
the one of `x` itself is right too. -/
structure MeasuredBut (h : Heap) (x : Addr) : Prop where
  /-- The list itself is measured. -/
  self : ∀ l, h.body x = .list l → h.Measures l.head l.size
  /-- The links of every list lead to cells. -/
  linked : ∀ y m, h.body y = .list m → h.Linked m.head
  /-- Another list is measured, or leads to the first cell. -/
  size_eq : ∀ y m cs, h.body y = .list m → h.Chain m.head cs →
    m.size = cs.length ∨ ∃ l i, h.body x = .list l ∧ h.nth m.head i = some l.head

/-- **Every list counts through the first cell of a list**: after `i` steps to that cell it has the
size of that list, and `i` elements more. -/
def CountedThrough (h : Heap) (x : Addr) : Prop :=
  ∀ l cs, h.body x = .list l → h.Chain l.head cs →
    ∀ y m i, h.body y = .list m → h.nth m.head i = some l.head → m.size = i + l.size

/-- Sizes are right if every list counts through the only cell where they can be wrong. -/
theorem MeasuredBut.measured (hm : h.MeasuredBut x) (hx : h.CountedThrough x) : h.Measured := by
  refine fun y m hy => ⟨hm.linked y m hy, fun cs hcs => ?_⟩
  rcases hm.size_eq y m cs hy hcs with hsize | ⟨l, i, hl, hi⟩
  · exact hsize
  · -- the chain from the first cell of `x` on is a rest of the chain
    obtain ⟨hrest, hle⟩ := hcs.nth hi
    rw [hx l _ hl hrest y m i hy hi, (hm.self l hl).2 _ hrest, List.length_drop]
    omega

theorem MeasuredBut.thins (hm : h.MeasuredBut x) (hthins : h.Thins g) (hg : g.Exact held)
    (hx : g.Live x) : g.MeasuredBut x := by
  have hagree := hthins.agreeOn hg
  have hold : ∀ {y m}, g.body y = .list m → h.body y = .list m := fun hy =>
    (hthins.body_eq (live_of_body hy (by simp))).symm.trans hy
  have hhead : ∀ {y m}, g.body y = .list m → g.Live m.head := fun hy =>
    hg.live_of_mem hy List.mem_cons_self
  refine ⟨fun l hl => hagree.measures (hhead hl) (hm.self l (hold hl)),
    fun y m hy => hagree.linked (hhead hy) (hm.linked y m (hold hy)), ?_⟩
  intro y m cs hy hcs
  apply (hm.size_eq y m cs (hold hy) (hagree.symm.chain (hhead hy) hcs)).imp_right
  rintro ⟨l, i, hl, hi⟩
  exact ⟨l, i, (hthins.body_eq hx).trans hl, (hagree.nth_eq (hhead hy) i).1.trans hi⟩

section Relink

variable {header : ListHeader}

/-- A cell linked anew is still a cell, and the list with the new header a list. -/
theorem Exact.kind_relink (hg : (h.relink c item m as x header).Exact held)
    (hx : h.body x = .list l) (hheld : x ∈ held) (hc : h.body c = .cell item n)
    (ha : (h.relink c item m as x header).Live a) :
    (h.relink c item m as x header).kind a = h.kind a := by
  by_cases hax : a = x
  · rw [hax, kind, kind, body_relink_list (hg.live_of_held hheld), hx, Body.kind, Body.kind]
  by_cases hac : a = c
  · subst hac
    rw [kind, body_relink_self (.refl _) ha hax (live_of_body hc (by simp)), Body.kind, kind, hc,
      Body.kind]
  · rw [kind, kind, body_relink_of_ne (.refl _) ha hax hac]

/-- The other links are what they were. -/
theorem Exact.next?_relink (hg : (h.relink c item m as x header).Exact held)
    (hx : h.body x = .list l) (hheld : x ∈ held) (ha : (h.relink c item m as x header).Live a)
    (hac : a ≠ c) : (h.relink c item m as x header).next? a = h.next? a := by
  by_cases hax : a = x
  · rw [hax, next?, next?, body_relink_list (hg.live_of_held hheld), hx]
    rfl
  · rw [next?, next?, body_relink_of_ne (.refl _) ha hax hac]

/-- The new link. -/
theorem next?_relink_self (hx : h.body x = .list l) (hc : h.body c = .cell item n)
    (ha : (h.relink c item m as x header).Live c) :
    (h.relink c item m as x header).next? c = some m := by
  refine next?_eq_some_iff.mpr ⟨item, body_relink_self (.refl _) ha ?_ (live_of_body hc (by simp))⟩
  rintro rfl
  simp [hx] at hc

/-- Another list was there before. -/
theorem list_of_relink (hx : h.body x = .list l) (hc : h.body c = .cell item n) {z : Addr}
    {k : ListHeader} (hzx : z ≠ x) (hz : (h.relink c item m as x header).body z = .list k) :
    h.body z = .list k := by
  have hzlive := live_of_body hz (by simp)
  refine (body_relink_of_ne (.refl _) hzlive hzx ?_).symm.trans hz
  rintro rfl
  have hkind := kind_of_next? (next?_relink_self hx hc hzlive)
  rw [kind, hz] at hkind
  exact absurd hkind (by simp [Body.kind])

/-- The new links lead to cells if the links did that the new one leads to. -/
theorem Exact.linked_relink (hg : (h.relink c item m as x header).Exact held)
    (hx : h.body x = .list l) (hheld : x ∈ held) (hc : h.body c = .cell item n)
    (hm : h.Linked m) (ha : (h.relink c item m as x header).Live a) (hl : h.Linked a) :
    (h.relink c item m as x header).Linked a := by
  set g := h.relink c item m as x header
  -- whatever is reached in the end was linked to cells in the beginning
  have hstep : ∀ i b, g.nth a i = some b → g.Live b ∧ h.Linked b := by
    intro i
    induction i with
    | zero =>
      intro b hb
      obtain rfl := Option.some.inj hb
      exact ⟨ha, hl⟩
    | succ i ih =>
      intro b hb
      obtain ⟨d, hd, hdb⟩ := exists_nth_of_succ hb
      obtain ⟨hdlive, hdl⟩ := ih d hd
      refine ⟨hg.live_next hdb, ?_⟩
      by_cases hdc : d = c
      · -- the link of the changed cell leads to `m`
        subst hdc
        obtain rfl := Option.some.inj ((next?_relink_self hx hc hdlive).symm.trans hdb)
        exact hm
      · exact hdl.next ((hg.next?_relink hx hheld hdlive hdc).symm.trans hdb)
  intro i b hb
  rw [hg.kind_relink hx hheld hc (hstep i b hb).1]
  exact (hstep i b hb).2.kind

/-- A chain that does not lead through the cell linked anew was there before. -/
theorem Exact.chain_of_relink (hg : (h.relink c item m as x header).Exact held)
    (hx : h.body x = .list l) (hheld : x ∈ held) (hc : h.body c = .cell item n)
    (hcs : (h.relink c item m as x header).Chain a cs)
    (ha : (h.relink c item m as x header).Live a) (hmem : c ∉ cs) : h.Chain a cs := by
  induction hcs with
  | nil hk => exact .nil ((hg.kind_relink hx hheld hc ha).symm.trans hk)
  | cons hn _ ih =>
    rw [List.mem_cons, not_or] at hmem
    exact .cons ((hg.next?_relink hx hheld ha (Ne.symm hmem.1)).symm.trans hn)
      (ih (hg.live_next hn) hmem.2)

end Relink

/-- The size of a list whose first cell has been linked to the chain of a list. -/
theorem Measured.measures_tail (hm : h.Measured)
    (hg : (h.relink l.head item r.head as x { head := l.head, size := r.size + 1 }).Exact held)
    (hx : h.body x = .list l) (hheld : x ∈ held) (hy : h.body y = .list r)
    (hc : h.body l.head = .cell item n) :
    (h.relink l.head item r.head as x { head := l.head, size := r.size + 1 }).Measures l.head
      (r.size + 1) := by
  have hlive := hg.live_of_mem (body_relink_list (hg.live_of_held hheld)) List.mem_cons_self
  have hn := next?_relink_self hx hc hlive
  refine ⟨hg.linked_relink hx hheld hc (hm y r hy).1 hlive (hm x l hx).1, ?_⟩
  intro ds hds
  -- what follows the first cell does not lead through it again
  obtain ⟨es, rfl, hes⟩ := hds.tail hn
  rw [List.length_cons, (hm y r hy).2 es (hg.chain_of_relink hx hheld hc hes (hg.live_next hn)
    (List.nodup_cons.mp hds.nodup).1)]

/-- **What linking the first cell anew does to sizes.** -/
theorem Measured.tail (hm : h.Measured)
    (hg : (h.relink l.head item r.head as x { head := l.head, size := r.size + 1 }).Exact held)
    (hx : h.body x = .list l) (hheld : x ∈ held) (hy : h.body y = .list r)
    (hc : h.body l.head = .cell item n) :
    (h.relink l.head item r.head as x { head := l.head, size := r.size + 1 }).MeasuredBut x := by
  have hself := hm.measures_tail hg hx hheld hy hc
  set g := h.relink l.head item r.head as x { head := l.head, size := r.size + 1 }
  have hxg : g.body x = _ := body_relink_list (hg.live_of_held hheld)
  have hhead : ∀ {z k}, g.body z = .list k → g.Live k.head := fun hz =>
    hg.live_of_mem hz List.mem_cons_self
  have hold : ∀ {z k}, z ≠ x → g.body z = .list k → h.body z = .list k := list_of_relink hx hc
  refine ⟨fun k hk => ?_, fun z k hz => ?_, fun z k ds hz hds => ?_⟩
  · obtain rfl := Body.list.inj (hxg.symm.trans hk)
    exact hself
  · by_cases hzx : z = x
    · obtain rfl := Body.list.inj (hxg.symm.trans (hzx ▸ hz))
      exact hself.1
    · exact hg.linked_relink hx hheld hc (hm y r hy).1 (hhead hz) (hm z k (hold hzx hz)).1
  · -- a chain through the first cell is the exception, any other is an old one
    by_cases hmem : l.head ∈ ds
    · obtain ⟨i, hi⟩ := List.mem_iff_getElem?.mp hmem
      exact Or.inr ⟨_, i, hxg, hds.nth_of_getElem? hi⟩
    by_cases hzx : z = x
    · obtain rfl := Body.list.inj (hxg.symm.trans (hzx ▸ hz))
      exact Or.inl (hself.2 ds hds)
    · exact Or.inl ((hm z k (hold hzx hz)).2 ds
        (hg.chain_of_relink hx hheld hc hds (hhead hz) hmem))

/-- A list whose only handle to its first cell is its own can have that cell linked to itself. -/
theorem Measured.loop (hm : h.Measured) (hh : h.Exact held')
    (hg : (h.relink l.head item l.head as x { head := l.head, size := l.size + 1 }).Exact held)
    (hx : h.body x = .list l) (hheld : x ∈ held) (hc : h.body l.head = .cell item n)
    (hsole : h.Sole l.head) :
    (h.relink l.head item l.head as x { head := l.head, size := l.size + 1 }).Measured := by
  have hbut := hm.tail hg hx hheld hx hc
  have hxg := body_relink_list (hg.live_of_held hheld)
  intro z k hz
  by_cases hzx : z = x
  · subst hzx
    exact hbut.self k hz
  refine hm.measures_avoiding hg hx hxg (fun a ha hax hac => body_relink_of_ne (.refl _) ha hax hac)
    (fun ha => kind_of_next? (next?_relink_self hx hc ha)) hzx hz fun i hi => ?_
  -- another list that leads to the first cell would be the same list
  refine hzx (hh.nth_unique hx (list_of_relink hx hc hzx hz) (i := 0) rfl hi
    ?_).1.symm
  intro k hk b hb
  obtain rfl : k = 0 := Nat.le_zero.mp hk
  exact Option.some.inj hb ▸ hsole

end Heap

/-! ### All moves -/

open Heap in
/-- **Sizes stay right** under all moves that link no cell of a shared chain anew. -/
theorem kept_measured :
    Kept {a | a ≠ .link ∧ a ≠ .tail} fun held h => h.Exact held ∧ h.Measured := by
  refine ⟨by simp, And.left, ?_⟩
  rintro a c d ha hmove ⟨hexact, hm⟩
  have hend := hmove.exact hexact
  refine ⟨hend, ?_⟩
  cases hmove with
  | retain _ => exact hm.congr (body_retain _ _)
  | releaseAll as => exact hm.thins (releaseAll_thins _ _) hend
  | nothing => exact hm.thins (.ensureNothing _) hend
  | truth value => exact hm.ensureTruth hexact value
  | usage => exact hm.congr fun _ => rfl
  | freeze a => exact hm.congr (body_freeze _ _)
  | alloc hfresh =>
    refine hm.alloc hexact fun l hl => ⟨?_, hfresh.sized hl hm⟩
    exact hexact.live_of_held (by simp [hl, Body.handles])
  | slots hx _ => exact hm.setBody hx (by simp) rfl rfl (by simp)
  | children hx _ => exact hm.setBody hx (by simp) rfl rfl (by simp)
  | item hx _ => exact hm.setBody hx (by simp) rfl rfl (by simp)
  -- the two moves left out
  | link => exact absurd rfl ha.1
  | header hx hsized _ =>
    refine hm.setBody hx (by simp) rfl rfl ?_
    rintro l hl
    obtain rfl := Body.list.inj hl
    exact hsized hm
  | prepend hx => exact hm.prepend hexact hx
  | recount hx hsized =>
    refine hm.setBody hx (by simp) rfl rfl ?_
    rintro l hl
    obtain rfl := Body.list.inj hl
    exact hsized hm
  | parse hx _ =>
    refine hm.setBody hx (by simp) rfl rfl ?_
    rintro l hl
    obtain rfl := Body.list.inj hl
    have hsize := hm _ _ hx
    exact hsize
  | extend hx hheld hlast hlastBody hc he _ =>
    exact hm.extend hexact hend hx (Multiset.mem_add.mpr (Or.inl hheld)) hlast hlastBody hc he
  | tail hx hheld hy hc hact =>
    -- a list appended to itself, whose first cell is linked to itself
    obtain ⟨rfl, rfl, hcount⟩ := hact.resolve_left ha.2
    obtain rfl := Body.list.inj (hx.symm.trans hy)
    exact hm.loop hexact hend hx (Multiset.mem_add.mpr (Or.inl hheld)) hc (Nat.le_of_eq hcount)

end SharedValues
