import SharedValues.Proofs.Chain.Sizes

/-!
# Elements

The elements of a list are found in cells that other lists may share, so they can change without
the list being touched.  While values are only made and given up, whatever is left has the content
that it had.  A list that is changed loses its parsed form, and the changes that leave all cells
alone, or put a cell where no other list leads, leave the elements of the other lists alone.

## Main definitions

* `Heap.Spares h h'` — `h'` is what becomes of `h` while values are made and given up.
* `Heap.Coherent` — the lists with a parsed form have the elements that were noted.

## Main results

* `Exact.found_elements` — elements are a matter of the cells that live.
* `Move.list_of` — what a move that rewrites no shared cell does to lists with a parsed form.
* `kept_spares`, `kept_coherent` — what sequences of moves keep.
* `Move.exists_stamped` — a parsed form comes about in one way only.
-/

namespace SharedValues

namespace Heap

variable {h g h' : Heap} {held held' : Multiset Addr} {a b c item m n x y : Addr}
  {l r : ListHeader}

/-! ### The elements of a list -/

theorem cell?_eq_some_iff {body : Body} : body.cell? = some (item, n) ↔ body = .cell item n := by
  cases body <;> simp [Body.cell?]

/-- A walk finds what the links lead to. -/
theorem found_chain {k : ℕ} (hcell : ∀ i c, h.nth a i = some c →
    (g.body c).cell? = (h.body c).cell?) : (g.chain k a).found = (h.chain k a).found := by
  -- where there is no cell, no walk finds anything, whatever else may be there
  have hno : ∀ {f : Heap} {a : Addr} (k : ℕ), (f.body a).cell? = none →
      (f.chain k a).found = [] := by
    intro f a k hnone
    cases k with
    | zero => rfl
    | succ k =>
      rw [chain]
      cases hbody : f.body a <;> simp [hbody, Body.cell?] at hnone ⊢
  induction k generalizing a with
  | zero => rfl
  | succ k ih =>
    have ha := hcell 0 a rfl
    -- the two heaps have the same cell here or none, so both walks go on or both end
    cases hbody : (h.body a).cell? with
    | none => rw [hno _ hbody, hno _ (ha.trans hbody)]
    | some p =>
      obtain ⟨item, next⟩ := p
      have hn : h.next? a = some next := by rw [next?, hbody, Option.map_some]
      have hrest := ih fun i c hc => hcell (i + 1) c (by rw [nth_next hn, hc])
      rw [chain, chain, cell?_eq_some_iff.mp hbody, cell?_eq_some_iff.mp (ha.trans hbody)]
      simp only [hrest]

/-- The elements of a list are a matter of the cells that its links lead to. -/
theorem found_elements (hx : h.body x = .list l) (hgx : g.body x = .list r)
    (hhead : r.head = l.head) (hsize : r.size = l.size)
    (hcell : ∀ i c, h.nth l.head i = some c → (g.body c).cell? = (h.body c).cell?) :
    (g.elements x).found = (h.elements x).found := by
  rw [elements, elements, hx, hgx]
  simp only [cells, hhead, hsize, found_chain hcell]
  apply List.map_congr_left
  intro c hc
  obtain ⟨i, hi⟩ := List.mem_iff_getElem?.mp hc
  rw [itemOf, itemOf, hcell i c (nth_of_chain_found hi).1]

/-- What a live block leads to is live. -/
theorem Exact.live_nth (hh : h.Exact held) (ha : h.Live a) {i : ℕ} (hb : h.nth a i = some b) :
    h.Live b := by
  cases i with
  | zero => exact Option.some.inj hb ▸ ha
  | succ i =>
    obtain ⟨c, -, hn⟩ := exists_nth_of_succ hb
    exact hh.live_next hn

/-- **The elements of a list are a matter of the cells that live.** -/
theorem Exact.found_elements (hh : h.Exact held) (hx : h.body x = .list l)
    (hgx : g.body x = .list r) (hhead : r.head = l.head) (hsize : r.size = l.size)
    (hcell : ∀ c, h.Live c → (g.body c).cell? = (h.body c).cell?) :
    (g.elements x).found = (h.elements x).found := by
  have hlive := hh.live_of_mem hx List.mem_cons_self
  exact Heap.found_elements hx hgx hhead hsize fun i c hc => hcell c (hh.live_nth hlive hc)

/-- A new content is a cell where the old one was, and the same cell. -/
theorem cell?_setBody {old new : Body} (hold : h.body a = old) (hnot : old ≠ .nothing)
    (hcell : new.cell? = old.cell?) (b : Addr) :
    ((h.setBody a new).body b).cell? = (h.body b).cell? := by
  by_cases hba : b = a
  · rw [hba, body_setBody (live_of_body hold hnot), hold, hcell]
  · rw [body_setBody_of_ne hba]

/-! ### Values made and given up -/

/-- `h'` is what becomes of `h` while values are made and given up: what is left of the old blocks
has the content that it had, and new lists have no parsed form. -/
structure Spares (h h' : Heap) : Prop where
  /-- No address is given out twice. -/
  size_le : h.blocks.size ≤ h'.blocks.size
  /-- What is left was there. -/
  live : ∀ {a}, a < h.blocks.size → h'.Live a → h.Live a
  /-- What is left has the content that it had. -/
  body_eq : ∀ {a}, a < h.blocks.size → h'.Live a → h'.body a = h.body a
  /-- A new list has no parsed form. -/
  fresh : ∀ {a l}, h.blocks.size ≤ a → h'.body a = .list l → l.stamp = 0

namespace Spares

/-- A list in the end whose address is in use in the beginning was there. -/
theorem body_of_list (hh : h.Spares h') (ha : a < h.blocks.size) (hl : h'.body a = .list l) :
    h.body a = .list l :=
  (hh.body_eq ha (live_of_body hl (by simp))).symm.trans hl

/-- A list in the end with a parsed form was there in the beginning. -/
theorem body_of_stamped (hh : h.Spares h') (hl : h'.body a = .list l) (hstamp : l.stamp ≠ 0) :
    h.body a = .list l :=
  hh.body_of_list (Nat.lt_of_not_le fun hle => hstamp (hh.fresh hle hl)) hl

/-- What is left of the old blocks has the links that it had, and none of them leads to new ones. -/
theorem agreeOn (hh : h.Spares h') (hexact : h.Exact held) (hexact' : h'.Exact held') :
    AgreeOn {a | a < h.blocks.size ∧ h'.Live a} h h' where
  kind_eq a ha := by rw [kind, kind, hh.body_eq ha.1 ha.2]
  next_eq a ha := by rw [next?, next?, hh.body_eq ha.1 ha.2]
  closed a ha n hn := by
    have hn' : h'.next? a = some n := by rwa [next?, hh.body_eq ha.1 ha.2]
    exact ⟨(hexact.live_next hn).lt_size, hexact'.live_next hn'⟩

/-- What is left of a list has the elements that it had. -/
theorem found_elements (hh : h.Spares h') (hexact : h.Exact held) (hexact' : h'.Exact held')
    (hx : x < h.blocks.size) (hl : h'.body x = .list l) :
    (h'.elements x).found = (h.elements x).found := by
  have hold := hh.body_of_list hx hl
  refine Heap.found_elements hold hl rfl rfl fun i c hc => ?_
  have hhead : l.head < h.blocks.size ∧ h'.Live l.head :=
    ⟨(hexact.live_of_mem hold List.mem_cons_self).lt_size, hexact'.live_of_mem hl List.mem_cons_self⟩
  obtain ⟨hlt, hlive⟩ := ((hh.agreeOn hexact hexact').nth_eq hhead i).2 c hc
  rw [hh.body_eq hlt hlive]

/-! ### Elementary changes -/

/-- The same contents at the same addresses. -/
theorem of_body (hsize : h'.blocks.size = h.blocks.size) (hlive : ∀ {a}, h'.Live a → h.Live a)
    (hbody : ∀ a, h'.body a = h.body a) : h.Spares h' where
  size_le := hsize.ge
  live _ := hlive
  body_eq _ _ := hbody _
  fresh ha hl := by
    rw [hbody, body_of_size_le ha] at hl
    exact absurd hl (by simp)

theorem refl (h : Heap) : h.Spares h := of_body rfl id fun _ => rfl

theorem trans (hh : h.Spares g) (hg : g.Spares h') : h.Spares h' where
  size_le := hh.size_le.trans hg.size_le
  live ha hlive := hh.live ha (hg.live (ha.trans_le hh.size_le) hlive)
  body_eq ha hlive :=
    have hlt := ha.trans_le hh.size_le
    (hg.body_eq hlt hlive).trans (hh.body_eq ha (hg.live hlt hlive))
  fresh {a l} ha hl := by
    rcases Nat.lt_or_ge a g.blocks.size with hlt | hge
    · exact hh.fresh ha (hg.body_of_list hlt hl)
    · exact hg.fresh hge hl

theorem of_thins (hh : h.Thins h') : h.Spares h' where
  size_le := hh.size_le
  live ha hlive := (hh.live_or hlive).resolve_right (Nat.not_le_of_lt ha)
  body_eq _ hlive := hh.body_eq hlive
  fresh ha hl := by
    rw [hh.body_eq (live_of_body hl (by simp)), body_of_size_le ha] at hl
    exact absurd hl (by simp)

theorem alloc (h : Heap) {body : Body} (permanent : Bool)
    (hbody : ∀ l, body = .list l → l.stamp = 0) : h.Spares (h.alloc body permanent).2 where
  size_le := by simp [Heap.alloc]
  live ha hlive := (live_alloc.mp hlive).resolve_left ha.ne
  body_eq ha _ := by rw [body_alloc, if_neg ha.ne]
  fresh ha hl := by
    rw [body_alloc] at hl
    split at hl
    · exact hbody _ hl
    · rw [body_of_size_le ha] at hl
      exact absurd hl (by simp)

theorem modify {f : Block → Block} (hbody : ∀ b, (h.modify a f).body b = h.body b) :
    h.Spares (h.modify a f) :=
  of_body (by rw [Heap.modify, Array.size_modify]) live_modify.mp hbody

theorem ensureTruth (h : Heap) (value : Bool) : h.Spares (h.ensureTruth value).2 := by
  have halloc : h.Spares
      (h.alloc (.word (.text (if value then "true" else "false") false)) true).2 :=
    alloc h true (by simp)
  unfold Heap.ensureTruth
  split
  · exact refl h
  · cases value
    · exact ⟨halloc.size_le, halloc.live, halloc.body_eq, halloc.fresh⟩
    · exact ⟨halloc.size_le, halloc.live, halloc.body_eq, halloc.fresh⟩

end Spares

end Heap

open Heap

/-- Values are only made and given up by the simplest moves. -/
theorem Move.spares {c d : Custody} (hm : Move .hold c d) : c.heap.Spares d.heap := by
  cases hm with
  | retain _ => exact .modify (body_retain _ _)
  | releaseAll as => exact .of_thins (releaseAll_thins _ _)
  | nothing => exact .of_thins (.ensureNothing _)
  | truth value => exact .ensureTruth _ value
  | usage => exact .of_body rfl id fun _ => rfl
  | freeze a => exact .modify (body_freeze _ _)
  | alloc hfresh => exact .alloc _ _ fun l hl => (hfresh.unparsed hl).1
  | tail _ _ _ _ hact => simp at hact

/-- Old blocks stay what they are while values are made and given up. -/
theorem kept_spares (h₀ : Heap) : Kept {.hold} fun held h => h.Exact held ∧ h₀.Spares h := by
  refine ⟨rfl, And.left, ?_⟩
  rintro a c d rfl hmove ⟨hexact, hspares⟩
  exact ⟨hmove.exact hexact, hspares.trans hmove.spares⟩

/-! ### Lists with a parsed form -/

namespace Heap

variable {h : Heap} {held held' : Multiset Addr} {a b c item m n x y z : Addr}
  {k l r header : ListHeader} {as : List Addr}

/-- The lists with a parsed form have the elements that were noted for them. -/
def Coherent (h : Heap) (noted : Addr → Option (List Addr)) : Prop :=
  ∀ x l, h.body x = .list l → l.stamp ≠ 0 → noted x = some (h.elements x).found

/-- Another list that does not lead to the cell linked anew has the elements that it had. -/
theorem Exact.found_relink (hg : (h.relink c item m as x header).Exact held)
    (hx : h.body x = .list l) (hheld : x ∈ held) (hc : h.body c = .cell item n) (hzx : z ≠ x)
    (hz : (h.relink c item m as x header).body z = .list k)
    (havoid : ∀ i, h.nth k.head i ≠ some c) :
    ((h.relink c item m as x header).elements z).found = (h.elements z).found := by
  have hxg := body_relink_list (hg.live_of_held hheld)
  have hbody : ∀ a, (h.relink c item m as x header).Live a → a ≠ x → a ∉ ({c} : Set Addr) →
      (h.relink c item m as x header).body a = h.body a :=
    fun a ha hax hac => body_relink_of_ne (.refl _) ha hax hac
  -- the elements are read off cells that neither the changed cell nor the header is one of
  refine Heap.found_elements (list_of_relink hx hc hzx hz) hz rfl rfl fun i b hb => ?_
  have hhead : (h.relink c item m as x header).Live k.head ∧
      ∀ i b, h.nth k.head i = some b → b ∉ ({c} : Set Addr) := by
    refine ⟨hg.live_of_mem hz List.mem_cons_self, ?_⟩
    rintro i b hb rfl
    exact havoid i hb
  obtain ⟨hlive, hne⟩ := ((hg.agreeOn_avoiding hx hxg hbody).nth_eq hhead i).2 b hb
  by_cases hbx : b = x
  · rw [hbx, hxg, hx]
    rfl
  · rw [hbody b hlive hbx (hne 0 b rfl)]

/-- Another content, which is a cell only where the old one was the same cell, leaves the other lists
as they are. -/
theorem Exact.list_of_setBody (hh : h.Exact held) {old new : Body} (hold : h.body a = old)
    (hnot : old ≠ .nothing) (hcell : new.cell? = old.cell?) (hya : y ≠ a)
    (hy : (h.setBody a new).body y = .list k) :
    h.body y = .list k ∧ ((h.setBody a new).elements y).found = (h.elements y).found := by
  have hold' := (body_setBody_of_ne hya new).symm.trans hy
  exact ⟨hold', hh.found_elements hold' hy rfl rfl fun b _ => cell?_setBody hold hnot hcell b⟩

end Heap

/-- **What a change does to a list with a parsed form**, if it puts no other element in a cell and
links none that another list leads to: the list was there, with the same elements. -/
theorem Move.list_of {act : Act} {c d : Custody} {y : Addr} {k : ListHeader}
    (hact : act ∈ ({.fill, .header, .extend} : Set Act)) (hm : Move act c d)
    (hc : c.heap.Exact c.held) (hy : d.heap.body y = .list k) (hstamp : k.stamp ≠ 0) :
    c.heap.body y = .list k ∧ (d.heap.elements y).found = (c.heap.elements y).found := by
  have hd := hm.exact hc
  -- the list is not one that has just got another content
  have hne : ∀ {x : Addr} {body : Body}, d.heap.body x = body →
      (∀ l, body = .list l → l.stamp = 0) → y ≠ x := by
    rintro x body hx hzero rfl
    exact hstamp (hzero k (hx.symm.trans hy))
  cases hm with
  | slots hx _ =>
    have hbody := body_setBody (live_of_body hx (by simp))
    exact hc.list_of_setBody hx (by simp) rfl (hne (hbody _) (by simp)) hy
  | children hx _ =>
    have hbody := body_setBody (live_of_body hx (by simp))
    exact hc.list_of_setBody hx (by simp) rfl (hne (hbody _) (by simp)) hy
  | header hx _ _ =>
    have hbody := body_setBody (live_of_body hx (by simp))
    exact hc.list_of_setBody hx (by simp) rfl (hne (hbody _) (by simp)) hy
  | @prepend h _ x item l hx =>
    have hlive := live_of_body hx (by simp)
    have hyx : y ≠ x := hne (body_setBody (live_alloc.mpr (Or.inr hlive)) _) (by simp)
    have hyd := (body_setBody_of_ne hyx _).symm.trans hy
    rw [body_alloc] at hyd
    split at hyd
    · simp at hyd
    -- no old link leads to the new cell
    refine ⟨hyd, hc.found_elements hyd hy rfl rfl fun b hb => ?_⟩
    by_cases hbx : b = x
    · rw [hbx, body_setBody (live_alloc.mpr (Or.inr hlive)), hx]
      rfl
    · rw [body_setBody_of_ne hbx, body_alloc, if_neg hb.ne_size]
  | @extend h _ x last item n _ _ _ l hx hheld hlast hlastBody _ _ _ =>
    have hheld' := Multiset.mem_add.mpr (Or.inl (b := x ∈ (l.parsed : Multiset Addr)) hheld)
    have hyx : y ≠ x := hne (body_relink_list (hd.live_of_held hheld')) (by simp)
    have hyc := list_of_relink hx hlastBody hyx hy
    exact ⟨hyc, hd.found_relink hx hheld' hlastBody hyx hy (hc.nth_ne_last hx hlast hyc hyx)⟩
  | @tail h _ _ x x' item n l r hx hheld hx' hcell hown =>
    -- the first cell of the list has no other handle, so no other list leads to it
    obtain ⟨-, -, hcount⟩ := hown.resolve_left (by rintro rfl; simp at hact)
    have hheld' := Multiset.mem_add.mpr (Or.inl (b := x ∈ (l.parsed : Multiset Addr)) hheld)
    have hyx : y ≠ x := hne (body_relink_list (hd.live_of_held hheld')) (by simp)
    have hyc := list_of_relink hx hcell hyx hy
    refine ⟨hyc, hd.found_relink hx hheld' hcell hyx hy fun i hi => hyx ?_⟩
    refine (hc.nth_unique hx hyc (i := 0) rfl hi ?_).1.symm
    intro j hj b hb
    obtain rfl := Nat.le_zero.mp hj
    obtain rfl := Option.some.inj hb
    exact Nat.le_of_eq hcount
  | _ => simp at hact

namespace Heap

variable {h : Heap} {a c item m n x y : Addr} {k l header : ListHeader} {as : List Addr}

/-- Another content leaves a list with a parsed form only where there was one. -/
theorem exists_stamped_of_setBody {old new : Body} (hold : h.body a = old) (hnot : old ≠ .nothing)
    (hnew : ∀ l, new = .list l → l.stamp ≠ 0 → ∃ l', old = .list l' ∧ l'.stamp ≠ 0)
    (hy : (h.setBody a new).body y = .list k) (hstamp : k.stamp ≠ 0) :
    ∃ l, h.body y = .list l ∧ l.stamp ≠ 0 := by
  by_cases hya : y = a
  · subst hya
    rw [body_setBody (live_of_body hold hnot)] at hy
    rw [hold]
    exact hnew k hy hstamp
  · exact ⟨k, (body_setBody_of_ne hya new).symm.trans hy, hstamp⟩

/-- A cell linked anew gives no list a parsed form, and the list with the new header loses it. -/
theorem exists_stamped_of_relink (hx : h.body x = .list l) (hc : h.body c = .cell item n)
    (hheader : header.stamp = 0) (hy : (h.relink c item m as x header).body y = .list k)
    (hstamp : k.stamp ≠ 0) : ∃ l, h.body y = .list l ∧ l.stamp ≠ 0 := by
  refine ⟨k, list_of_relink hx hc ?_ hy, hstamp⟩
  rintro rfl
  obtain rfl := Body.list.inj ((body_relink_list (live_of_body hy (by simp))).symm.trans hy)
  exact hstamp hheader

end Heap

/-- **A parsed form comes about in one way only**: any other move leaves a list with a parsed form
where there was one. -/
theorem Move.exists_stamped {act : Act} {c d : Custody} {y : Addr} {k : ListHeader}
    (hact : act ≠ .parse) (hm : Move act c d) (hy : d.heap.body y = .list k)
    (hstamp : k.stamp ≠ 0) : ∃ l, c.heap.body y = .list l ∧ l.stamp ≠ 0 := by
  -- what is made has no parsed form, so a list that has one was there
  by_cases hhold : act = .hold
  · subst hhold
    exact ⟨k, hm.spares.body_of_stamped hy hstamp, hstamp⟩
  cases hm with
  | slots hx _ => exact exists_stamped_of_setBody hx (by simp) (by simp) hy hstamp
  | children hx _ => exact exists_stamped_of_setBody hx (by simp) (by simp) hy hstamp
  | item hx _ => exact exists_stamped_of_setBody hx (by simp) (by simp) hy hstamp
  | link hx _ => exact exists_stamped_of_setBody hx (by simp) (by simp) hy hstamp
  | header hx _ _ => exact exists_stamped_of_setBody hx (by simp) (by simp) hy hstamp
  | recount hx _ =>
    refine exists_stamped_of_setBody hx (by simp) ?_ hy hstamp
    rintro k hk hkstamp
    obtain rfl := Body.list.inj hk
    exact ⟨_, rfl, hkstamp⟩
  | @prepend h _ x item l hx =>
    -- the new cell comes first, and then only a header is written
    have hspares : h.Spares (h.alloc (.cell item l.head)).2 := .alloc h false (by simp)
    have hx' : (h.alloc (.cell item l.head)).2.body x = .list l := by
      rw [body_alloc, if_neg (live_of_body hx (by simp)).ne_size, hx]
    obtain ⟨l', hl', hstamp'⟩ := exists_stamped_of_setBody hx' (by simp) (by simp) hy hstamp
    exact ⟨l', hspares.body_of_stamped hl' hstamp', hstamp'⟩
  | extend hx _ _ hlast _ _ _ => exact exists_stamped_of_relink hx hlast rfl hy hstamp
  | tail hx _ _ hc _ => exact exists_stamped_of_relink hx hc rfl hy hstamp
  | parse => exact absurd rfl hact
  | _ => exact absurd rfl hhold

/-- The lists with a parsed form keep the elements that were noted for them. -/
theorem kept_coherent (noted : Addr → Option (List Addr)) :
    Kept {.hold, .fill, .header, .extend} fun held h => h.Exact held ∧ h.Coherent noted := by
  refine ⟨by simp, And.left, ?_⟩
  rintro act c d hact hmove ⟨hexact, hcoherent⟩
  have hd := hmove.exact hexact
  refine ⟨hd, ?_⟩
  intro y k hy hstamp
  obtain ⟨hyc, hfound⟩ : c.heap.body y = .list k ∧
      (d.heap.elements y).found = (c.heap.elements y).found := by
    rcases hact with rfl | hact
    · have hyc := hmove.spares.body_of_stamped hy hstamp
      exact ⟨hyc, hmove.spares.found_elements hexact hd (live_of_body hyc (by simp)).lt_size hy⟩
    · exact hmove.list_of hact hexact hy hstamp
  rw [hfound]
  exact hcoherent y k hyc hstamp

/-- Lists that have no parsed form do not get one. -/
theorem kept_stamped (S : Set Addr) :
    Kept {a | a ≠ .parse} fun held h => h.Exact held ∧
      ∀ x l, h.body x = .list l → l.stamp ≠ 0 → x ∈ S := by
  refine ⟨by simp, And.left, ?_⟩
  rintro act c d hact hmove ⟨hexact, hS⟩
  refine ⟨hmove.exact hexact, ?_⟩
  intro y k hy hstamp
  obtain ⟨l, hyc, hl⟩ := hmove.exists_stamped hact hy hstamp
  exact hS y l hyc hl

end SharedValues
