import SharedValues.Proofs.Chain.Successor
import SharedValues.Proofs.Sequence.Report

/-!
# Edits of a list

The operations on a list of its own are compared with operations on a sequence: each either does to
the elements of the list what the edit does to the sequence, or is refused where the edit does not
apply, and for the reason that the edit gives.

## Main definitions

* `Edit` — the edits, as operations on a sequence.
* `Edit.run` — the edited sequence, or why the edit does not apply.
* `Edit.performAll` — what is answered to some edits, and the sequence after them.
* `Operation.Refines` — an operation on a list does what an edit does.

## Main results

* `Edit.run_related` — an edit does the same to related sequences.
* `Unshared.refines_append`, `Unshared.refines_setItem`, … — the operations do what the edits do.
-/

namespace SharedValues

/-! ### Edits of a sequence -/

/-- An edit of a sequence. -/
inductive Edit (α : Type) where
  /-- Adds an element at the end. -/
  | append (a : α)
  /-- Adds an element at the front. -/
  | prepend (a : α)
  /-- Goes on with a new sequence that has one more element in front. -/
  | cons (a : α)
  /-- Goes on with all elements but the first. -/
  | butFirst
  /-- Goes on with all elements but the last. -/
  | butLast
  /-- Replaces the element at an index, counted from one. -/
  | setItem (index : ℤ) (a : α)
  /-- Replaces the first element. -/
  | setFirst (a : α)
  /-- Takes all elements away. -/
  | clear
  deriving DecidableEq, Repr

/-- The fault with which an operation ends that is refused in a mode. -/
def Mode.fault : Mode → Refusal → Fault
  | checked, r => .refused r
  | asserted, r | typed, r => .violated r

namespace Edit

variable {α β : Type}

/-- The edited sequence, or why the edit does not apply. -/
def run : Edit α → List α → Except Refusal (List α)
  | append a, as => .ok (as ++ [a])
  | prepend a, as | cons a, as => .ok (a :: as)
  | butFirst, [] => .error (.emptySequence .butFirst .list)
  | butFirst, _ :: as => .ok as
  | butLast, [] => .error (.emptySequence .butLast .list)
  | butLast, a :: as => .ok (a :: as).dropLast
  | setItem index a, as =>
    if 1 ≤ index ∧ index ≤ as.length then .ok (as.set (index.toNat - 1) a)
    else .error (.outOfRange .list index as.length)
  | setFirst _, [] => .error (.emptySequence .setFirst .list)
  | setFirst a, _ :: as => .ok (a :: as)
  | clear, _ => .ok []

/-- What is answered to an edit that applies. -/
def answer : Edit α → Answer
  | cons _ | butFirst | butLast => .value .list none
  | append _ | prepend _ | setItem .. | setFirst _ | clear => .done

/-- What is answered to an edit, and the sequence after it.  An edit that does not apply changes
nothing. -/
def perform (m : Mode) (e : Edit α) (as : List α) : Answer × List α :=
  match e.run as with
  | .ok bs => (e.answer, bs)
  | .error r => (.fault (m.fault r), as)

/-- What is answered to some edits, and the sequence after them. -/
def performAll : List (Mode × Edit α) → List α → List Answer × List α
  | [], as => ([], as)
  | (m, e) :: es, as =>
    let (answer, as) := e.perform m as
    let (answers, as) := performAll es as
    (answer :: answers, as)

/-- Appending always applies. -/
theorem performAll_append {edits : List (Mode × Edit α)} {as : List α} {n : ℕ} {m : Mode} {a : α}
    (hn : edits[n]? = some (m, append a)) : (performAll edits as).1[n]? = some .done := by
  induction edits generalizing n as with
  | nil => simp at hn
  | cons p edits ih =>
    cases n with
    | zero =>
      obtain rfl := Option.some.inj hn
      rfl
    | succ n => exact ih hn

/-- The element that an edit puts into the sequence. -/
def operand? : Edit α → Option α
  | append a | prepend a | cons a | setItem _ a | setFirst a => some a
  | butFirst | butLast | clear => none

/-- The same edit with another element. -/
def withOperand (b : β) : Edit α → Edit β
  | append _ => append b
  | prepend _ => prepend b
  | cons _ => cons b
  | butFirst => butFirst
  | butLast => butLast
  | setItem index _ => setItem index b
  | setFirst _ => setFirst b
  | clear => clear

open List in
/-- **An edit does the same to related sequences**: it applies to both or to none, and the edited
sequences are related. -/
theorem run_related {R : α → β → Prop} {e : Edit α} {as : List α} {bs : List β} {b : β}
    (hR : Forall₂ R as bs) (hb : ∀ a ∈ e.operand?, R a b) :
    (∃ as' bs', e.run as = .ok as' ∧ (e.withOperand b).run bs = .ok bs' ∧ Forall₂ R as' bs') ∨
      ∃ r, e.run as = .error r ∧ (e.withOperand b).run bs = .error r := by
  have hlength := hR.length_eq
  cases e with
  | append a => exact .inl ⟨_, _, rfl, rfl, rel_append hR (.cons (hb a rfl) .nil)⟩
  | prepend a | cons a => exact .inl ⟨_, _, rfl, rfl, .cons (hb a rfl) hR⟩
  | butFirst =>
    cases hR with
    | nil => exact .inr ⟨_, rfl, rfl⟩
    | cons _ hrest => exact .inl ⟨_, _, rfl, rfl, hrest⟩
  | butLast =>
    cases hR with
    | nil => exact .inr ⟨_, rfl, rfl⟩
    | @cons a c as cs hfirst hrest =>
      -- the lists are equally long, so the part without the last is a part of the same length
      refine .inl ⟨_, _, rfl, rfl, ?_⟩
      rw [dropLast_eq_take, dropLast_eq_take, ← hlength]
      exact forall₂_take _ (.cons hfirst hrest)
  | setItem index a =>
    by_cases hindex : 1 ≤ index ∧ index ≤ as.length
    · refine .inl ⟨_, _, if_pos hindex, if_pos (hlength ▸ hindex), ?_⟩
      have hlt : index.toNat - 1 < as.length := by omega
      -- setting an item is cutting there and putting the new one in between
      rw [set_eq_take_append_cons_drop, set_eq_take_append_cons_drop, if_pos hlt,
        if_pos (hlength ▸ hlt)]
      exact rel_append (forall₂_take _ hR) (.cons (hb a rfl) (forall₂_drop _ hR))
    · exact .inr ⟨_, if_neg hindex, by rw [hlength] at hindex ⊢; exact if_neg hindex⟩
  | setFirst a =>
    cases hR with
    | nil => exact .inr ⟨_, rfl, rfl⟩
    | cons _ hrest => exact .inl ⟨_, _, rfl, rfl, .cons (hb a rfl) hrest⟩
  | clear => exact .inl ⟨_, _, rfl, rfl, .nil⟩

end Edit

namespace Operation

variable {α : Type} {s : Store} {m : Mode} {e : Edit Addr} {as : List Addr}
  {P : List Addr → α → Heap → Prop}

/-- **An operation does what an edit does**: it ends in `P` with the edited elements if the edit
applies, and otherwise is refused for the reason that the edit gives, with nothing changed. -/
def Refines (m : Mode) (e : Edit Addr) (as : List Addr) (op : Operation α) (s : Store)
    (P : List Addr → α → Heap → Prop) : Prop :=
  Ensures op s (fun b t => ∃ bs, e.run as = .ok bs ∧ P bs b t.heap)
    fun f t => ∃ r, e.run as = .error r ∧ f = m.fault r ∧ t = s

/-- An operation that refines an edit does so in every mode. -/
theorem Refines.call {op : Operation α} (hop : Refines .checked e as op s P) (m : Mode) :
    Refines m e as (m.call op) s P := by
  have hpromised : Ensures op s (fun b t => ∃ bs, e.run as = .ok bs ∧ P bs b t.heap)
      fun f t => ∃ r, e.run as = .error r ∧ f.promised = .violated r ∧ t = s := by
    refine hop.mono (fun _ _ => id) ?_
    rintro _ t ⟨r, hr, rfl, ht⟩
    exact ⟨r, hr, rfl, ht⟩
  cases m with
  | checked => exact hop
  | asserted => exact ensures_promised.mpr hpromised
  | typed => exact ensures_promised.mpr hpromised

/-- What an operation does to the elements, an edit does to what the elements stand for. -/
theorem Refines.related {β : Type} {R : β → Addr → Prop} {e : Edit β} {items : List β} {a : Addr}
    {op : Operation α} (hop : Refines m (e.withOperand a) as op s P) (hR : List.Forall₂ R items as)
    (ha : ∀ i ∈ e.operand?, R i a) :
    Ensures op s
      (fun b t => ∃ items' bs, e.run items = .ok items' ∧ List.Forall₂ R items' bs ∧ P bs b t.heap)
      fun f t => ∃ r, e.run items = .error r ∧ f = m.fault r ∧ t = s := by
  have hrelated := Edit.run_related hR ha
  refine hop.mono ?_ ?_
  · rintro b t ⟨bs, hbs, hP⟩
    rcases hrelated with ⟨items', bs', hitems, hbs', hR'⟩ | ⟨r, -, hr⟩
    · obtain rfl := Except.ok.inj (hbs'.symm.trans hbs)
      exact ⟨items', bs', hitems, hR', hP⟩
    · exact absurd (hr.symm.trans hbs) (by simp)
  · rintro f t ⟨r, hr, hf, ht⟩
    rcases hrelated with ⟨-, bs', -, hbs', -⟩ | ⟨r', hitems, hr'⟩
    · exact absurd (hbs'.symm.trans hr) (by simp)
    · obtain rfl := Except.error.inj (hr'.symm.trans hr)
      exact ⟨r', hitems, hf, ht⟩

end Operation

/-! ### Operations on a list of its own -/

namespace Heap

open Operation

variable {h : Heap} {held : Multiset Addr} {a c item last n x head value : Addr}
  {l : ListHeader} {cs as : List Addr}

/-- The list `x` has certain elements, on a chain of its own. -/
def Owned (h : Heap) (held : Multiset Addr) (x : Addr) (as : List Addr) : Prop :=
  ∃ head cs, h.Unshared held x head cs as

namespace Owned

theorem exact (hu : h.Owned held x as) : h.Exact (held + {x}) := hu.choose_spec.choose_spec.exact

theorem kind (hu : h.Owned held x as) : h.kind x = .list := by
  obtain ⟨head, cs, hu⟩ := hu
  rw [Heap.kind, hu.body, Body.kind]

/-- The elements of a list are there. -/
theorem live_of_mem (hu : h.Owned held x as) (ha : a ∈ as) : h.Live a := by
  obtain ⟨head, cs, hu⟩ := hu
  obtain ⟨c, hc, rfl⟩ := List.mem_map.mp (hu.items ▸ ha)
  exact hu.exact.live_itemOf (hu.chain.kind_of_mem c hc)

theorem release (hu : h.Owned (held + {a}) x as) : (h.release a).Owned held x as := by
  obtain ⟨head, cs, hu⟩ := hu
  exact ⟨head, cs, hu.release⟩

end Owned

/-- A list without a parsed form gets another header. -/
theorem ensures_replace {s : Store} {old : Addr} {size size' : ℕ} {Q : Unit → Store → Prop}
    {E : Fault → Store → Prop} :
    Ensures (ListHeader.replace x { head := old, size := size' } head size) s Q E ↔
      Q () { s with heap := s.heap.setBody x (.list { head, size }) } := by
  rw [ListHeader.replace, ensures_alter, releaseAll_nil]

namespace Unshared

variable {s : Store} {m : Mode} {index : ℤ}

/-- The only handle to a cell is the one in the list or in the cell before. -/
theorem exclusive (hu : h.Unshared held x head cs as) : h.Exclusive (held + {x}) head := by
  intro i c hi hc
  obtain ⟨p, hp⟩ := exists_storer hu.body hi
  have hstored := count_stored_pos hp
  obtain ⟨n, hn⟩ := exists_next?_of_kind hc
  obtain ⟨ds, hds, -⟩ := (hu.chain.nth hi).1.tail hn
  have hmem : c ∈ cs := List.mem_of_mem_drop (hds ▸ List.mem_cons_self)
  have hsingle := hu.single c (List.mem_cons_of_mem x hmem)
  rw [references, Multiset.count_add] at hsingle ⊢
  omega

/-- One more cell at the end. -/
theorem snoc {g : Heap} (hu : h.Unshared held x head cs as) (hv : value ∈ held)
    (happended : h.Appended g x value { head, size := as.length })
    (hg : g.Exact (held + {x}))
    (hrefs : ∀ a, g.references (held + {x}) a ≤ h.references (held + {x}) a
      + (Multiset.count a {value} + Multiset.count a {(h.retain value).nothing.1}
        + Multiset.count a {h.cellFor value})) :
    g.Owned held x (as ++ [value]) := by
  obtain ⟨ds, c, head', hds, hc, hbody, hchain, hitem, hitems⟩ := happended.chain
  obtain rfl := hu.chain.unique hds
  have hlive : h.Live value := hu.exact.live_of_held (Multiset.mem_add.mpr (Or.inl hv))
  have hnothing := hu.exact.kind_withCell hlive
  refine ⟨head', cs ++ [c], ⟨⟨by rw [hbody, List.length_append]; rfl, hchain, ?_⟩, hg, ?_⟩⟩
  · rw [List.map_append, List.map_congr_left hitems, hu.items, List.map_singleton, hitem]
  intro a ha
  refine (hrefs a).trans ?_
  simp only [Multiset.count_singleton]
  rcases List.mem_append.mp (show a ∈ (x :: cs) ++ [c] from ha) with ha | ha
  · -- the list and its cells were there before
    have hold := body_withCell_of_live value (hu.live_of_mem ha)
    have hne : a ≠ (h.retain value).nothing.1 := by
      rintro rfl
      rw [kind, hold.2] at hnothing
      exact hu.not_mem_of_kind (by rw [kind, hnothing]; decide) (by rw [kind, hnothing]; decide) ha
    rw [if_neg (ne_of_mem_of_not_mem ha (hu.not_mem_of_held hv)), if_neg hne, if_neg hold.1]
    exact hu.single a ha
  · -- the new cell has one handle, the one that it was made with
    obtain rfl := List.mem_singleton.mp ha
    have hne : (h.retain value).nothing.1 ≠ h.cellFor value := by
      intro heq
      simp [heq, kind, body_withCell, Body.kind] at hnothing
    rw [hu.exact.references_of_not_live hc, if_neg (by rintro rfl; exact hc hlive)]
    by_cases ha : a = (h.retain value).nothing.1
    · rw [if_pos ha, if_neg (ha ▸ hne)]
    · rw [if_neg ha]
      split <;> omega

theorem refines_append (hu : s.heap.Unshared held x head cs as) (hv : value ∈ held) :
    Refines m (.append value) as ((Change.append m).run x value) s
      fun bs _ h => h.Owned held x bs := by
  have hheld : x ∈ held + {x} := by simp
  have hvalue : value ∈ held + {x} := Multiset.mem_add.mpr (Or.inl hv)
  -- the append succeeds by exclusive ownership, and what it does is known from its references
  have happend := (hu.exact.ensures_append_exclusive hu.body hheld hvalue hu.chain.linked).and
    (hu.exact.ensures_append_references hu.body hheld hvalue)
  have hlist : Refines .checked (.append value) as
      (ListHeader.append x { head, size := as.length } value) s
      fun bs _ h => h.Owned held x bs := by
    -- the one refusal of an append is that of a shared list, which this is not
    refine happend.mono ?_ ?_
    · rintro _ t ⟨⟨-, -, happended⟩, hexact, hrefs⟩
      exact ⟨_, rfl, hu.snoc hv happended hexact hrefs⟩
    · rintro f t ⟨⟨-, hshared⟩, -⟩
      exact absurd hu.exclusive hshared
  refine ensures_bind.mpr (ensures_look.mpr ?_)
  rw [hu.body]
  exact hlist.call m

theorem refines_prepend (hu : s.heap.Unshared held x head cs as) (hv : value ∈ held) :
    Refines m (.prepend value) as (Change.prepend.run x value) s
      fun bs _ h => h.Owned held x bs := by
  refine ensures_bind.mpr ((ensures_assert_of_ok (list_eq_ok hu.body)).mpr ?_)
  refine ensures_bind.mpr (ensures_share.mpr (ensures_bind.mpr (ensures_make.mpr ?_)))
  exact ensures_replace.mpr ⟨_, rfl, _, _, (hu.retain hv).push⟩

/-- Another element in a cell, and the header once more. -/
theorem ensures_setCellItem (hu : s.heap.Unshared held x head cs as) (hv : value ∈ held) {k : ℕ}
    (hk : cs[k]? = some c) :
    Ensures (do
        ListHeader.setCellItem c value
        ListHeader.replace x { head, size := as.length } head as.length) s
      (fun _ t => t.heap.Owned held x (as.set k value)) fun _ _ => False := by
  obtain ⟨item, n, hc⟩ := exists_cell_of_kind (hu.chain.kind_of_mem c (List.mem_of_getElem? hk))
  refine ensures_bind.mpr (ensures_bind.mpr ((ensures_assert_of_ok (cell_eq_ok hc)).mpr ?_))
  have hset := ((hu.retain hv).setItem hk ((body_retain ..).trans hc)).release.reset
  rw [List.length_set] at hset
  exact ensures_alter.mpr (ensures_replace.mpr ⟨_, _, hset⟩)

theorem refines_setItem (hu : s.heap.Unshared held x head cs as) (hv : value ∈ held) :
    Refines m (.setItem index value) as ((Change.setItem index m).run x value) s
      fun bs _ h => h.Owned held x bs := by
  refine Refines.call ?_ m
  refine ensures_bind.mpr (ensures_look.mpr ?_)
  rw [hu.body]
  by_cases hindex : 1 ≤ index ∧ index ≤ as.length
  · obtain ⟨c, hk, hc⟩ := hu.cellAt_of_inRange hindex
    refine ensures_bind.mpr ((ensures_check_of_ok hc).mpr ?_)
    refine (hu.ensures_setCellItem hv hk).mono ?_ fun _ _ => False.elim
    exact fun _ t ht => ⟨_, if_pos hindex, ht⟩
  · have hcell := cellAt_of_not_inRange (l := { head, size := as.length }) s.heap hindex
    exact ensures_bind.mpr ((ensures_check_of_error hcell).mpr ⟨_, if_neg hindex, rfl, rfl⟩)

theorem refines_setFirst (hu : s.heap.Unshared held x head cs as) (hv : value ∈ held) :
    Refines m (.setFirst value) as ((Change.setFirst m).run x value) s
      fun bs _ h => h.Owned held x bs := by
  refine Refines.call ?_ m
  refine ensures_bind.mpr (ensures_look.mpr ?_)
  rw [hu.body]
  cases as with
  | nil =>
    refine ensures_bind.mpr ((ensures_check_of_error (hu.firstCell_nil _ _)).mpr ?_)
    exact ⟨_, rfl, rfl, rfl⟩
  | cons a as =>
    obtain ⟨n, ds, rfl, hn⟩ := hu.first_cell
    refine ensures_bind.mpr ((ensures_check_of_ok (hu.firstCell_cons hn _ _)).mpr ?_)
    refine (hu.ensures_setCellItem hv (k := 0) rfl).mono ?_ fun _ _ => False.elim
    exact fun _ t ht => ⟨_, rfl, ht⟩

/-- Taking all elements. -/
theorem refines_clear (hu : s.heap.Unshared held x head cs as) :
    Refines m .clear as (do let l ← Operation.assert (·.list x); l.clear x) s
      fun bs _ h => h.Owned held x bs := by
  refine ensures_bind.mpr ((ensures_assert_of_ok (list_eq_ok hu.body)).mpr ?_)
  refine ensures_bind.mpr (ensures_make.mpr (ensures_bind.mpr (ensures_replace.mpr ?_)))
  have hcleared := hu.nothing.clear hu.exact.kind_nothing
  exact ensures_release.mpr ⟨_, rfl, _, _, hcleared.release⟩

/-! ### Lists that take the place of the list -/

theorem refines_cons (hu : s.heap.Unshared held x head cs as) (hv : value ∈ held) :
    Refines m (.cons value) as (Combination.cons.run x value) s
      fun bs y h => (h.release x).Owned held y bs := by
  refine ensures_bind.mpr ((ensures_assert_of_ok (list_eq_ok hu.body)).mpr ?_)
  refine ensures_bind.mpr (ensures_create.mpr (ensures_make.mpr ?_))
  exact ⟨_, rfl, _, _, hu.cons_release hv⟩

theorem refines_butFirst (hu : s.heap.Unshared held x head cs as) :
    Refines .checked .butFirst as (Sequence.butFirst x) s
      fun bs y h => (h.release x).Owned held y bs := by
  refine ensures_bind.mpr (ensures_look.mpr ?_)
  rw [hu.body]
  cases as with
  | nil =>
    refine ensures_bind.mpr ((ensures_check_of_error (hu.firstCell_nil _ _)).mpr ?_)
    exact ⟨_, rfl, rfl, rfl⟩
  | cons a as =>
    obtain ⟨n, ds, rfl, hn⟩ := hu.first_cell
    refine ensures_bind.mpr ((ensures_check_of_ok (hu.firstCell_cons hn _ _)).mpr ?_)
    exact ensures_create.mpr ⟨_, rfl, _, _, hu.butFirst_release hn⟩

theorem refines_butLast (hu : s.heap.Unshared held x head cs as) :
    Refines .checked .butLast as (Sequence.butLast x) s
      fun bs y h => (h.release x).Owned held y bs := by
  refine ensures_bind.mpr (ensures_look.mpr ?_)
  rw [hu.body]
  cases as with
  | nil =>
    refine ensures_bind.mpr ((ensures_check_of_error (hu.someHead_nil _ _)).mpr ?_)
    exact ⟨_, rfl, rfl, rfl⟩
  | cons a as =>
    have hitems : (cs.take as.length).map s.heap.itemOf = (a :: as).dropLast := by
      rw [List.map_take, hu.items, List.dropLast_eq_take]
      rfl
    -- the items to be copied are live, so the copy can retain them
    have hlive : ∀ b ∈ (a :: as).dropLast, s.heap.Live b := fun b hb =>
      Owned.live_of_mem ⟨_, _, hu⟩ (List.mem_of_mem_dropLast hb)
    refine ensures_bind.mpr ((ensures_check_of_ok (hu.someHead_cons _ _)).mpr ?_)
    refine ensures_bind.mpr (ensures_look.mpr ?_)
    rw [hu.chain.chain_eq]
    refine ensures_bind.mpr (ensures_look.mpr (ensures_bind.mpr (ensures_alter.mpr ?_)))
    refine ensures_make.mpr ⟨_, rfl, ?_⟩
    -- the copy is the only list left once the old one is released
    have hlast := hu.butLast_release hlive
    rw [← hitems] at hlast ⊢
    exact hlast

/-- A part of a list, as a value that may be there. -/
theorem refines_piece (hu : s.heap.Unshared held x head cs as) {p : Piece} {e : Edit Addr}
    (hp : Refines .checked e as (p.take x) s fun bs y h => (h.release x).Owned held y bs) :
    Refines m e as ((Derivation.piece p m).run x) s
      fun bs r h => ∃ y, r = some y ∧ (h.release x).Owned held y bs := by
  have hword : (s.heap.kind x == .word) = false := by rw [kind, hu.body]; rfl
  refine ensures_bind.mpr (ensures_look.mpr ?_)
  rw [hword, if_neg (by simp)]
  refine ensures_map.mpr ((hp.call m).mono ?_ fun _ _ => id)
  rintro y _ ⟨bs, hbs, hy⟩
  exact ⟨bs, hbs, y, rfl, hy⟩

end Unshared

end Heap

end SharedValues
