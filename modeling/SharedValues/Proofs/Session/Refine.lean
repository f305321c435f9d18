import SharedValues.Proofs.Heap.Lasting
import SharedValues.Proofs.Sequence.Edit

/-!
# Lists refine sequences

A list of new words that a client makes and keeps in one register is on a chain of its own, and
stays so while it is edited: each command ends with the one handle to the list in the register, and
with the cells of the list before given up.  So a whole run of edits does to the list what it does
to a sequence, and appending never meets a shared cell.

## Main definitions

* `Item` — an element as a client gives it.
* `Edit.command` — the command for an edit.
* `Session.Carries` — a list of its own in a register.
* `Step.Edits` — a step does what an edit does.
* `Session.Reports` — what the list in a register reports.

## Main results

* `Session.Carries.step`, `Session.Carries.run` — one command, and commands for a number of edits.
* `Session.list_refines_sequence` — a list made and then edited, in every run.
-/

namespace SharedValues

open Heap Operation

/-! ### Elements -/

/-- An element that a client puts into a list. -/
inductive Item where
  /-- A new word. -/
  | word (w : Word)
  /-- The value in a register. -/
  | register (name : String)
  deriving DecidableEq, Repr

namespace Item

variable {env env' : String → Option Addr} {h g : Heap} {held : Multiset Addr} {a x : Addr}
  {as : List Addr} {i : Item} {items : List Item} {name : String}

/-- The expression for an element. -/
def expr : Item → Expr
  | word w => .ofWord w
  | register name => .register name

/-- An element is what it was put in as: the word, or the value that the register held. -/
def Denotes (env : String → Option Addr) (h : Heap) : Item → Addr → Prop
  | word w, a => h.body a = .word w
  | register name, a => env name = some a

/-- An element can be had while the register `name` is in use for the list. -/
def Known (env : String → Option Addr) (name : String) : Item → Prop
  | word _ => True
  | register other => other ≠ name ∧ (env other).isSome

theorem Denotes.lasting (hi : i.Denotes env h a) (hlasting : h.Lasting g) (ha : g.Live a) :
    i.Denotes env g a := by
  cases i with
  | word w => exact hlasting.body_of_word hi ha
  | register name => exact hi

/-- The elements of a list are what they were put in as for as long as they are there. -/
theorem denotes_lasting (hitems : List.Forall₂ (Denotes env h) items as) (hlasting : h.Lasting g)
    (hlive : ∀ a ∈ as, g.Live a) : List.Forall₂ (Denotes env g) items as := by
  rw [List.forall₂_iff_zip] at hitems ⊢
  exact ⟨hitems.1, fun hmem => (hitems.2 hmem).lasting hlasting (hlive _ (List.of_mem_zip hmem).2)⟩

/-- The value of an element is what it denotes. -/
theorem denotes_eval (hi : i.Known env name) (henv : ∀ r, r ≠ name → env' r = env r) :
    i.Denotes env (i.expr.eval env' h).2 (i.expr.eval env' h).1 := by
  cases i with
  | word w =>
    rw [expr, Expr.eval_ofWord]
    exact (body_alloc ..).trans (if_pos rfl)
  | register other =>
    obtain ⟨hne, a, ha⟩ := hi.imp_right Option.isSome_iff_exists.mp
    rw [expr, Expr.eval, henv other hne, ha]
    exact ha

/-- The registers that elements refer to are in use. -/
theorem isSome_of_mem_registers (hi : i.Known env name) (henv : ∀ r, r ≠ name → env' r = env r)
    {r : String} (hr : r ∈ i.expr.registers) : (env' r).isSome := by
  cases i with
  | word w => simp [expr] at hr
  | register other =>
    obtain rfl := List.mem_singleton.mp hr
    rw [henv _ hi.1]
    exact hi.2

/-- Elements are made one after another, and the ones that are there already stay. -/
theorem denotes_evalAll (hh : h.Exact held) (hheld : ∀ r a, env r = some a → a ∈ held)
    (hitems : ∀ i ∈ items, i.Known env name) :
    List.Forall₂ (Denotes env (Expr.evalAll env (items.map expr) h).2) items
      (Expr.evalAll env (items.map expr) h).1 := by
  induction items generalizing h held with
  | nil => exact .nil
  | cons i items ih =>
    have hfirst := kept_exact.eval hheld i.expr hh
    have hheld' : ∀ r a, env r = some a → a ∈ held + {(i.expr.eval env h).1} := fun r a ha =>
      Multiset.mem_add.mpr (Or.inl (hheld r a ha))
    have hrest := (kept_lasting _).evalAll hheld' (items.map expr) ⟨hfirst, .refl _⟩
    have hdenotes := denotes_eval (h := h) (hitems i List.mem_cons_self) fun _ _ => rfl
    refine .cons (hdenotes.lasting hrest.2 (hrest.1.live_of_held (by simp))) ?_
    exact ih hfirst hheld' fun j hj => hitems j (List.mem_cons_of_mem i hj)

theorem isSome_of_mem_registersAll (hitems : ∀ i ∈ items, i.Known env name) {r : String}
    (hr : r ∈ Expr.registersAll (items.map expr)) : (env r).isSome := by
  induction items with
  | nil => simp [Expr.registersAll] at hr
  | cons i items ih =>
    rcases List.mem_append.mp hr with hr | hr
    · exact isSome_of_mem_registers (hitems i List.mem_cons_self) (fun _ _ => rfl) hr
    · exact ih (fun j hj => hitems j (List.mem_cons_of_mem i hj)) hr

end Item

/-! ### A list of its own in a register -/

/-- **A list of its own in a register**, with the handles in `extra` owned by the command under way.
The other registers hold what `env` says. -/
structure Session.Carries (env : String → Option Addr) (name : String) (extra : Multiset Addr)
    (x : Addr) (items : List Item) (s : Session) : Prop where
  /-- The registers are in order. -/
  sorted : s.registers.Sorted
  /-- The list is in its register. -/
  lookup : s.registers.lookup name = some (.value x)
  /-- The other registers hold their values. -/
  others : ∀ r, r ≠ name → s.value? r = env r
  /-- The list has its elements, and nobody else holds it or a part of its chain. -/
  elements : ∃ as,
    s.store.heap.Owned (Registers.held (Registers.erase name s.registers) + extra) x as ∧
      List.Forall₂ (Item.Denotes env s.store.heap) items as

namespace Session.Carries

variable {env : String → Option Addr} {name : String} {extra : Multiset Addr}
  {a b x y : Addr} {items items' : List Item} {as bs : List Addr} {s t : Session} {u : Store}
  {i : Item} {e : Edit Item} {m : Mode}

theorem value? (hs : s.Carries env name extra x items) : s.value? name = some x := by
  rw [Session.value?, hs.lookup]

/-- What the handles of the other registers and of the command lead to. -/
theorem mem_held (hs : s.Carries env name extra x items) {r : String} (hr : r ≠ name)
    (ha : env r = some a) : a ∈ Registers.held (Registers.erase name s.registers) + extra := by
  rw [← hs.others r hr, Session.value?] at ha
  split at ha
  · next b hb =>
    obtain rfl := Option.some.inj ha
    exact Multiset.mem_add.mpr (Or.inl (Registers.handle_mem_held_erase hb hr))
  · exact absurd ha (by simp)

/-- An element made for a command. -/
theorem ensures_eval (hs : s.Carries env name 0 x items) (hi : i.Known env name) :
    Ensures (Step.eval i.expr) s
      (fun a t => t.Carries env name {a} x items ∧ i.Denotes env t.store.heap a)
      fun _ _ => False := by
  obtain ⟨as, ⟨head, cs, hu⟩, hitems⟩ := hs.elements
  rw [add_zero] at hu
  refine ensures_bind.mpr (ensures_bound_of (fun r => Item.isSome_of_mem_registers hi hs.others)
    (ensures_bind.mpr (ensures_get.mpr ?_)))
  refine ensures_on.mpr (ensures_make.mpr ⟨?_, Item.denotes_eval hi hs.others⟩)
  -- a new word leaves the list with its cells as they were, and so does a handle to an old value
  obtain ⟨hmade, hlasting⟩ : (i.expr.eval s.value? s.store.heap).2.Owned
      (Registers.held (Registers.erase name s.registers)
        + {(i.expr.eval s.value? s.store.heap).1}) x as ∧
      s.store.heap.Lasting (i.expr.eval s.value? s.store.heap).2 := by
    cases i with
    | word w => cases w <;> exact ⟨⟨head, cs, hu.word _⟩, .of_spares (.alloc _ _ (by simp))⟩
    | register other =>
      obtain ⟨b, hb⟩ := Option.isSome_iff_exists.mp hi.2
      rw [Item.expr, Expr.eval, hs.others other hi.1, hb]
      exact ⟨⟨head, cs, hu.retain (by simpa using hs.mem_held hi.1 hb)⟩,
        .of_spares (.modify (body_retain _ b))⟩
  exact ⟨hs.sorted, hs.lookup, hs.others, as, hmade,
    Item.denotes_lasting hitems hlasting fun _ => hmade.live_of_mem⟩

/-- The command gives up a handle. -/
theorem release (hs : s.Carries env name (extra + {a}) x items) :
    ({ s with store := { s.store with heap := s.store.heap.release a } } : Session).Carries env name
      extra x items := by
  obtain ⟨as, hu, hitems⟩ := hs.elements
  rw [← add_assoc] at hu
  have hlasting : s.store.heap.Lasting (s.store.heap.release a) :=
    .of_spares (.of_thins (releaseAll_thins _ [a]))
  exact ⟨hs.sorted, hs.lookup, hs.others, as, hu.release,
    Item.denotes_lasting hitems hlasting fun _ => hu.release.live_of_mem⟩

/-- **A new list goes to the register**, and what was there before is given up.  The list is alone
with its chain then. -/
theorem ensures_keep (hsorted : s.registers.Sorted) (hothers : ∀ r, r ≠ name → s.value? r = env r)
    (hy : (s.store.heap.releaseAll ((s.registers.lookup name).toList.map Holding.handle)).Owned
      (Registers.held (Registers.erase name s.registers) + extra) y bs)
    (hitems : List.Forall₂ (Item.Denotes env
      (s.store.heap.releaseAll ((s.registers.lookup name).toList.map Holding.handle))) items bs) :
    Ensures (Step.keep ⟨some name, true⟩ y) s
      (fun answer t => answer = .value .list none ∧ t.Carries env name extra y items)
      fun _ _ => False := by
  -- the kind is asked before the old value is released, which leaves the new one alone
  have hkind : s.store.heap.kind y = .list := by
    have hlive := hy.exact.live_of_held (a := y) (by simp)
    rw [← hy.kind]
    exact congrArg Body.kind ((releaseAll_thins _ _).body_eq hlive).symm
  refine ensures_bind.mpr (ensures_on.mpr (ensures_look.mpr ?_))
  refine ensures_bind.mpr (ensures_pure.mpr (ensures_bind.mpr ?_))
  refine ensures_bind.mpr (ensures_get.mpr (ensures_bind.mpr (ensures_modify.mpr ?_)))
  -- only the register is written, and the old value released
  have hcarries : ∀ {u : Store}, u.heap
      = s.store.heap.releaseAll ((s.registers.lookup name).toList.map Holding.handle) →
      Carries env name extra y items
        { s with registers := Registers.set name (.value y) s.registers, store := u } := by
    intro u hu
    refine ⟨hsorted.set, Registers.lookup_set .., fun r hr => ?_, bs, ?_, hu ▸ hitems⟩
    · rw [← hothers r hr, Session.value?, Session.value?, Registers.lookup_set_of_ne hr]
    · rw [Registers.erase_set, hu]
      exact hy
  cases hold : s.registers.lookup name with
  | none => exact ensures_pure.mpr (ensures_pure.mpr ⟨by rw [hkind], hcarries (by simp [hold])⟩)
  | some old =>
    exact ensures_on.mpr (ensures_release.mpr (ensures_pure.mpr
      ⟨by rw [hkind], hcarries (by rw [hold]; rfl)⟩))

end Session.Carries

/-! ### Commands -/

/-- **A step does what an edit does**: the list in the register, be it the old one or another, has
the edited elements if the edit applies, and otherwise is what it was. -/
def Step.Edits (env : String → Option Addr) (name : String) (extra : Multiset Addr) (m : Mode)
    (e : Edit Item) (items : List Item) (step : Step Answer) (s : Session) : Prop :=
  Ensures step s
    (fun answer t => answer = e.answer ∧
      ∃ y items', e.run items = .ok items' ∧ t.Carries env name extra y items')
    fun f t => ∃ y r, e.run items = .error r ∧ f = m.fault r ∧ t.Carries env name extra y items

/-- The command for an edit of the list in a register. -/
def Edit.command (m : Mode) (name : String) : Edit Item → Command
  | append i => .change name (.append m) i.expr true
  | prepend i => .change name .prepend i.expr true
  | cons i => .combine name .cons i.expr ⟨some name, true⟩
  | butFirst => .derive name (.piece .butFirst m) ⟨some name, true⟩
  | butLast => .derive name (.piece .butLast m) ⟨some name, true⟩
  | setItem index i => .change name (.setItem index m) i.expr true
  | setFirst i => .change name (.setFirst m) i.expr true
  | clear => .adjust name .clear true

namespace Session.Carries

variable {env : String → Option Addr} {name : String} {extra : Multiset Addr}
  {a x : Addr} {items : List Item} {s t : Session} {i : Item} {e : Edit Item} {m : Mode}

/-- A step with an element, which the command gives up in the end. -/
theorem withOperand {step : Addr → Step Answer} (hs : s.Carries env name 0 x items)
    (hi : i.Known env name)
    (hstep : ∀ a t, t.Carries env name {a} x items → i.Denotes env t.store.heap a →
      (step a).Edits env name {a} m e items t) :
    (Step.withOperand i.expr step).Edits env name 0 m e items s := by
  refine ensures_bind.mpr ((hs.ensures_eval hi).mono ?_ fun _ _ => False.elim)
  rintro a t ⟨ht, hdenotes⟩
  refine ensures_step_holding.mpr ((hstep a t ht hdenotes).mono ?_ ?_)
  · rintro _ u ⟨hanswer, y, items', hrun, hu⟩
    exact ⟨hanswer, y, items', hrun, release (by simpa using hu)⟩
  · rintro _ u ⟨y, r, hrun, hf, hu⟩
    exact ⟨y, r, hrun, hf, release (by simpa using hu)⟩

/-- A change in place. -/
theorem change {c : Change} (hs : s.Carries env name 0 x items) (hi : i.Known env name)
    (he : e.operand? = some i) (hanswer : e.answer = .done) (hc : c.expects = none)
    (hrun : ∀ {held : Multiset Addr} {head a : Addr} {cs as : List Addr} {u : Store},
      u.heap.Unshared held x head cs as → a ∈ held →
        Refines m (e.withOperand a) as (c.run x a) u fun bs _ h => h.Owned held x bs) :
    (Step.perform (.change name c i.expr true)).Edits env name 0 m e items s := by
  refine ensures_bind.mpr (ensures_value_of hs.value? ?_)
  rw [hc]
  refine ensures_bind.mpr (ensures_bind.mpr (ensures_on.mpr (ensures_look.mpr
    (ensures_pure.mpr (hs.withOperand hi ?_)))))
  intro a t ht hdenotes
  obtain ⟨as, ⟨head, cs, hu⟩, hitems⟩ := ht.elements
  have ha : a ∈ Registers.held (Registers.erase name t.registers) + {a} := by simp
  -- the edit of the addresses and that of what they denote end alike
  have hop := (hrun hu ha).related hitems (by
    rintro j hj
    obtain rfl := Option.some.inj (he.symm.trans hj)
    exact hdenotes)
  -- the blocks that last keep their words, so the items go on denoting the same
  have hlasting := (kept_lasting t.store.heap).change_run (x := x) (y := a) ⟨hu.exact, .refl _⟩
    (by simp) (by simp) c (Set.subset_univ _)
  refine ensures_bind.mpr (ensures_on.mpr ((hop.and hlasting).mono ?_ ?_))
  · rintro - u ⟨⟨items', bs, hitems', hrelated, hbs⟩, -, hlast⟩
    have hdenotes := Item.denotes_lasting hrelated hlast fun _ => hbs.live_of_mem
    exact ensures_pure.mpr
      ⟨hanswer.symm, x, items', hitems', ht.sorted, ht.lookup, ht.others, bs, hbs, hdenotes⟩
  · rintro f u ⟨⟨r, hr, hf, rfl⟩, -⟩
    exact ⟨x, r, hr, hf, ht⟩

/-- A new list takes the place of the list once it has been made. -/
theorem keep {y : Addr} {items' : List Item} {bs : List Addr} {u : Store}
    (ht : t.Carries env name extra x items) (hrun : e.run items = .ok items')
    (hanswer : e.answer = .value .list none) (hlasting : t.store.heap.Lasting u.heap)
    (hitems : List.Forall₂ (Item.Denotes env t.store.heap) items' bs)
    (hbs : (u.heap.release x).Owned
      (Registers.held (Registers.erase name t.registers) + extra) y bs) :
    (Step.keep ⟨some name, true⟩ y).Edits env name extra m e items { t with store := u } := by
  have hlast := hlasting.trans (.of_spares (.of_thins (releaseAll_thins u.heap [x])))
  have hdenotes := Item.denotes_lasting hitems hlast fun _ => hbs.live_of_mem
  refine (ensures_keep (s := { t with store := u }) ht.sorted ht.others
    (by rw [ht.lookup]; exact hbs) (by rw [ht.lookup]; exact hdenotes)).mono ?_
      fun _ _ => False.elim
  rintro _ v ⟨rfl, hv⟩
  exact ⟨hanswer.symm, y, items', hrun, hv⟩

/-- One element more in front. -/
theorem cons (hs : s.Carries env name 0 x items) (hi : i.Known env name) :
    (Step.perform (.combine name .cons i.expr ⟨some name, true⟩)).Edits env name 0 m (.cons i)
      items s := by
  have hkind : s.store.heap.kind x = .list := hs.elements.choose_spec.1.kind
  refine ensures_bind.mpr (ensures_value_of hs.value? ?_)
  refine ensures_bind.mpr (ensures_bind.mpr (ensures_on.mpr (ensures_look.mpr ?_)))
  rw [hkind]
  refine ensures_pure.mpr (hs.withOperand hi ?_)
  intro a t ht hdenotes
  obtain ⟨as, ⟨head, cs, hu⟩, hitems⟩ := ht.elements
  have ha : a ∈ Registers.held (Registers.erase name t.registers) + {a} := by simp
  -- consing is an edit as well, whose result is another list
  have hop := (hu.refines_cons (m := m) ha).related (e := .cons i) hitems (by
    rintro j ⟨rfl⟩
    exact hdenotes)
  have hlasting := (kept_lasting t.store.heap).combination_run (x := x) (y := a)
    ⟨hu.exact, .refl _⟩ (by simp) .cons
  refine ensures_bind.mpr (ensures_on.mpr ((hop.and hlasting).mono ?_ ?_))
  · rintro y u ⟨⟨items', bs, hrun, hrelated, hbs⟩, -, hlast⟩
    exact ht.keep hrun rfl hlast hrelated hbs
  · rintro f u ⟨⟨r, hr, hf, rfl⟩, -⟩
    exact ⟨x, r, hr, hf, ht⟩

/-- One element less. -/
theorem derive {p : Piece} (hs : s.Carries env name 0 x items)
    (hanswer : e.answer = .value .list none) (he : e.operand? = none)
    (hrun : ∀ {held : Multiset Addr} {head : Addr} {cs as : List Addr},
      s.store.heap.Unshared held x head cs as →
        Operation.Refines .checked (e.withOperand x) as (p.take x) s.store
          fun bs y h => (h.release x).Owned held y bs) :
    (Step.perform (.derive name (.piece p m) ⟨some name, true⟩)).Edits env name 0 m e items s := by
  refine ensures_bind.mpr (ensures_value_of hs.value? ?_)
  obtain ⟨as, ⟨head, cs, hu⟩, hitems⟩ := hs.elements
  have hop := (hu.refines_piece (m := m) (hrun hu)).related hitems (by simp [he])
  have hlasting := (kept_lasting s.store.heap).derivation_run (x := x)
    ⟨hu.exact, .refl _⟩ (by simp) (.piece p m)
  refine ensures_bind.mpr (ensures_on.mpr ((hop.and hlasting).mono ?_ ?_))
  · rintro _ u ⟨⟨items', bs, hitems', hrelated, y, rfl, hbs⟩, -, hlast⟩
    exact hs.keep hitems' hanswer hlast hrelated hbs
  · rintro f u ⟨⟨r, hr, hf, rfl⟩, -⟩
    exact ⟨x, r, hr, hf, hs⟩

/-- No elements. -/
theorem clear (hs : s.Carries env name 0 x items) :
    (Step.perform (.adjust name .clear true)).Edits env name 0 m .clear items s := by
  refine ensures_bind.mpr (ensures_value_of hs.value? ?_)
  obtain ⟨as, ⟨head, cs, hu⟩, hitems⟩ := hs.elements
  have hop := (hu.refines_clear (m := m)).related (e := .clear) (a := x) hitems (by
    simp [Edit.operand?])
  refine ensures_bind.mpr (ensures_on.mpr (hop.mono ?_ ?_))
  · rintro - u ⟨items', bs, hrun, hrelated, hbs⟩
    obtain rfl := Except.ok.inj hrun
    cases hrelated
    exact ensures_pure.mpr ⟨rfl, x, [], rfl, hs.sorted, hs.lookup, hs.others, [], hbs, .nil⟩
  · rintro f u ⟨r, hr, hf, rfl⟩
    exact ⟨x, r, hr, hf, hs⟩

/-- **One command does what an edit does.** -/
theorem edit (hs : s.Carries env name 0 x items) (he : ∀ i ∈ e.operand?, i.Known env name) :
    (Step.perform (e.command m name)).Edits env name 0 m e items s := by
  cases e with
  | append i => exact hs.change (he i rfl) rfl rfl rfl fun hu ha => hu.refines_append ha
  | prepend i => exact hs.change (he i rfl) rfl rfl rfl fun hu ha => hu.refines_prepend ha
  | cons i => exact hs.cons (he i rfl)
  | butFirst => exact hs.derive rfl rfl fun hu => hu.refines_butFirst
  | butLast => exact hs.derive rfl rfl fun hu => hu.refines_butLast
  | setItem index i => exact hs.change (he i rfl) rfl rfl rfl fun hu ha => hu.refines_setItem ha
  | setFirst i => exact hs.change (he i rfl) rfl rfl rfl fun hu ha => hu.refines_setFirst ha
  | clear => exact hs.clear

/-- What a command for an edit answers, and what the list is after it. -/
theorem step (hs : s.Carries env name 0 x items) (he : ∀ i ∈ e.operand?, i.Known env name) :
    (s.step (e.command m name)).1 = (e.perform m items).1 ∧
      ∃ y, (s.step (e.command m name)).2.Carries env name 0 y (e.perform m items).2 := by
  have hend := hs.edit (m := m) he
  unfold Step.Edits Ensures at hend
  unfold Session.step Edit.perform
  rcases hrun : (Step.perform (e.command m name)).run s with ⟨f | answer, t⟩
  all_goals rw [hrun] at hend
  · obtain ⟨y, r, hr, rfl, ht⟩ := hend
    rw [hr]
    exact ⟨rfl, y, ht⟩
  · obtain ⟨rfl, y, items', hr, ht⟩ := hend
    rw [hr]
    exact ⟨rfl, y, ht⟩

/-- What the commands for some edits answer, and what the list is after them. -/
theorem run {edits : List (Mode × Edit Item)} (hs : s.Carries env name 0 x items)
    (hedits : ∀ p ∈ edits, ∀ i ∈ p.2.operand?, i.Known env name) :
    (s.run (edits.map fun p => p.2.command p.1 name)).1 = (Edit.performAll edits items).1 ∧
      ∃ y, (s.run (edits.map fun p => p.2.command p.1 name)).2.Carries env name 0 y
        (Edit.performAll edits items).2 := by
  induction edits generalizing s x items with
  | nil => exact ⟨rfl, x, hs⟩
  | cons p edits ih =>
    obtain ⟨m, e⟩ := p
    obtain ⟨hanswer, y, hy⟩ := hs.step (m := m) (hedits _ List.mem_cons_self)
    obtain ⟨hanswers, hrest⟩ := ih hy fun p hp => hedits p (List.mem_cons_of_mem _ hp)
    exact ⟨congrArg₂ List.cons hanswer hanswers, hrest⟩

end Session.Carries

/-! ### Runs -/

namespace Session

variable {name : String} {items : List Item} {s : Session}

/-- **A new list** of elements is on a chain of its own in its register. -/
theorem carries_make (hs : s.Sound (fun held h => h.Exact held) 0)
    (hitems : ∀ i ∈ items, i.Known s.value? name) :
    Ensures (Step.perform (.make (.list (items.map Item.expr)) ⟨some name, true⟩)) s
      (fun answer t => answer = .value .list none ∧ ∃ x, t.Carries s.value? name 0 x items)
      fun _ _ => False := by
  have hexact : s.store.heap.Exact s.held := by simpa using hs.kept
  have hheld : ∀ r a, s.value? r = some a → a ∈ s.held := fun _ _ => mem_held_of_value?
  have hmade := kept_exact.evalAll hheld (items.map Item.expr) hexact
  have hdenotes := Item.denotes_evalAll hexact hheld hitems
  obtain ⟨head, cs, hu⟩ := hmade.unshared_listOf
  have hlasting := (kept_lasting _).listOf _ ⟨hmade, .refl _⟩
  set made := Expr.evalAll s.value? (items.map Item.expr) s.store.heap
  -- the handle that the register had is given up for the list
  rw [Session.held, ← Registers.held_erase name hs.sorted] at hu
  have hkept := hu.releaseAll
  have hlast := hlasting.2.trans (.of_spares (.of_thins (releaseAll_thins _
    ((s.registers.lookup name).toList.map Holding.handle))))
  have hlive := Item.denotes_lasting hdenotes hlast fun _ => Owned.live_of_mem ⟨head, cs, hkept⟩
  have hkeep : Ensures (Step.keep ⟨some name, true⟩ (made.2.listOf made.1).1)
      { s with store := { s.store with heap := (made.2.listOf made.1).2 } }
      (fun answer t => answer = .value .list none ∧
        t.Carries s.value? name 0 (made.2.listOf made.1).1 items) fun _ _ => False :=
    Carries.ensures_keep hs.sorted (fun _ _ => rfl) ⟨head, cs, by rw [add_zero]; exact hkept⟩ hlive
  refine ensures_bind.mpr (ensures_bind.mpr (ensures_bound_of
    (fun r => Item.isSome_of_mem_registersAll hitems) (ensures_bind.mpr (ensures_get.mpr ?_))))
  exact ensures_on.mpr (ensures_make.mpr (hkeep.mono (fun _ t ht => ⟨ht.1, _, ht.2⟩)
    fun _ _ => False.elim))

/-- What the list in a register reports: the elements are those that were put in. -/
def Reports (env : String → Option Addr) (name : String) (items : List Item) (s : Session) : Prop :=
  ∃ x as, s.value? name = some x ∧ List.Forall₂ (Item.Denotes env s.store.heap) items as ∧
    s.store.Reports x as

theorem Carries.reports {env : String → Option Addr} {x : Addr}
    (hs : s.Carries env name 0 x items) : s.Reports env name items := by
  obtain ⟨as, ⟨head, cs, hu⟩, hitems⟩ := hs.elements
  exact ⟨x, as, hs.value?, hitems, hu.reports hu.exact⟩

/-- A list made of elements and then edited, in a session with exact counts. -/
theorem run_edits {edits : List (Mode × Edit Item)}
    (hs : s.Sound (fun held h => h.Exact held) 0) (hitems : ∀ i ∈ items, i.Known s.value? name)
    (hedits : ∀ p ∈ edits, ∀ i ∈ p.2.operand?, i.Known s.value? name) :
    let out := s.run (.make (.list (items.map Item.expr)) ⟨some name, true⟩ ::
      edits.map fun p => p.2.command p.1 name)
    out.1 = .value .list none :: (Edit.performAll edits items).1 ∧
      out.2.Reports s.value? name (Edit.performAll edits items).2 := by
  obtain ⟨hanswer, x, hx⟩ := step_of_answer (carries_make hs hitems)
  obtain ⟨hanswers, y, hy⟩ := hx.run hedits
  exact ⟨congrArg₂ List.cons hanswer hanswers, hy.reports⟩

/-- **Lists refine sequences.**  After any run, a list is made of new words, or of values in other
registers, and then edited in any way, in any mode.  The answers are those that the edits of the
sequence give, so an edit is refused only where it does not apply, and appending never is; and after
each of the edits the list reports the elements of the sequence: its size, whether it is empty, its
first and its last element, and what a cursor goes over. -/
theorem list_refines_sequence (cs : List Command) (name : String) (items : List Item)
    (edits : List (Mode × Edit Item))
    (hitems : ∀ i ∈ items, i.Known (run cs {}).2.value? name)
    (hedits : ∀ p ∈ edits, ∀ i ∈ p.2.operand?, i.Known (run cs {}).2.value? name) :
    let s := (run cs {}).2
    let start := Command.make (.list (items.map Item.expr)) ⟨some name, true⟩
    let commands := edits.map fun p => p.2.command p.1 name
    (s.run (start :: commands)).1 = .value .list none :: (Edit.performAll edits items).1 ∧
    (∀ n m i, edits[n]? = some (m, .append i) →
      (s.run (start :: commands)).1[n + 1]? = some .done) ∧
    ∀ n, (s.run (start :: commands.take n)).2.Reports s.value? name
      (Edit.performAll (edits.take n) items).2 := by
  intro s start commands
  have hanswers := (run_edits (exact_sound cs) hitems hedits).1
  refine ⟨hanswers, fun n m i hn => ?_, fun n => ?_⟩
  · rw [hanswers, List.getElem?_cons_succ]
    exact Edit.performAll_append hn
  · rw [← List.map_take]
    exact (run_edits (exact_sound cs) hitems fun p hp =>
      hedits p (List.mem_of_mem_take hp)).2

/-- A list of one word, with another one in front for a while, and a register's value behind. -/
theorem words_edited :
    let s := (run [.build (.words ["p"]) ⟨some "y", true⟩] {}).2
    let a : Item := .word (.text "a" false)
    let b : Item := .word (.text "b" false)
    let edits : List (Mode × Edit Item) :=
      [(.checked, .cons b), (.checked, .butFirst), (.typed, .append (.register "y"))]
    (s.run (.make (.list [a.expr]) ⟨some "x", true⟩ ::
      edits.map fun p => p.2.command p.1 "x")).2.Reports s.value? "x" [a, .register "y"] := by
  intro s a b edits
  have hitems : ∀ i ∈ [a], i.Known s.value? "x" := by simp [a, Item.Known]
  have hy : (s.value? "y").isSome = true := by decide +kernel
  have hedits : ∀ p ∈ edits, ∀ i ∈ p.2.operand?, i.Known s.value? "x" := by
    simp [edits, b, Edit.operand?, Item.Known, hy]
  exact (list_refines_sequence [.build (.words ["p"]) ⟨some "y", true⟩] "x" [a] edits hitems
    hedits).2.2 3

end Session

end SharedValues
