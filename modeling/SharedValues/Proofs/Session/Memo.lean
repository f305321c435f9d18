import SharedValues.Proofs.Heap.Memo
import SharedValues.Proofs.Session.Parsed
import SharedValues.Proofs.Session.Sharing

/-!
# Parsed forms come and go

A list is given a parsed form by one command.  A change of its elements, if it succeeds, writes its
header anew, and so the list forgets the parsed form with its time stamp; a change that fails
leaves the list as it was.  No other command writes the header of a list that is there, except for
the size, and what a list forgets may well be what kept other lists alive, but they forget nothing
as long as they live.

## Main definitions

* `Change.editsList` — the changes that write the header of a list.
* `Session.Edits` — a command changes the elements of a list, and succeeds.

## Main results

* `Change.forgetful_run`, `forgetful_clear` — the list that is changed forgets.
* `Recalling.change_run` — the other lists do not, and no list does if the change fails.
* `Session.step_recalling` — one command.
* `Session.forgotten_when_edited` — every run.
-/

namespace SharedValues

open Heap Operation

/-! ### The list that is changed -/

/-- The changes of a list, in which it is given a new header. -/
def Change.editsList : Change → Bool
  | setItem .. | setFirst _ | setButFirst _ | append _ | prepend => true
  | addChild | setCellItem | setCellNext => false

section Forgetful

variable {s : Store} {x value : Addr} {l : ListHeader}

/-- Whatever comes before, what the last operation ensures holds in the end. -/
theorem ensures_last {α β : Type} {op : Operation α} {f : α → Operation β} {Q : β → Store → Prop}
    (hf : ∀ a t, Ensures (f a) t Q fun _ _ => True) :
    Ensures (op >>= f) s Q fun _ _ => True := by
  refine ensures_bind.mpr ?_
  unfold Ensures
  rcases op.run s with ⟨_ | a, t⟩
  · trivial
  · exact hf a t

/-- A list with a new header forgets. -/
theorem forgetful_replace (head : Addr) (size : ℕ) :
    Ensures (ListHeader.replace x l head size) s (fun _ t => t.heap.Forgetful x)
      fun _ _ => True :=
  ensures_alter.mpr ((forgetful_setBody _ x head size).thins (releaseAll_thins ..))

/-- It does so whatever is given up afterwards. -/
theorem forgetful_replace_release (head : Addr) (size : ℕ) (a : Addr) :
    Ensures (do ListHeader.replace x l head size; Operation.release a) s
      (fun _ t => t.heap.Forgetful x) fun _ _ => True :=
  ensures_bind.mpr ((forgetful_replace head size).mono
    (fun _ _ ht => ensures_release.mpr (ht.thins (releaseAll_thins _ [a]))) fun _ _ => id)

theorem forgetful_append :
    Ensures (l.append x value) s (fun _ t => t.heap.Forgetful x) fun _ _ => True := by
  refine ensures_last fun _ _ => ensures_last fun _ _ => ensures_last fun _ _ =>
    ensures_last fun _ _ => ?_
  split
  · exact forgetful_replace_release _ _ _
  · exact ensures_last fun _ _ => ensures_last fun _ _ => forgetful_replace _ _

theorem forgetful_clear :
    Ensures (l.clear x) s (fun _ t => t.heap.Forgetful x) fun _ _ => True :=
  ensures_last fun _ _ => forgetful_replace_release _ _ _

/-- **The list that is changed forgets**, if the change succeeds. -/
theorem Change.forgetful_run {c : Change} (hc : c.editsList = true)
    (hx : s.heap.body x = .list l) :
    Ensures (c.run x value) s (fun _ t => t.heap.Forgetful x) fun _ _ => True := by
  cases c with
  | setItem index m =>
    refine ensures_call m (ensures_bind.mpr (ensures_look.mpr ?_))
    -- the list is looked at first, and replacing its header is the last step of every edit
    rw [hx]
    exact ensures_last fun _ _ => ensures_last fun _ _ => forgetful_replace _ _
  | setFirst m =>
    refine ensures_call m (ensures_bind.mpr (ensures_look.mpr ?_))
    rw [hx]
    exact ensures_last fun _ _ => ensures_last fun _ _ => forgetful_replace _ _
  | setButFirst m =>
    refine ensures_call m (ensures_bind.mpr (ensures_look.mpr ?_))
    rw [hx]
    exact ensures_last fun _ _ => ensures_last fun _ _ => ensures_last fun _ _ =>
      forgetful_replace _ _
  | append m =>
    refine ensures_bind.mpr (ensures_look.mpr ?_)
    rw [hx]
    exact ensures_call m forgetful_append
  | prepend =>
    exact ensures_last fun _ _ => ensures_last fun _ _ => ensures_last fun _ _ =>
      forgetful_replace _ _
  | addChild | setCellItem | setCellNext => simp [editsList] at hc

end Forgetful

/-! ### All lists -/

section Remembers

variable {s : Store} {held : Multiset Addr} {x z value : Addr} {l : ListHeader} {c : Change}
  {memo : ℕ × List Addr} {w : Option CellWrite}

/-- An operation that writes the header of a list and a field of a cell, or else fails and changes
nothing: no other list forgets. -/
theorem Heap.Remembers.of_other {op : Operation Unit} (hmemo : s.heap.Remembers x memo)
    (hxz : x ≠ z) (hw : Ensures op s (fun _ t => s.heap.Rewritten t.heap z w) fun _ _ => True)
    (hatomic : Operation.Atomic op s) :
    Ensures op s (fun _ t => t.heap.Remembers x memo) fun _ t => t.heap.Remembers x memo :=
  (hw.and hatomic).mono (fun _ _ ht => hmemo.rewritten ht.1 hxz)
    fun _ _ ht => hmemo.unscathed ht.2.1

/-- The list itself forgets. -/
theorem Heap.Remembers.of_written {op : Operation Unit} (hmemo : s.heap.Remembers x memo)
    (hw : Ensures op s (fun _ t => s.heap.Rewritten t.heap z w) fun _ _ => True)
    (hforget : Ensures op s (fun _ t => t.heap.Forgetful z) fun _ _ => True)
    (hatomic : Operation.Atomic op s) :
    Ensures op s (fun _ t => t.heap.Remembers x (if x = z then (0, []) else memo))
      fun _ t => t.heap.Remembers x memo := by
  split_ifs with hxz
  · subst hxz
    exact ((hw.and hforget).and hatomic).mono
      (fun _ _ ht => ⟨hmemo.lt_size.trans_le ht.1.1.size_le, ht.1.2⟩)
      fun _ _ ht => hmemo.unscathed ht.2.1
  · exact hmemo.of_other hxz hw hatomic

/-- A change of what is no list fills an array, or fails. -/
theorem Kept.change_run_of_not_list {A : Set Act} {F : Multiset Addr → Heap → Prop}
    (hF : Kept A F) (hfill : .fill ∈ A) (hh : F held s.heap) (hvalue : value ∈ held)
    (hc : c.editsList = true) (hz : s.heap.kind z ≠ .list) : Keeps F held (c.run z value) s := by
  -- of the values that can be edited only an array is left
  have hno : ∀ {l}, s.heap.body z ≠ .list l := by
    intro l hl
    exact hz (by rw [Heap.kind, hl, Body.kind])
  have hlive := hF.live hh hvalue
  -- arrays keep their counts, and no list is touched
  cases c with
  | setItem index m =>
    refine Keeps.call (ensures_bind.mpr (ensures_look.mpr ?_)) m
    split
    · next hl => exact absurd hl hno
    · next hx => exact hF.row_setItem hfill hh hx hlive index
    · exact unsupported hh _ _
  | setFirst m =>
    refine Keeps.call (ensures_bind.mpr (ensures_look.mpr ?_)) m
    split
    · next hl => exact absurd hl hno
    · next hx => exact hF.row_setFirst hfill hh hx hlive
    · exact unsupported hh _ _
  | setButFirst m =>
    refine Keeps.call (ensures_bind.mpr (ensures_look.mpr ?_)) m
    split
    · next hl => exact absurd hl hno
    · next hx => exact hF.row_setButFirst hfill hh hx
    · exact unsupported hh _ _
  | append m =>
    refine ensures_bind.mpr (ensures_look.mpr ?_)
    split
    · next hx => exact hF.row_append hfill hh hx hlive
    · next hl => exact absurd hl hno
    · exact ensures_throw.mpr hh
  | prepend =>
    refine ensures_bind.mpr (ensures_assert ?_ fun _ _ => hh)
    intro l hl
    exact absurd (body_of_list hl) hno
  | addChild | setCellItem | setCellNext => simp [Change.editsList] at hc

/-- **A change of a list makes it forget**, and no other list; if the change fails, none forgets. -/
theorem Heap.Recalling.change_run (hh : Recalling x memo held s.heap) (hz : z ∈ held)
    (hvalue : value ∈ held) (hc : c.editsList = true) :
    Ensures (c.run z value) s
      (fun _ t => Recalling x (if x = z ∧ s.heap.kind z = .list then (0, []) else memo) held t.heap)
      fun _ t => Recalling x memo held t.heap := by
  cases hl : s.heap.body z with
  | list l =>
    obtain ⟨⟨hexact, hfounded⟩, hmemo⟩ := hh
    have hkept := kept_founded.change_run ⟨hexact, hfounded⟩ hz hvalue c (Set.subset_univ _)
    have hlist : s.heap.kind z = .list := by rw [Heap.kind, hl, Body.kind]
    simp only [hlist, and_true]
    exact Ensures.and hkept (hmemo.of_written (hexact.change_rewritten hfounded hl c)
      (c.forgetful_run hc hl) (c.atomic_run hexact hfounded hvalue))
  | _ =>
    have hlist : s.heap.kind z ≠ .list := by simp [Heap.kind, hl, Body.kind]
    simp only [hlist, and_false, if_false]
    exact (kept_recalling x memo).change_run_of_not_list (by simp) hh hvalue hc hlist

/-- To take all elements from a list never fails. -/
theorem atomic_clear : Operation.Atomic (l.clear x) s :=
  .of_total (ensures_bind.mpr (ensures_make.mpr (ensures_bind.mpr
    (ensures_alter.mpr (ensures_release.mpr trivial)))))

/-! ### New lists -/

/-- A new list of words has a new place. -/
theorem Heap.Exact.size_le_words {h : Heap} (hh : h.Exact held) (raws : List String) :
    h.blocks.size ≤ (h.words raws).1 := by
  have hF := kept_spares h
  exact (hF.chainOf (hF.texts ⟨hh, .refl h⟩ raws)).2.size_le

/-- A new list of words is changed: no list that was there forgets. -/
theorem Heap.Recalling.made (hh : Recalling x memo held s.heap) (raws : List String)
    (edit : Addr → ListHeader → Operation Unit)
    (hedit : ∀ {t : Store} {z : Addr} {l : ListHeader}, Recalling x memo (held + {z}) t.heap →
      x ≠ z → t.heap.body z = .list l →
        Ensures (edit z l) t (fun _ u => u.heap.Remembers x memo)
          fun _ u => u.heap.Remembers x memo) :
    Ensures
      (do
        let z ← Operation.make (·.words raws)
        Operation.keeping z do
          let l ← Operation.assert (·.list z)
          (edit z l).promised
        return z) s
      (fun _ t => t.heap.Remembers x memo) fun _ t => t.heap.Remembers x memo := by
  have hwords := (kept_recalling x memo).words hh raws
  have hne : x ≠ (s.heap.words raws).1 :=
    (hh.2.lt_size.trans_le (hh.1.1.size_le_words raws)).ne
  refine ensures_bind.mpr (ensures_make.mpr (ensures_bind.mpr (ensures_keeping.mpr ?_)))
  refine ensures_bind.mpr (ensures_assert ?_ fun _ _ => hwords.2.thins (releaseAll_thins _ [_]))
  intro l hl
  have hend := hedit (t := ⟨(s.heap.words raws).2, s.settled⟩) hwords hne (body_of_list hl)
  exact ensures_promised.mpr (hend.mono (fun _ _ ht => ensures_pure.mpr ht)
    fun _ _ ht => ht.thins (releaseAll_thins _ [_]))

/-- **No list that is there forgets when a value is made.** -/
theorem Heap.Recalling.source_make (hh : Recalling x memo held s.heap) (source : Source) :
    Yields (Recalling x memo) held source.make s := by
  have hF := kept_recalling x memo
  have hkept := kept_founded.source_make (s := s) hh.1 source (Set.subset_univ _)
  cases source with
  | selfContaining raws =>
    refine Ensures.and hkept (hh.made raws (fun z l => l.append z z) ?_)
    intro t z l ht hxz hl
    exact ht.2.of_other hxz (ht.1.1.rewritten_append ht.1.2 hl .asserted)
      (ht.1.1.atomic_list_append ht.1.2 hl (by simp))
  | circular raws =>
    refine Ensures.and hkept (hh.made raws (fun z l => l.setButFirst z z) ?_)
    intro t z l ht hxz hl
    exact ht.2.of_other hxz (rewritten_setButFirst .asserted) atomic_list_setButFirst
  | _ => exact hF.source_make hh _ (by simp [Source.acts])

end Remembers

/-! ### Tidy lists -/

/-- Only one kind of command gives a list a parsed form. -/
theorem Command.eq_setParsed {c : Command} (hc : .parse ∈ c.acts) :
    ∃ name stamp items quiet, c = .adjust name (.setParsed stamp items) quiet := by
  cases c with
  | build source k => cases source <;> simp [acts, Source.acts] at hc
  | change name c y quiet => cases c <;> simp [acts, Change.acts] at hc
  | adjust name a quiet =>
    cases a with
    | setParsed stamp items => exact ⟨name, stamp, items, quiet, rfl⟩
    | _ => simp [acts, Adjustment.acts] at hc
  | ask name q => cases q <;> simp [acts, Question.acts] at hc
  | _ => simp [acts] at hc

namespace Session

variable {s : Session} {c : Command} {cs : List Command} {x : Addr} {memo memo' : ℕ × List Addr}

/-- A command leaves no list with a parsed form and without a time stamp, unless it gives one a
parsed form without a time stamp. -/
theorem step_tidy (hs : s.Sound (fun held h => h.Exact held ∧ h.Tidy) 0)
    (hc : ∀ name stamp items quiet,
      c = .adjust name (.setParsed stamp items) quiet → stamp ≠ 0) :
    (s.step c).2.Sound (fun held h => h.Exact held ∧ h.Tidy) 0 := by
  by_cases hparse : .parse ∈ c.acts
  · obtain ⟨name, stamp, items, quiet, rfl⟩ := Command.eq_setParsed hparse
    have hF := kept_tidy.subset (B := {.hold}) (by simp) rfl
    have hstamp := hc name stamp items quiet rfl
    refine Kept.step_adjust hs (fun _ => hs) (fun x _ => ?_) quiet
    refine Kept.run_setParsed_of hF hF hs.owns stamp ?_ items
    intro held held' h l parsed hh hx hmove
    refine ⟨hmove.exact hh.1, fun y k hy hk => ?_⟩
    by_cases hyx : y = x
    · -- the list with the parsed form has a time stamp
      subst hyx
      obtain rfl := Body.list.inj ((body_setBody (live_of_body hx (by simp)) _).symm.trans hy)
      exact absurd hk hstamp
    · exact hh.2 y k ((body_setBody_of_ne hyx _).symm.trans hy) hk
  · exact kept_tidy.step hs c fun a ha hact => hparse (hact ▸ ha)

/-- Without a time stamp there is no parsed form in a whole run. -/
theorem tidy_run (hcs : ∀ name stamp items quiet,
    .adjust name (.setParsed stamp items) quiet ∈ cs → stamp ≠ 0) :
    (run cs {}).2.Sound (fun held h => h.Exact held ∧ h.Tidy) 0 := by
  induction cs using List.reverseRecOn with
  | nil => exact sound_empty ⟨exact_empty, fun x l hx => by simp [Heap.body, block?] at hx⟩
  | append_singleton cs c ih =>
    rw [run_concat]
    refine step_tidy (ih fun name stamp items quiet hmem => ?_) fun name stamp items quiet hc => ?_
    · exact hcs name stamp items quiet (List.mem_append_left [c] hmem)
    · exact hcs name stamp items quiet (List.mem_append_right cs (by simp [hc]))

/-! ### Lists that are changed -/

/-- **A command changes the elements of the list at an address**, and the change succeeds. -/
inductive Edits (s : Session) (x : Addr) : Command → Prop
  /-- By a second value. -/
  | change {name : String} {c : Change} {y : Expr} {quiet : Bool} {value : Addr} {u : Session}
      {t : Store} :
    s.value? name = some x → c.editsList = true → (Step.eval y).run s = (.ok value, u) →
    u.store.heap.kind x = .list → (c.run x value).run u.store = (.ok (), t) →
    s.Edits x (.change name c y quiet)
  /-- All elements are taken away. -/
  | clear {name : String} {quiet : Bool} {u : Session} :
    s.value? name = some x → (Adjustment.clear.run x).run s = (.ok (), u) →
    s.Edits x (.adjust name .clear quiet)

/-- A change with both values at hand. -/
theorem edits_change_iff {name : String} {d : Change} {y : Expr} {quiet : Bool} {z value : Addr}
    {u : Session} (hname : s.value? name = some z) (hd : d.editsList = true)
    (hy : (Step.eval y).run s = (.ok value, u)) :
    s.Edits x (.change name d y quiet) ↔ (x = z ∧ u.store.heap.kind z = .list) ∧
      ∃ t, (d.run z value).run u.store = (.ok (), t) := by
  constructor
  · intro he
    cases he with
    | change hx _ hy' hlist hr =>
      obtain rfl := Option.some.inj (hx.symm.trans hname)
      obtain ⟨hvalue, rfl⟩ := Prod.mk.inj (hy.symm.trans hy')
      obtain rfl := Except.ok.inj hvalue
      exact ⟨⟨rfl, hlist⟩, _, hr⟩
  · rintro ⟨⟨rfl, hlist⟩, t, hr⟩
    exact .change hname hd hy hlist hr

theorem edits_clear_iff {name : String} {quiet : Bool} {z : Addr} (hname : s.value? name = some z) :
    s.Edits x (.adjust name .clear quiet) ↔
      x = z ∧ ∃ u, (Adjustment.clear.run z).run s = (.ok (), u) := by
  constructor
  · intro he
    cases he with
    | clear hx hr =>
      obtain rfl := Option.some.inj (hx.symm.trans hname)
      exact ⟨rfl, _, hr⟩
  · rintro ⟨rfl, u, hr⟩
    exact .clear hname hr

/-- A change in place needs a value to change, and one to store. -/
theorem Edits.exists_values {name : String} {d : Change} {y : Expr} {quiet : Bool}
    (he : s.Edits x (.change name d y quiet)) :
    s.value? name = some x ∧ d.editsList = true ∧
      ∃ value u, (Step.eval y).run s = (.ok value, u) := by
  cases he with
  | change hx hd hy _ _ => exact ⟨hx, hd, _, _, hy⟩

/-- A step that makes a list forget if it succeeds, and nothing otherwise: what the list remembers
in the end follows from whether it succeeds. -/
theorem ensures_forgotten {σ : Type} {step : ExceptT Fault (StateM σ) Unit} {t : σ}
    {G : ℕ × List Addr → σ → Prop} {p edited : Prop} [Decidable p]
    (hstep : Ensures step t (fun _ u => G (if p then (0, []) else memo) u) fun _ u => G memo u)
    (hiff : edited ↔ p ∧ ∃ u, step.run t = (.ok (), u)) (hedits : edited → memo' = (0, []))
    (hkeeps : ¬edited → memo' = memo) :
    Ensures step t (fun _ u => G memo' u) fun _ u => G memo' u := by
  rcases hr : step.run t with ⟨f | ⟨⟩, u⟩
  · obtain rfl := hkeeps (by
      rw [hiff]
      rintro ⟨-, u', hr'⟩
      cases hr.symm.trans hr')
    exact (ensures_of_error hr).mpr ((ensures_of_error hr).mp hstep)
  · have hend := (ensures_of_ok hr).mp hstep
    have hmemo : (if p then (0, []) else memo) = memo' := by
      split_ifs with hp
      · exact (hedits (hiff.mpr ⟨hp, u, hr⟩)).symm
      · exact (hkeeps fun he => hp (hiff.mp he).1).symm
    rw [hmemo] at hend
    exact (ensures_of_ok hr).mpr hend

/-- A change of a list, as a command. -/
theorem step_change (hs : s.Sound (Recalling x memo) 0) {name : String} {d : Change} {y : Expr}
    {quiet : Bool} (hd : d.editsList = true)
    (hedits : s.Edits x (.change name d y quiet) → memo' = (0, []))
    (hkeeps : ¬s.Edits x (.change name d y quiet) → memo' = memo) :
    (s.step (.change name d y quiet)).2.Sound (Recalling x memo') 0 := by
  cases hname : s.value? name with
  | none =>
    obtain rfl := hkeeps fun he => by simpa [hname] using he.exists_values.1
    refine step_of_ensures (ensures_bind.mpr (ensures_value ?_ hs))
    intro z hz
    exact absurd (hname.symm.trans hz) (by simp)
  | some z =>
    have hexpects : d.expects = none := by
      cases d <;> first | rfl | simp [Change.editsList] at hd
    have heval := (kept_recalling x memo).step_eval hs.owns y
    refine step_of_ensures (ensures_bind.mpr (ensures_value_of hname ?_))
    refine ensures_bind.mpr (ensures_promise_of (by simp [hexpects]) (ensures_bind.mpr ?_))
    rcases hy : (Step.eval y).run s with ⟨f | value, u⟩
    · obtain rfl := hkeeps fun he => by
        obtain ⟨-, -, value, u', hy'⟩ := he.exists_values
        cases hy.symm.trans hy'
      exact (ensures_of_error hy).mpr (((ensures_of_error hy).mp heval).sound hs.sorted)
    have hu := (ensures_of_ok hy).mp heval
    have hz : z ∈ s.registers.held + (0 + {value}) :=
      Multiset.mem_add.mpr (Or.inl (mem_held_of_value? hname))
    have hrun := ensures_forgotten
      (G := fun m (t : Store) => Recalling x m (s.registers.held + (0 + {value})) t.heap)
      (hu.kept.change_run hz (by simp) hd) (edits_change_iff hname hd hy) hedits hkeeps
    -- the value is given up when the change has ended
    have hend : ∀ (t : Session), t.Owns (Recalling x memo') s.registers (0 + {value}) →
        ({ t with store := { t.store with heap := t.store.heap.release value } } : Session).Sound
          (Recalling x memo') 0 :=
      fun t ht => ((kept_recalling x memo').step_release ht).sound hs.sorted
    refine (ensures_of_ok hy).mpr (ensures_step_holding.mpr (ensures_bind.mpr
      (ensures_on.mpr (hrun.mono (fun _ t ht => ?_) fun _ t ht => hend _ ⟨hu.registers_eq, ht⟩))))
    exact (Kept.step_changed (s := { u with store := t }) ⟨hu.registers_eq, ht⟩ z quiet).mono
      (fun _ => hend) fun _ => hend

/-- All elements are taken from a list, as a command. -/
theorem step_clear (hs : s.Sound (Recalling x memo) 0) {name : String} {quiet : Bool}
    (hedits : s.Edits x (.adjust name .clear quiet) → memo' = (0, []))
    (hkeeps : ¬s.Edits x (.adjust name .clear quiet) → memo' = memo) :
    (s.step (.adjust name .clear quiet)).2.Sound (Recalling x memo') 0 := by
  refine Kept.step_adjust hs (fun hname => ?_) (fun z hz => ?_) quiet
  · obtain rfl := hkeeps fun he => by
      cases he with
      | clear hx _ => simp [hname] at hx
    exact hs
  have hkept := kept_founded.adjustment_run (x := z)
    (⟨rfl, hs.owns.kept.1⟩ : s.Owns _ s.registers 0) .clear (Set.subset_univ _)
  -- clearing empties the header in one step, so the parsed form goes with the cells
  have hclear : Ensures (Adjustment.clear.run z) s
      (fun _ t => t.store.heap.Remembers x (if x = z then (0, []) else memo))
      fun _ t => t.store.heap.Remembers x memo := by
    rw [Adjustment.run]
    refine ensures_on.mpr (ensures_bind.mpr (ensures_assert (fun l _ => ?_) fun _ _ => hs.kept.2))
    exact hs.kept.2.of_written rewritten_clear forgetful_clear atomic_clear
  refine ensures_forgotten (G := fun m (t : Session) => t.Owns (Recalling x m) s.registers 0)
    ((hkept.and hclear).mono ?_ ?_) (edits_clear_iff hz) hedits hkeeps
  · exact fun _ _ ht => ⟨ht.1.registers_eq, ht.1.kept, ht.2⟩
  · exact fun _ _ ht => ⟨ht.1.registers_eq, ht.1.kept, ht.2⟩

/-- A list is given a parsed form: the others forget nothing, and if it is not given one, it forgets
nothing either. -/
theorem step_setParsed (hs : s.Sound (Recalling x memo) 0) {name : String} {stamp : ℕ}
    {items : List Expr} {quiet : Bool}
    (hparsed : s.parsedBy (.adjust name (.setParsed stamp items) quiet) ≠ some x) :
    (s.step (.adjust name (.setParsed stamp items) quiet)).2.Sound (Recalling x memo) 0 := by
  have hF := (kept_recalling x memo).subset (B := {.hold}) (by simp) rfl
  refine Kept.step_adjust hs (fun _ => hs) (fun z hz => ?_) quiet
  -- the parsed form of another list is none of this one's, and setting this one's can only fail
  by_cases hxz : x = z
  · subst hxz
    have hrun := Kept.run_setParsed_of (x := x) hF (kept_exact.subset (Set.subset_univ _) rfl)
      hs.owns stamp (fun hh _ hmove => hmove.exact hh.1.1) items
    rcases hr : ((Adjustment.setParsed stamp items).run x).run s with ⟨f | ⟨⟩, u⟩
    -- if it fails, the parsed form is as it was
    · exact (ensures_of_error hr).mpr ((ensures_of_error hr).mp hrun)
    · refine absurd ?_ hparsed
      rw [parsedBy, hz, Option.filter_some, if_pos (by rw [hr]; rfl)]
  · refine Kept.run_setParsed_of hF hF hs.owns stamp ?_ items
    intro held held' h l parsed hh hx hmove
    exact ⟨⟨hmove.exact hh.1.1, hmove.founded hh.1.2⟩, hh.2.of_body hmove.lasting.size_le
      fun _ hl => (body_setBody_of_ne hxz _).symm.trans hl⟩

/-- **What a list remembers after a command** that does not give it a parsed form: nothing if the
command changes its elements, and otherwise what it remembered before. -/
theorem step_recalling (hs : s.Sound (Recalling x memo) 0) (hparsed : s.parsedBy c ≠ some x)
    (hedits : s.Edits x c → memo' = (0, [])) (hkeeps : ¬s.Edits x c → memo' = memo) :
    (s.step c).2.Sound (Recalling x memo') 0 := by
  have hF := kept_recalling x memo
  -- building, editing and clearing can touch a list; all else leaves its memo alone
  cases c with
  | build source k =>
    obtain rfl := hkeeps (by rintro ⟨⟩)
    exact step_of_ensures (ensures_bind.mpr ((Kept.step_yields hs.owns
      (hs.owns.kept.source_make source)).mono (fun _ _ ht => hF.step_keep hs.sorted ht k)
        fun _ _ ht => ht.sound hs.sorted))
  | change name d y quiet =>
    cases hd : d.editsList with
    | true => exact step_change hs hd hedits hkeeps
    | false =>
      obtain rfl := hkeeps fun he => by simpa [hd] using he.exists_values.2.1
      refine hF.step hs _ ?_
      cases d <;> simp [Change.editsList] at hd <;> simp [Command.acts, Change.acts]
  | adjust name a quiet =>
    cases a with
    | clear => exact step_clear hs hedits hkeeps
    | setParsed stamp items =>
      obtain rfl := hkeeps (by rintro ⟨⟩)
      exact step_setParsed hs hparsed
    | _ =>
      obtain rfl := hkeeps (by rintro ⟨⟩)
      exact hF.step hs _ (by simp [Command.acts, Adjustment.acts])
  | ask name q =>
    obtain rfl := hkeeps (by rintro ⟨⟩)
    refine hF.step hs _ ?_
    cases q <;> simp [Command.acts, Question.acts]
  | _ =>
    obtain rfl := hkeeps (by rintro ⟨⟩)
    exact hF.step hs _ (by simp [Command.acts])

/-- **Parsed forms in a run.**  As long as no list is given a parsed form without a time stamp, no
list without a time stamp has a parsed form.  Whenever a command changes the elements of a list, and
the change succeeds, the list has neither afterwards; and no other command changes the one or the
other, be it a change that fails, unless it gives this very list a parsed form. -/
theorem forgotten_when_edited (cs : List Command) :
    ((∀ name stamp items quiet, .adjust name (.setParsed stamp items) quiet ∈ cs → stamp ≠ 0) →
      ∀ x l, (run cs {}).2.store.heap.body x = .list l → l.stamp = 0 → l.parsed = []) ∧
    ∀ c x l l', (run cs {}).2.store.heap.body x = .list l →
      (run (cs ++ [c]) {}).2.store.heap.body x = .list l' →
      ((run cs {}).2.Edits x c → l'.stamp = 0 ∧ l'.parsed = []) ∧
      (¬(run cs {}).2.Edits x c → (run cs {}).2.parsedBy c ≠ some x →
        l'.stamp = l.stamp ∧ l'.parsed = l.parsed) := by
  refine ⟨fun hcs => (tidy_run hcs).kept.2, fun c x l l' hl hl' => ?_⟩
  have hfounded := founded_sound cs
  -- before the command the list remembers the memo it has
  have hs : (run cs {}).2.Sound (Recalling x l.memo) 0 := by
    refine ⟨hfounded.sorted, hfounded.kept, (live_of_body hl (by simp)).lt_size, fun k hk => ?_⟩
    rw [Body.list.inj (hk.symm.trans hl)]
  rw [run_concat] at hl'
  constructor
  · intro hedits
    have hparsed : (run cs {}).2.parsedBy c ≠ some x := by cases hedits <;> simp [parsedBy]
    have hend : ((run cs {}).2.step c).2.Sound (Recalling x (0, [])) 0 :=
      step_recalling hs hparsed (fun _ => rfl) (absurd hedits)
    exact Prod.mk.inj (hend.kept.2.memo_eq l' hl')
  · intro hedits hparsed
    have hend := step_recalling hs hparsed (fun he => absurd he hedits) fun _ => rfl
    exact Prod.mk.inj (hend.kept.2.memo_eq l' hl')

/-- A list with a parsed form forgets it when an element is put in front. -/
theorem forgotten_when_prepended :
    let cs : List Command := [.build (.words ["a"]) ⟨some "x", true⟩,
      .adjust "x" (.setParsed 1 [.text "b" false]) true]
    let c : Command := .change "x" .prepend (.text "c" false) true
    (run cs {}).2.store.heap.body 3 = .list { head := 2, size := 1, stamp := 1, parsed := [4] } ∧
      ∀ l', (run (cs ++ [c]) {}).2.store.heap.body 3 = .list l' →
        l'.stamp = 0 ∧ l'.parsed = [] := by
  intro cs c
  have hx : (run cs {}).2.store.heap.body 3 =
      .list { head := 2, size := 1, stamp := 1, parsed := [4] } := by decide +kernel
  refine ⟨hx, fun l' hl' => ((forgotten_when_edited cs).2 c 3 _ l' hx hl').1 ?_⟩
  have hname : (run cs {}).2.value? "x" = some 3 := by decide +kernel
  have hy : ((Step.eval (.text "c" false)).run (run cs {}).2).1 = .ok 5 := by decide +kernel
  exact .change hname rfl (Prod.ext hy rfl) (by decide +kernel) (Prod.ext (by decide +kernel) rfl)

end Session

end SharedValues
