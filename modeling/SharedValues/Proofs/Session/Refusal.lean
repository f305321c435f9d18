import SharedValues.Proofs.Session.Run

/-!
# Changes that fail

A change that ends in a fault changes nothing.  Most faults strike before anything is written.  Only
appending makes its new cell first, and gives it up again if it fails: the cell is freed, and so are
the handles in it, to the value and to nothing.  The value is held by the caller meanwhile, and
nothing is there already if there is a list, so neither of the two comes or goes with its handle.

## Main definitions

* `Heap.Unscathed` — the blocks are what they were, whatever has come and gone.

## Main results

* `kept_founded` — there is nothing, to end chains with, where there are lists.
* `Exact.unscathed_withCell` — a cell that is made and given up leaves no trace.
* `Change.atomic_run` — a change that fails restores the heap.
* `Session.failed_change` — so does the command, and it gives up the value.
-/

namespace SharedValues

open Heap Operation

/-! ### There is nothing where there are lists -/

namespace Heap

variable {h g : Heap} {a x : Addr} {l : ListHeader}

/-- Nothing is never given up. -/
theorem isSome_nothingAt_discharge {tasks : List Task} (hs : h.nothingAt.isSome = true) :
    (h.discharge tasks).nothingAt.isSome = true := by
  fun_induction Heap.discharge h tasks with
  | case1 h => exact hs
  | case5 h a rest b hb hlast item next hc ih =>
    -- a dying cell makes sure of nothing
    exact ih (Option.isSome_iff_exists.mpr ⟨_, nothingAt_nothing _⟩)
  | _ => rename_i ih; exact ih hs

theorem isSome_nothingAt_relink {c item m : Addr} {as : List Addr}
    (hs : h.nothingAt.isSome = true) : (h.relink c item m as x l).nothingAt.isSome = true := by
  show (((h.retain m).setBody c (.cell item m)).releaseAll as).nothingAt.isSome = true
  exact isSome_nothingAt_discharge hs

theorem nothingAt_ensureTruth (h : Heap) (value : Bool) :
    (h.ensureTruth value).2.nothingAt = h.nothingAt := by
  unfold ensureTruth
  split
  · rfl
  · cases value <;> rfl

/-- The word for a truth value is no list. -/
theorem list_of_ensureTruth {value : Bool} (hx : (h.ensureTruth value).2.body x = .list l) :
    h.body x = .list l := by
  have hnew : ∀ {w : Word}, (h.alloc (.word w) true).2.body x = .list l → h.body x = .list l := by
    intro w hw
    rw [body_alloc] at hw
    split at hw
    · exact absurd hw (by simp)
    · exact hw
  unfold ensureTruth at hx
  split at hx
  · exact hx
  · cases value <;> exact hnew hx

/-- The lists that are there are founded if there were lists, and nothing has stayed. -/
theorem Founded.of_list (hh : h.Founded) (hx : h.body x = .list l)
    (hg : h.nothingAt.isSome = true → g.nothingAt.isSome = true) : g.Founded :=
  fun _ _ _ => hg (hh x l hx)

/-- The lists that are there were there. -/
theorem Founded.of_body (hh : h.Founded) (hg : g.nothingAt = h.nothingAt)
    (hbody : ∀ x l, g.body x = .list l → h.body x = .list l) : g.Founded := by
  intro x l hx
  rw [hg]
  exact hh x l (hbody x l hx)

/-- A new content that is no list. -/
theorem Founded.setBody {body : Body} (hh : h.Founded) (ha : h.Live a)
    (hbody : ∀ l, body ≠ .list l) : (h.setBody a body).Founded := by
  refine hh.of_body rfl ?_
  intro x l hx
  by_cases hxa : x = a
  · subst hxa
    exact absurd ((body_setBody ha body).symm.trans hx) (hbody l)
  · exact (body_setBody_of_ne hxa body).symm.trans hx

end Heap

/-- Every move leaves nothing where there are lists. -/
theorem Move.founded {act : Act} {c d : Custody} (hm : Move act c d) (hc : c.heap.Founded) :
    d.heap.Founded := by
  cases hm with
  | retain _ => exact hc.of_body rfl fun x l hx => (body_retain ..).symm.trans hx
  | freeze _ => exact hc.of_body rfl fun x l hx => (body_freeze ..).symm.trans hx
  | usage => exact hc
  | nothing => exact fun _ _ _ => Option.isSome_iff_exists.mpr ⟨_, nothingAt_nothing _⟩
  | @releaseAll h held as =>
    intro x l hx
    have hold := ((releaseAll_thins h as).body_eq (live_of_body hx (by simp))).symm.trans hx
    exact isSome_nothingAt_discharge (hc x l hold)
  | truth value =>
    exact hc.of_body (nothingAt_ensureTruth _ value) fun x l hx => list_of_ensureTruth hx
  | @alloc h held body hfresh =>
    intro x l hx
    rw [body_alloc] at hx
    split at hx
    · exact hfresh.founded hx hc
    · exact hc x l hx
  | slots hx _ => exact hc.setBody (live_of_body hx (by simp)) (by simp)
  | children hx _ => exact hc.setBody (live_of_body hx (by simp)) (by simp)
  | item hx _ => exact hc.setBody (live_of_body hx (by simp)) (by simp)
  | link hx _ => exact hc.setBody (live_of_body hx (by simp)) (by simp)
  -- the others have a list at hand
  | header hx _ _ => exact hc.of_list hx id
  | prepend hx => exact hc.of_list hx id
  | recount hx _ => exact hc.of_list hx id
  | parse hx _ => exact hc.of_list hx id
  | extend hx => exact hc.of_list hx isSome_nothingAt_relink
  | tail hx => exact hc.of_list hx isSome_nothingAt_relink

/-- **There is nothing, to end chains with, where there are lists.** -/
theorem kept_founded : Kept Set.univ fun held h => h.Exact held ∧ h.Founded :=
  ⟨Set.mem_univ _, And.left, fun _ hm hc => ⟨hm.exact hc.1, hm.founded hc.2⟩⟩

/-! ### A cell that comes and goes -/

namespace Heap

variable {h : Heap} {held : Multiset Addr} {a value : Addr} {b : Block} {rest : List Task}

/-- **The blocks are what they were**, with their contents, marks and counts, whatever has come and
gone meanwhile. -/
structure Unscathed (h g : Heap) : Prop where
  /-- The blocks. -/
  block?_eq : ∀ a, g.block? a = h.block? a
  /-- Their number. -/
  live_eq : g.live = h.live
  /-- The place of nothing. -/
  nothingAt_eq : g.nothingAt = h.nothingAt
  /-- The places of the truth values. -/
  truthAt_eq : g.trueAt = h.trueAt ∧ g.falseAt = h.falseAt
  /-- Addresses may have been given out. -/
  size_le : h.blocks.size ≤ g.blocks.size
  /-- There may have been more blocks. -/
  peak_le : h.peak ≤ g.peak

theorem Unscathed.refl (h : Heap) : h.Unscathed h :=
  ⟨fun _ => rfl, rfl, rfl, ⟨rfl, rfl⟩, Nat.le_refl _, Nat.le_refl _⟩

/-- A handle to a block that stays is given up. -/
theorem discharge_drop_of_stays (hb : h.block? a = some b)
    (hstays : b.permanent = true ∨ 1 < b.count) :
    h.discharge (.drop a :: rest) = (h.uncount a).discharge rest := by
  rw [discharge_drop hb, if_pos hstays]

/-- A link to a permanent block is a handle like any other. -/
theorem discharge_unlink_of_permanent (hb : h.block? a = some b) (hperm : b.permanent = true) :
    h.discharge (.unlink a :: rest) = (h.uncount a).discharge rest := by
  rw [discharge_unlink hb, if_pos (Or.inl hperm), discharge_drop_of_stays hb (Or.inl hperm)]

/-- A handle that is given up as soon as it is taken. -/
theorem block?_uncount_retain (h : Heap) (a b : Addr) :
    ((h.retain a).uncount a).block? b = h.block? b := by
  rw [block?_uncount, block?_retain]
  split
  · cases h.block? b <;> simp
  · rfl

theorem ensureNothing_of_some {n : Addr} (hn : h.nothingAt = some n) :
    h.ensureNothing = (n, h) := by
  rw [ensureNothing, hn]

/-- A block that is taken out as soon as it is made. -/
theorem block?_remove_alloc (h : Heap) (body : Body) (a : Addr) :
    ((h.alloc body).2.remove h.blocks.size).block? a = h.block? a := by
  rw [block?_remove, block?_alloc]
  split
  · next ha => simp [block?, ← ha]
  · next ha => rw [if_neg (Ne.symm ha)]

/-- The new cell takes a handle to the value and one to nothing. -/
theorem withCell_of_some {n : Addr} (hn : h.nothingAt = some n) (value : Addr) :
    h.withCell value = (((h.retain value).retain n).alloc (.cell value n)).2 ∧
      h.cellFor value = ((h.retain value).retain n).blocks.size := by
  have hmade : (h.retain value).nothing = (n, (h.retain value).retain n) := by
    rw [Heap.nothing, ensureNothing_of_some (h := h.retain value) hn]
  exact ⟨by rw [withCell, hmade], by rw [cellFor, hmade]⟩

/-- A new cell that is given up is taken out, and with it go the handles in it. -/
theorem release_alloc_cell {n : Addr} {e v : Block} (hn : h.nothingAt = some n)
    (he : h.block? n = some e) (hperm : e.permanent = true)
    (hv : (h.uncount n).block? value = some v) (hstays : v.permanent = true ∨ 1 < v.count) :
    (h.alloc (.cell value n)).2.release h.blocks.size =
      ((((h.alloc (.cell value n)).2.remove h.blocks.size).uncount n).uncount value).countOut := by
  have hcell : (h.alloc (.cell value n)).2.block? h.blocks.size =
      some { body := .cell value n } := by
    rw [block?_alloc, if_pos rfl]
  have hnothing : ((h.alloc (.cell value n)).2.remove h.blocks.size).nothingAt = some n := hn
  have he' := (block?_remove_alloc h (.cell value n) n).trans he
  have hv' : (((h.alloc (.cell value n)).2.remove h.blocks.size).uncount n).block? value =
      some v := by
    rw [block?_uncount, block?_remove_alloc, ← block?_uncount, hv]
  rw [Heap.release, discharge_drop hcell, if_neg (by simp)]
  simp only [Body.cell?]
  rw [ensureNothing_of_some hnothing, discharge_unlink_of_permanent he' hperm,
    discharge_drop_of_stays hv' hstays, Heap.discharge, Heap.discharge]

/-- **A cell that is made and given up leaves no trace**, if the value in it is held and nothing is
there already. -/
theorem Exact.unscathed_withCell (hh : h.Exact held) (hvalue : value ∈ held)
    (hnothing : h.nothingAt.isSome = true) :
    h.Unscathed ((h.withCell value).release (h.cellFor value)) := by
  obtain ⟨n, hn⟩ := Option.isSome_iff_exists.mp hnothing
  obtain ⟨v, hv⟩ := hh.live_of_held hvalue
  obtain ⟨e, he, hperm, -⟩ := hh.nothing_at hn
  obtain ⟨hwith, hcell⟩ := withCell_of_some hn value
  set k := (h.retain value).retain n
  obtain ⟨e', he', hperm'⟩ : ∃ e', k.block? n = some e' ∧ e'.permanent = true := by
    simp only [k, block?_retain, he]
    split_ifs <;> simp [hperm]
  -- the value has a handle that was there before, or it is permanent
  have hv' : (k.uncount n).block? value = some { v with count := v.count + 1 } := by
    rw [block?_uncount_retain, block?_retain, if_pos rfl, hv, Option.map_some]
  have hstays : v.permanent = true ∨ 1 < v.count + 1 := (hh.used hv).imp_right Nat.succ_lt_succ
  rw [hwith, hcell, release_alloc_cell (h := k) hn he' hperm' hv' hstays]
  refine ⟨?_, ?_, ?_, ⟨?_, ?_⟩, ?_, ?_⟩
  · intro a
    rw [block?_countOut, block?_uncount, block?_uncount, block?_remove_alloc, ← block?_uncount,
      block?_uncount_retain, ← block?_uncount, block?_uncount_retain]
  all_goals
    simp [k, Heap.countOut, Heap.uncount, Heap.modify, Heap.remove, Heap.alloc, Heap.retain]

end Heap

/-! ### Changes -/

/-- **An operation either ends with a result or changes nothing.** -/
def Operation.Atomic {α : Type} (op : Operation α) (s : Store) : Prop :=
  Ensures op s (fun _ _ => True) fun _ t => s.heap.Unscathed t.heap ∧ t.settled = s.settled

namespace Operation.Atomic

variable {α β : Type} {s : Store}

theorem throw (f : Fault) : Atomic (throw f : Operation α) s := ensures_throw.mpr ⟨.refl _, rfl⟩

theorem alter (f : Heap → Heap) : Atomic (alter f) s := ensures_alter.mpr trivial

/-- An operation that always ends with a result. -/
theorem of_total {op : Operation α} (hop : Ensures op s (fun _ _ => True) fun _ _ => False) :
    Atomic op s :=
  hop.mono (fun _ _ _ => trivial) fun _ _ => False.elim

theorem look {f : Heap → α} {op : α → Operation β} (hop : Atomic (op (f s.heap)) s) :
    Atomic (Operation.look f >>= op) s :=
  ensures_bind.mpr (ensures_look.mpr hop)

/-- A check that comes before anything is written. -/
theorem check {f : Heap → Except Fault α} {op : α → Operation β}
    (hop : ∀ a, f s.heap = .ok a → Atomic (op a) s) : Atomic (Operation.check f >>= op) s :=
  ensures_bind.mpr (ensures_check hop fun _ _ => ⟨.refl _, rfl⟩)

theorem assert {f : Heap → Except Refusal α} {op : α → Operation β}
    (hop : ∀ a, f s.heap = .ok a → Atomic (op a) s) : Atomic (Operation.assert f >>= op) s :=
  ensures_bind.mpr (ensures_assert hop fun _ _ => ⟨.refl _, rfl⟩)

theorem demand {f : Heap → Except Refusal α} {op : α → Operation β}
    (hop : ∀ a, f s.heap = .ok a → Atomic (op a) s) : Atomic (Operation.demand f >>= op) s :=
  ensures_bind.mpr (ensures_demand hop fun _ _ => ⟨.refl _, rfl⟩)

/-- The mode changes the fault, not what it leaves behind. -/
theorem call {op : Operation α} (hop : Atomic op s) (m : Mode) : Atomic (m.call op) s := by
  cases m
  · exact hop
  · exact ensures_promised.mpr hop
  · exact ensures_promised.mpr hop

end Operation.Atomic

section Changes

variable {s : Store} {held : Multiset Addr} {c x value : Addr} {l : ListHeader} {r : Row}

/-- A cell gets another element, whatever becomes of the old one. -/
theorem ensures_setCellItem (hc : s.heap.kind c = .cell) :
    Ensures (ListHeader.setCellItem c value) s (fun _ _ => True) fun _ _ => False := by
  obtain ⟨item, next, hbody⟩ := exists_cell_of_kind hc
  exact ensures_bind.mpr ((ensures_assert_of_ok (cell_eq_ok hbody)).mpr
    (ensures_alter.mpr trivial))

theorem atomic_list_setItem (index : ℤ) : Atomic (l.setItem x index value) s := by
  apply Atomic.check
  intro c hc
  apply Atomic.of_total
  exact ensures_bind.mpr ((ensures_setCellItem (ListHeader.cellAt_eq_ok hc).2.2).mono
    (fun _ _ _ => ensures_alter.mpr trivial) fun _ _ => id)

theorem atomic_list_setFirst : Atomic (l.setFirst x value) s := by
  apply Atomic.check
  rintro ⟨c, item, next⟩ hc
  obtain ⟨rfl, hbody⟩ := ListHeader.firstCell_eq_ok hc
  apply Atomic.of_total
  exact ensures_bind.mpr ((ensures_setCellItem (by rw [Heap.kind, hbody]; rfl)).mono
    (fun _ _ _ => ensures_alter.mpr trivial) fun _ _ => id)

theorem atomic_list_setButFirst : Atomic (l.setButFirst x value) s :=
  ensures_setButFirst (fun _ => ⟨.refl _, rfl⟩) fun _ _ _ _ _ => trivial

/-- Appending makes the new cell before it looks for the last one. -/
theorem Heap.Exact.atomic_list_append (hh : s.heap.Exact held) (hfounded : s.heap.Founded)
    (hx : s.heap.body x = .list l) (hvalue : value ∈ held) : Atomic (l.append x value) s :=
  ensures_append (fun _ => trivial)
    (fun _ _ _ => ⟨hh.unscathed_withCell hvalue (hfounded x l hx), rfl⟩) fun _ _ _ _ _ _ => trivial

theorem atomic_row_setItem (index : ℤ) : Atomic (r.setItem x index value) s :=
  .check fun _ _ => .alter _

theorem atomic_row_setFirst : Atomic (r.setFirst x value) s := .check fun _ _ => .alter _

theorem atomic_row_setButFirst : Atomic (r.setButFirst x value) s :=
  .demand fun _ _ => .check fun _ _ => .alter _

/-- **A change that fails restores the heap**, whatever it was to change and in whatever mode. -/
theorem Change.atomic_run (hh : s.heap.Exact held) (hfounded : s.heap.Founded)
    (hvalue : value ∈ held) (c : Change) : Atomic (c.run x value) s := by
  -- each change looks at the kind of the value first, and makes its checks before it writes
  cases c with
  | setItem index mode =>
    refine Atomic.call (.look ?_) mode
    cases hx : s.heap.body x with
    | list l => exact atomic_list_setItem index
    | array origin slots => exact atomic_row_setItem index
    | _ => exact .throw _
  | setFirst mode =>
    refine Atomic.call (.look ?_) mode
    cases hx : s.heap.body x with
    | list l => exact atomic_list_setFirst
    | array origin slots => exact atomic_row_setFirst
    | _ => exact .throw _
  | setButFirst mode =>
    refine Atomic.call (.look ?_) mode
    cases hx : s.heap.body x with
    | list l => exact atomic_list_setButFirst
    | array origin slots => exact atomic_row_setButFirst
    | _ => exact .throw _
  | append mode =>
    refine Atomic.look ?_
    cases hx : s.heap.body x with
    | list l => exact (hh.atomic_list_append hfounded hx hvalue).call mode
    | array origin slots => exact .alter _
    | _ => exact .throw _
  | prepend => exact .assert fun l _ => .of_total trivial
  | addChild => exact .assert fun _ _ => .alter _
  | setCellItem => exact .assert fun _ _ => .alter _
  | setCellNext => exact .assert fun _ _ => .alter _

end Changes

/-! ### Commands -/

namespace Session

variable {cs : List Command} {s u : Session} {name : String} {x value : Addr} {y : Expr}
  {c : Change} {f : Fault} {t : Store}

/-- In every state of a session there is nothing, to end chains with, where there are lists. -/
theorem founded_sound (cs : List Command) :
    (run cs {}).2.Sound (fun held h => h.Exact held ∧ h.Founded) 0 :=
  kept_founded.run cs (fun _ _ => Set.subset_univ _)
    (sound_empty ⟨exact_empty, fun x l hx => by simp [Heap.body, block?] at hx⟩)

/-- **A change that fails changes nothing.**  In every state that a run leads to, and for every
value, a change of the value in a register that ends in a fault, be it refused or in violation of
what was promised, leaves every block with the content, the marks and the count that it had, as many
of them as there were, and as many words settled.  All that the command does is to give up the value
that was to be stored. -/
theorem failed_change (hs : (Session.run cs {}).2 = s) (hname : s.value? name = some x)
    (hy : (Step.eval y).run s = (.ok value, u)) (hc : c.expects = none)
    (hrun : (c.run x value).run u.store = (.error f, t)) (quiet : Bool) :
    u.store.heap.Unscathed t.heap ∧ t.settled = u.store.settled ∧
      s.step (.change name c y quiet) =
        (.fault f, { u with store := { t with heap := t.heap.release value } }) := by
  subst hs
  set s := (Session.run cs {}).2
  have hsound := founded_sound cs
  have heval := (ensures_of_ok hy).mp (kept_founded.step_eval hsound.owns y)
  obtain ⟨hexact, hfounded⟩ := heval.kept
  -- the operand is counted while the change runs, and released after it
  have hvalue : value ∈ s.registers.held + (0 + {value}) := by simp
  obtain ⟨hunscathed, hsettled⟩ :=
    (ensures_of_error hrun).mp (Change.atomic_run (x := x) hexact hfounded hvalue c)
  refine ⟨hunscathed, hsettled, step_of_fault ?_⟩
  -- the register and the operand are in place, so the fault can only be that of the change
  refine ensures_bind.mpr (ensures_value_of hname (ensures_bind.mpr (ensures_promise_of ?_ ?_)))
  · rw [hc]
    simp
  · refine ensures_bind.mpr ((ensures_of_ok hy).mpr (ensures_step_holding.mpr ?_))
    exact ensures_bind.mpr (ensures_on.mpr ((ensures_of_error hrun).mpr ⟨rfl, rfl⟩))

/-- A text is not appended to a list whose last cell belongs to a second list as well. -/
theorem failed_change_of_shared :
    let s := (run [.build (.words ["a", "b"]) ⟨some "x", true⟩,
      .derive "x" (.piece .butFirst .checked) ⟨some "y", true⟩] {}).2
    let u := ((Step.eval (.text "c" false)).run s).2
    let t := ((Change.append .checked).run 5 7 u.store).2
    u.store.heap.Unscathed t.heap ∧ t.settled = u.store.settled ∧
      s.step (.change "x" (.append .checked) (.text "c" false) true) =
        (.fault (.refused .sharedCells),
          { u with store := { t with heap := t.heap.release 7 } }) := by
  intro s u t
  have hname : s.value? "x" = some 5 := by decide +kernel
  have hy : ((Step.eval (.text "c" false)).run s).1 = .ok 7 := by decide +kernel
  have hfault : ((Change.append .checked).run 5 7 u.store).1 = .error (.refused .sharedCells) := by
    decide +kernel
  have hrun : (Change.append .checked).run 5 7 u.store = (.error (.refused .sharedCells), t) := by
    rw [← hfault]
    exact (Prod.mk.eta ..).symm
  exact failed_change rfl hname (Prod.ext hy rfl) rfl hrun true

end Session

end SharedValues
