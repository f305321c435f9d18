import SharedValues.Proofs.Chain.Sizes
import SharedValues.Proofs.Session.Run

/-!
# Sizes in a run

A list whose chain ends should keep the number of its cells as its size, so that an index is in
range exactly if there is an element at it.  This holds as long as no cell is linked directly, and
every change of a list behind its first cell leaves no other list with a size that is out of date.

## Main definitions

* `Heap.Counted` — sizes and indices are right for every list whose chain ends.
* `Command.linksCell` — a command links a cell directly.

## Main results

* `ListHeader.inRange_iff_item` — indices are right where sizes are.
* `Kept.step_setButFirst` — sizes after a change of a list behind its first cell.
* `Session.measured_run` — sizes in runs that link no cell anew.
* `Session.counted_iff` — exactly when sizes are right throughout a run.
* `Session.size_out_of_date` — they are not always.
-/

namespace SharedValues

open Heap Operation

/-! ### Indices -/

/-- A list whose chain ends is counted right: its size is the number of its cells, and an index is
in range exactly if there is an element at it. -/
def Heap.Counted (h : Heap) : Prop :=
  ∀ x l cs, h.body x = .list l → h.Chain l.head cs → l.size = cs.length ∧
    ∀ index σ, l.inRange index = true ↔ ∃ a t, (l.item index).run ⟨h, σ⟩ = (.ok a, t)

namespace ListHeader

variable {h : Heap} {l : ListHeader} {cs : List Addr} {index : ℤ}

/-- An element is found exactly if its cell is. -/
theorem item_eq_ok_iff (s : Store) :
    (∃ a t, (l.item index).run s = (.ok a, t)) ↔ ∃ c, l.cellAt index s.heap = .ok c := by
  have hcheck : (check (l.cellAt index)).run s = (l.cellAt index s.heap, s) := rfl
  unfold ListHeader.item
  rw [run_bind, hcheck]
  cases l.cellAt index s.heap with
  | error f =>
    refine ⟨?_, by simp⟩
    rintro ⟨a, t, ⟨⟩⟩
  | ok c => exact ⟨fun _ => ⟨c, rfl⟩, fun _ => ⟨_, _, rfl⟩⟩

/-- **An index is in range exactly if there is an element**, where the size is right. -/
theorem inRange_iff_item (hcs : h.Chain l.head cs) (hsize : l.size = cs.length) (σ : Settled) :
    l.inRange index = true ↔ ∃ a t, (l.item index).run ⟨h, σ⟩ = (.ok a, t) := by
  rw [item_eq_ok_iff]
  unfold cellAt
  -- a list whose size is right has its whole chain for cells
  have hcells : h.cells l = ⟨cs, none⟩ := by
    rw [Heap.cells, hcs.chain_eq, hsize, List.take_length]
  dsimp only
  rw [hcells]
  split
  · next hrange =>
    rw [Bool.not_eq_true'] at hrange
    simp [hrange]
  · next hrange =>
    -- the index picks one of the cells, so there is an item to be found
    have hrange : l.inRange index = true := by simpa using hrange
    refine ⟨fun _ => ?_, fun _ => hrange⟩
    simp only [inRange, hsize, Bool.and_eq_true, decide_eq_true_eq] at hrange
    have hlt : index.toNat - 1 < cs.length := by omega
    rw [List.getElem?_eq_getElem hlt]
    exact ⟨_, rfl⟩

end ListHeader

namespace Heap

variable {h : Heap} {a b x : Addr} {cs : List Addr}

theorem Measured.counted (hm : h.Measured) : h.Counted := fun x l cs hx hcs =>
  ⟨(hm x l hx).2 cs hcs, fun _ σ => ListHeader.inRange_iff_item hcs ((hm x l hx).2 cs hcs) σ⟩

theorem Measured.measuredBut (hm : h.Measured) (x : Addr) : h.MeasuredBut x :=
  ⟨fun l hl => hm x l hl, fun y m hy => (hm y m hy).1, fun y m cs hy hcs =>
    Or.inl ((hm y m hy).2 cs hcs)⟩

/-- A way to a chain is a chain. -/
theorem Chain.of_nth {i : ℕ} (hi : h.nth a i = some b) (hcs : h.Chain b cs) :
    ∃ ds, h.Chain a ds ∧ ds.length = i + cs.length := by
  induction i generalizing b cs with
  | zero =>
    obtain rfl := Option.some.inj hi
    exact ⟨cs, hcs, (Nat.zero_add _).symm⟩
  | succ i ih =>
    obtain ⟨c, hc, hn⟩ := exists_nth_of_succ hi
    obtain ⟨ds, hds, hlength⟩ := ih hc (.cons hn hcs)
    exact ⟨ds, hds, by rw [hlength, List.length_cons]; omega⟩

/-- Where sizes are right, lists count through the cells of one another. -/
theorem Counted.countedThrough (hh : h.Counted) (x : Addr) : h.CountedThrough x := by
  intro l cs hx hcs y m i hy hi
  obtain ⟨ds, hds, hlength⟩ := Chain.of_nth hi hcs
  rw [(hh y m ds hy hds).1, (hh x l cs hx hcs).1, hlength]

end Heap

/-! ### Steps -/

/-- A command links a cell directly. -/
def Command.linksCell : Command → Bool
  | .change _ .setCellNext .. => true
  | _ => false

/-- The commands that link no cell anew keep sizes right. -/
theorem Command.acts_subset {c : Command} (hc : c.linksCell = false) :
    (∃ name mode y quiet, c = .change name (.setButFirst mode) y quiet) ∨
      c.acts ⊆ {a | a ≠ .link ∧ a ≠ .tail} := by
  cases c with
  | build s k => cases s <;> simp [Command.acts, Source.acts, Set.insert_subset_iff]
  | change name c y quiet =>
    cases c with
    | setButFirst mode => exact Or.inl ⟨name, mode, y, quiet, rfl⟩
    | setCellNext => simp [linksCell] at hc
    | _ => simp [Command.acts, Change.acts, Set.insert_subset_iff]
  | adjust name a quiet => cases a <;> simp [Command.acts, Adjustment.acts]
  | ask name q => cases q <;> simp [Command.acts, Question.acts]
  | _ => simp [Command.acts]

namespace Kept

variable {s : Store} {held : Multiset Addr} {x : Addr}

/-- After a list was changed behind its first cell, sizes are right but for the lists that lead to
that cell. -/
theorem measuredBut_setButFirst (value : Addr) (hh : s.heap.Exact held ∧ s.heap.Measured)
    (hx : x ∈ held) :
    Keeps (fun held h => h.Exact held ∧ h.MeasuredBut x) held (Sequence.setButFirst x value) s := by
  have hbut := fun (t : Store) (ht : t.heap.Exact held ∧ t.heap.Measured) =>
    And.intro ht.1 (ht.2.measuredBut x)
  -- only a list has a size that can go wrong
  refine ensures_bind.mpr (ensures_look.mpr ?_)
  split
  · next l hbody =>
    apply ensures_setButFirst (fun _ => hbut s hh)
    -- the new header is right by its size; all other sizes may be off by the cells cut away
    intro r item next hvalue hhead
    have hheld : x ∈ held + (l.parsed : Multiset Addr) := Multiset.mem_add.mpr (Or.inl hx)
    have hmove : (s.heap.relink l.head item r.head [next] x
        { head := l.head, size := r.size + 1 }).Exact (held + (l.parsed : Multiset Addr)) :=
      (Move.tail (a := .tail) hbody hx hvalue hhead (Or.inl rfl)).exact hh.1
    have hend := hmove.releaseAll l.parsed
    exact ⟨hend, (hh.2.tail hmove hbody hheld hvalue hhead).thins (releaseAll_thins _ _) hend
      (hend.live_of_held hx)⟩
  · next origin slots hbody =>
    exact (kept_measured.row_setButFirst (by simp) hh hbody).mono (fun _ => hbut) fun _ => hbut
  · exact ensures_throw.mpr (hbut s hh)

/-- **A list changed behind its first cell**, as a command: sizes are right afterwards but for the
lists that lead to that cell. -/
theorem step_setButFirst {s : Session} {name : String} {x : Addr}
    (hs : s.Sound (fun held h => h.Exact held ∧ h.Measured) 0) (hx : s.value? name = some x)
    (mode : Mode) (y : Expr) (quiet : Bool) :
    (s.step (.change name (.setButFirst mode) y quiet)).2.Sound
      (fun held h => h.Exact held ∧ h.MeasuredBut x) 0 := by
  have hrs := hs.sorted
  have hheld : x ∈ s.registers.held := Session.mem_held_of_value? hx
  have hbut : ∀ {extra : Multiset Addr} {t : Session},
      t.Owns (fun held h => h.Exact held ∧ h.Measured) s.registers extra →
        t.Owns (fun held h => h.Exact held ∧ h.MeasuredBut x) s.registers extra := fun ht =>
    ⟨ht.registers_eq, ht.kept.1, ht.kept.2.measuredBut x⟩
  -- the second value is given up when the command ends
  have hrelease : ∀ {a : Addr} {t : Session},
      t.Owns (fun held h => h.Exact held ∧ h.MeasuredBut x) s.registers {a} →
        ({ t with store := { t.store with heap := t.store.heap.release a } } : Session).Sound
          (fun held h => h.Exact held ∧ h.MeasuredBut x) 0 := by
    rintro a t ⟨hregisters, hexact, hm⟩
    have hend := hexact.release
    refine Session.Owns.sound ⟨hregisters, by simpa using hend, ?_⟩ hrs
    exact hm.thins (releaseAll_thins _ [a]) hend (hend.live_of_held hheld)
  refine Session.step_of_ensures ?_
  refine ensures_bind.mpr (ensures_value ?_ ((hbut hs.owns).sound hrs))
  intro x' hx'
  obtain rfl := Option.some.inj (hx.symm.trans hx')
  refine ensures_bind.mpr (ensures_promise ?_ fun _ => (hbut hs.owns).sound hrs)
  refine ensures_bind.mpr ((kept_measured.step_eval hs.owns y).mono ?_
    fun _ t ht => (hbut ht).sound hrs)
  intro a t ht
  rw [zero_add] at ht
  have hrun := (measuredBut_setButFirst a ht.kept
    (Multiset.mem_add.mpr (Or.inl hheld))).call mode
  refine ensures_step_holding.mpr (ensures_bind.mpr ((step_keeps (hbut ht) hrun).mono
    ?_ fun _ u hu => hrelease hu))
  intro _ u hu
  exact (step_changed hu x quiet).mono (fun _ _ => hrelease) fun _ _ => hrelease

end Kept

/-! ### Runs -/

namespace Session

/-- **Sizes are right after a run** that links no cell anew. -/
theorem measured_run {cs : List Command}
    (hcs : ∀ c ∈ cs, c.acts ⊆ {a | a ≠ .link ∧ a ≠ .tail}) :
    (run cs {}).2.store.heap.Measured := by
  have hempty : Heap.Measured {} := fun x l hx => by simp [Heap.body, block?] at hx
  exact (kept_measured.run cs hcs (sound_empty ⟨exact_empty, hempty⟩)).kept.2

/-- A command that names no value leaves everything as it is. -/
theorem step_change_of_unbound {s : Session} {name : String} (hname : s.value? name = none)
    (c : Change) (y : Expr) (quiet : Bool) : (s.step (.change name c y quiet)).2 = s := by
  refine step_of_ensures (P := fun t => t = s)
    (ensures_bind.mpr (ensures_value ?_ rfl))
  intro a ha
  rw [hname] at ha
  exact absurd ha (by simp)

/-- **Exactly when sizes are right throughout a run** that links no cell directly: whenever a list
was changed behind its first cell, the lists that lead to that cell must count through it. -/
theorem counted_iff {cs : List Command} (hcs : ∀ c ∈ cs, c.linksCell = false) :
    (∀ p, p <+: cs → (run p {}).2.store.heap.Counted) ↔
      ∀ p name mode y quiet x, p ++ [.change name (.setButFirst mode) y quiet] <+: cs →
        (run p {}).2.value? name = some x →
          (run (p ++ [.change name (.setButFirst mode) y quiet]) {}).2.store.heap.CountedThrough
            x := by
  constructor
  · exact fun hcounted p name mode y quiet x hp _ => (hcounted _ hp).countedThrough x
  intro hthrough
  -- before each command sizes are right, by induction on the commands so far
  have hsound : ∀ p, p <+: cs →
      (run p {}).2.Sound (fun held h => h.Exact held ∧ h.Measured) 0 := by
    intro p
    induction p using List.reverseRecOn with
    | nil =>
      exact fun _ => sound_empty ⟨exact_empty, fun x l hx => by simp [Heap.body, block?] at hx⟩
    | append_singleton p c ih =>
      intro hp
      have hs := ih ((List.prefix_append p [c]).trans hp)
      have hc := hcs c (hp.subset (by simp))
      rcases Command.acts_subset hc with ⟨name, mode, y, quiet, rfl⟩ | hacts
      · -- the one command that can leave sizes out of date
        cases hx : (run p {}).2.value? name with
        | none =>
          rw [run_concat, step_change_of_unbound hx]
          exact hs
        | some x =>
          have hstep := Kept.step_setButFirst hs hx mode y quiet
          have hend := hthrough p name mode y quiet x hp hx
          rw [run_concat] at hend ⊢
          exact ⟨hstep.sorted, hstep.kept.1, hstep.kept.2.measured hend⟩
      · rw [run_concat]
        exact kept_measured.step hs c hacts
  exact fun p hp => (hsound p hp).kept.2.counted

/-- A list is given another cell behind its first one, which a longer list leads to.  As there was
one cell before as well, both lists keep the right sizes. -/
theorem counted_of_shared :
    let cs : List Command := [.build (.words ["a", "b"]) ⟨some "x", true⟩,
      .combine "x" .cons (.text "z" false) ⟨some "y", true⟩,
      .build (.words ["c"]) ⟨some "e", true⟩,
      .change "x" (.setButFirst .checked) (.register "e") true]
    let h := (run cs {}).2.store.heap
    (∀ c ∈ cs, c.linksCell = false) ∧ h.body 5 = .list { head := 4, size := 2 } ∧
      h.body 8 = .list { head := 7, size := 3 } ∧ h.next? 7 = some 4 ∧ h.CountedThrough 5 ∧
      ∀ p, p <+: cs → (run p {}).2.store.heap.Counted := by
  intro cs h
  have hcs : ∀ c ∈ cs, c.linksCell = false := by decide
  have hfacts : (run (cs.take 3) {}).2.value? "x" = some 5 ∧
      h.body 5 = .list { head := 4, size := 2 } ∧ h.body 8 = .list { head := 7, size := 3 } ∧
      h.next? 7 = some 4 ∧ h.blocks.size = 12 ∧ ∀ y < 12, ∀ m ∈ (h.body y).list?,
        h.nth m.head 4 = none ∧ ∀ i < 4, h.nth m.head i = some 4 → m.size = i + 2 := by
    decide +kernel
  obtain ⟨hname, hx, hy, hnext, hsize, hlists⟩ := hfacts
  have hthrough : h.CountedThrough 5 := by
    intro l _ hl _ y m i hm hi
    obtain rfl := Body.list.inj (hx.symm.trans hl)
    have hlt : y < 12 := hsize ▸ (live_of_body hm (by simp)).lt_size
    obtain ⟨hend, hbefore⟩ := hlists y hlt m (by rw [hm]; rfl)
    -- all chains have ended after four steps
    by_cases hi4 : i < 4
    · exact hbefore i hi4 hi
    · obtain ⟨j, rfl⟩ := Nat.exists_eq_add_of_le (Nat.le_of_not_lt hi4)
      rw [nth_add, hend] at hi
      exact absurd hi (by simp)
  refine ⟨hcs, hx, hy, hnext, hthrough, (counted_iff hcs).mpr ?_⟩
  intro p name mode y quiet x hp hvalue
  -- only the last command changes a list behind its first cell
  obtain ⟨htake, hc⟩ := eq_take_of_concat_prefix hp
  generalize p.length = i at htake hc
  rcases i with _ | _ | _ | _ | i <;> simp [cs] at hc
  obtain ⟨rfl, rfl, rfl, rfl⟩ := hc
  rw [htake, hname] at hvalue
  obtain rfl := Option.some.inj hvalue
  rw [htake]
  exact hthrough

/-- **A size can be out of date**: two lists share their last two cells, and one of them loses its
last element; the other one keeps its size. -/
theorem size_out_of_date :
    let cs : List Command := [.build (.words ["a", "b"]) ⟨some "x", true⟩,
      .combine "x" .cons (.text "z" false) ⟨some "y", true⟩, .build .emptyList ⟨some "e", true⟩,
      .change "x" (.setButFirst .checked) (.register "e") true]
    (∀ c ∈ cs, c.linksCell = false) ∧ ¬(run cs {}).2.store.heap.Counted := by
  intro cs
  set h := (run cs {}).2.store.heap
  -- the longer list claims three elements, but has two cells
  have hy : h.body 8 = .list { head := 7, size := 3 } := by decide +kernel
  have hlinks : h.next? 7 = some 4 ∧ h.next? 4 = some 2 ∧ h.kind 2 = .nothing := by decide +kernel
  have hchain : h.Chain 7 [7, 4] := .cons hlinks.1 (.cons hlinks.2.1 (.nil hlinks.2.2))
  exact ⟨by decide, fun hcounted => absurd (hcounted 8 _ _ hy hchain).1 (by decide)⟩

end Session

end SharedValues
