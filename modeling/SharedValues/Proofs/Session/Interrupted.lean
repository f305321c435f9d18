import SharedValues.Proofs.Query.Broken
import SharedValues.Proofs.Session.Refusal

/-!
# Comparisons and renderings that break off

A comparison or a rendering that breaks off at a broken chain never leaves the sequences that it has
entered.  So a session that goes on from there is not idle any more: a comparison of the same two
values takes them for equal at once, and a sequence that was being written is cut short wherever it
is met.

## Main results

* `Exact.release_retain` — a handle that is given up as soon as it is taken.
* `Session.comparison_interrupted`, `Session.rendering_interrupted` — what a violation leaves
  behind.
* `Session.violation_leaves_traces` — both, for every state of a session that is inside of nothing.
* `Session.not_idle_after_violation` — a comparison that breaks off, and its traces.
-/

namespace SharedValues

open Heap Operation

/-! ### Handles of a command -/

namespace Heap

/-- A handle that is given up as soon as it is taken leaves no trace, if there is another one. -/
theorem Exact.release_retain {h : Heap} {held : Multiset Addr} {a : Addr} (hh : h.Exact held)
    (ha : a ∈ held) : (h.retain a).release a = h := by
  obtain ⟨b, hb⟩ := hh.live_of_held ha
  have hb' : (h.retain a).block? a = some { b with count := b.count + 1 } := by
    rw [block?_retain, if_pos rfl, hb, Option.map_some]
  -- the block has one more count than is needed, so giving it up frees nothing
  have hstays : b.permanent = true ∨ 1 < b.count + 1 := (hh.used hb).imp_right Nat.succ_lt_succ
  rw [Heap.release, discharge_drop_of_stays hb' hstays, discharge]
  unfold uncount Heap.retain Heap.modify
  congr 1
  apply Array.ext
  · simp
  · intro i _ _
    rw [Array.getElem_modify, Array.getElem_modify]
    split_ifs
    · cases h.blocks[i] <;> simp
    · rfl

/-- A comparison that breaks off was inside of distinct sequences on either side. -/
theorem distinct_of_equalOn {h : Heap} {ignoreCase : Bool} {trail u : Trail} {x y : Addr}
    {f : Fault} {σ τ : Settled} (htrail : trail.Distinct)
    (hrun : (h.equalOn ignoreCase trail x y).run σ = (.error (f, u), τ)) : u.Distinct := by
  have himitates := h.imitates_compareWithin ignoreCase (h.blocks.size + 2) htrail x y σ []
  unfold Ensures at himitates
  rw [equalOn] at hrun
  rcases hs : (h.compareWithin ignoreCase (h.blocks.size + 2) x y).run (σ, ⟨trail.sides, []⟩) with
    ⟨g | r, s⟩
  all_goals rw [hs] at himitates
  · obtain ⟨v, hv, hdistinct, -⟩ := himitates
    obtain rfl : v = u := by
      have hsame := (Prod.mk.inj (hv.symm.trans hrun)).1
      exact (Prod.mk.inj (Except.error.inj hsame)).2
    exact hdistinct
  · exact absurd (Prod.mk.inj (himitates.1.symm.trans hrun)).1 (by simp)

end Heap

namespace Session

variable {s t : Session} {x a : Addr} {name other : String} {ignoreCase : Bool} {r : Refusal}

/-- A command that answers with a fault has met it. -/
theorem fault_of_ensures {c : Command} {f : Fault} {E : Fault → Session → Prop}
    (h : Ensures (Step.perform c) s (fun answer _ => ∀ g, answer ≠ .fault g) E)
    (hf : (s.step c).1 = .fault f) : E f (s.step c).2 := by
  unfold Ensures at h
  unfold step at hf ⊢
  rcases hr : (Step.perform c).run s with ⟨g | answer, t⟩
  all_goals rw [hr] at h hf
  · obtain rfl := Answer.fault.inj hf
    exact h
  · exact absurd hf (h f)

/-- The value of an expression leaves the traversals of the session alone. -/
theorem ensures_step_eval (s : Session) (y : Expr) :
    Ensures (Step.eval y) s
      (fun a u => (Step.eval y).run s = (.ok a, u) ∧ u.trail = s.trail ∧ u.writing = s.writing)
      fun f _ => ∃ register, f = .unbound register := by
  have hend : Ensures (Step.eval y) s (fun _ u => u.trail = s.trail ∧ u.writing = s.writing)
      fun f _ => ∃ register, f = .unbound register := by
    refine ensures_bind.mpr (ensures_bind.mpr (ensures_get.mpr ?_))
    split
    · exact ensures_throw.mpr ⟨_, rfl⟩
    · exact ensures_pure.mpr (ensures_bind.mpr (ensures_get.mpr
        (ensures_on.mpr (ensures_make.mpr ⟨rfl, rfl⟩))))
  unfold Ensures at hend ⊢
  rcases hr : (Step.eval y).run s with ⟨f | a, u⟩
  all_goals rw [hr] at hend
  · exact hend
  · exact ⟨rfl, hend⟩

/-- The value in a register gets one more handle. -/
theorem ensures_eval_register {Q : Addr → Session → Prop} {E : Fault → Session → Prop}
    (hother : s.value? other = some a)
    (hQ : Q a { s with store := { s.store with heap := s.store.heap.retain a } }) :
    Ensures (Step.eval (.register other)) s Q E := by
  refine ensures_bind.mpr (ensures_bound_of (fun n hn => ?_) (ensures_bind.mpr
    (ensures_get.mpr (ensures_on.mpr (ensures_make.mpr ?_)))))
  · obtain rfl : n = other := by simpa [Expr.registers] using hn
    rw [hother]
    rfl
  · rw [Expr.eval, hother]
    exact hQ

/-- The value of a register is the one in it. -/
theorem eq_of_run_eval_register {u : Session}
    (hy : (Step.eval (.register other)).run s = (.ok a, u)) :
    s.value? other = some a ∧
      u = { s with store := { s.store with heap := s.store.heap.retain a } } := by
  cases hother : s.value? other with
  | none =>
    have hfails : Ensures (Step.eval (.register other)) s (fun _ _ => False) fun _ _ => True := by
      refine ensures_bind.mpr (ensures_bind.mpr (ensures_get.mpr ?_))
      simp only [Expr.registers, List.find?_singleton, hother, Option.isNone_none, if_pos]
      exact ensures_throw.mpr trivial
    exact ((ensures_of_ok hy).mp hfails).elim
  | some b =>
    have hread : Ensures (Step.eval (.register other)) s (fun a u => a = b ∧
        u = { s with store := { s.store with heap := s.store.heap.retain b } }) fun _ _ => False :=
      ensures_eval_register hother ⟨rfl, rfl⟩
    obtain ⟨rfl, hu⟩ := (ensures_of_ok hy).mp hread
    exact ⟨rfl, hu⟩

/-! ### Comparisons -/

/-- How a comparison inside of the trail of a session can end. -/
theorem ensures_compareHere {Q : Bool → Session → Prop} {E : Fault → Session → Prop} {y : Addr}
    (hok : ∀ b trail σ,
      (s.store.heap.equalOn ignoreCase s.trail x y).run s.store.settled = (.ok b, σ) →
        Q b { s with trail, store := { s.store with settled := σ } })
    (herror : ∀ f trail σ,
      (s.store.heap.equalOn ignoreCase s.trail x y).run s.store.settled = (.error (f, trail), σ) →
        E f { s with trail, store := { s.store with settled := σ } }) :
    Ensures (Step.compareHere ignoreCase x y) s Q E := by
  unfold Ensures
  rw [Step.run_compareHere, run_compare]
  rcases hq : (s.store.heap.equalOn ignoreCase s.trail x y).run s.store.settled with
    ⟨⟨f, trail⟩ | _ | _, σ⟩
  · exact herror f trail σ hq
  · exact hok false _ σ hq
  · exact hok true _ σ hq

theorem ensures_withOperand {α : Type} {y : Expr} {step : Addr → Step α} {Q : α → Session → Prop}
    {E : Fault → Session → Prop} : Ensures (Step.withOperand y step) s Q E ↔
      Ensures (Step.eval y) s (fun a u => Ensures (Step.holding a (step a)) u Q E) E :=
  ensures_bind

/-- **What a comparison leaves behind when it breaks off**: the pairs that it has entered, the two
values themselves first of all. -/
theorem comparison_interrupted (htrail : s.trail = []) {y : Expr}
    (hfault : (s.step (.compareHere name ignoreCase y)).1 = .fault (.violated r)) :
    ∃ x a u trail σ, s.value? name = some x ∧ (Step.eval y).run s = (.ok a, u) ∧
      u.store.heap.ComparesDownTo [] x a (.violated r, trail) ∧ trail.Distinct ∧
      u.writing = s.writing ∧ (s.step (.compareHere name ignoreCase y)).2 =
        { u with trail, store := { heap := u.store.heap.release a, settled := σ } } := by
  refine fault_of_ensures (E := fun f t => f = .violated r → ∃ x a u trail σ,
    s.value? name = some x ∧ (Step.eval y).run s = (.ok a, u) ∧
      u.store.heap.ComparesDownTo [] x a (.violated r, trail) ∧ trail.Distinct ∧
      u.writing = s.writing ∧
      t = { u with trail, store := { heap := u.store.heap.release a, settled := σ } })
    ?_ hfault rfl
  refine ensures_bind.mpr (ensures_value (fun x hx => ?_) (by simp))
  refine ensures_withOperand.mpr ((ensures_step_eval s y).mono ?_ ?_)
  swap
  -- an operand that cannot be made is refused, which is no violation
  · rintro f _ ⟨n, rfl⟩
    simp
  rintro a u ⟨hy, hu, hwriting⟩
  refine ensures_step_holding.mpr (ensures_bind.mpr (ensures_compareHere ?_ ?_))
  · exact fun b trail σ _ => ensures_pure.mpr (by simp)
  rintro f trail σ hrun rfl
  rw [hu, htrail] at hrun
  -- a violated comparison breaks at a pair that the walk went down to, with the trail still there
  have hdown := (ensures_of_error hrun).mp
    (u.store.heap.ensures_equalWithin_breaks ignoreCase _ [] x a _)
  -- the operand is released, but no frame of the comparison takes its pair off
  exact ⟨x, a, u, trail, σ, hx, hy, hdown (by simp), distinct_of_equalOn ⟨by simp, by simp⟩ hrun,
    hwriting, rfl⟩

/-- A comparison that broke off with the value in a register says that the two are equal when it is
made again. -/
theorem comparison_again (hs : s.Sound (fun held h => h.Exact held) 0) (htrail : s.trail = [])
    (hfault : (s.step (.compareHere name ignoreCase (.register other))).1 = .fault (.violated r)) :
    ((s.step (.compareHere name ignoreCase (.register other))).2.step
      (.compareHere name ignoreCase (.register other))).1 = .reply (.flag true) := by
  obtain ⟨x, a, u, trail, σ, hx, hy, hdown, hdistinct, -, ht⟩ :=
    comparison_interrupted htrail hfault
  obtain ⟨hother, rfl⟩ := eq_of_run_eval_register hy
  -- the handle that the command took and gave up has left the heap as it was
  have hheap : (s.store.heap.retain a).release a = s.store.heap :=
    (hs.kept : s.store.heap.Exact _).release_retain
      (Multiset.mem_add.mpr (.inl (mem_held_of_value? hother)))
  rw [ht]
  dsimp only at hdown ⊢
  rw [hheap]
  set t : Session := { s with trail, store := { heap := s.store.heap, settled := σ } }
  have hagain : Ensures (Step.perform (.compareHere name ignoreCase (.register other))) t
      (fun answer _ => answer = .reply (.flag true) ∧ True) fun _ _ => False := by
    refine ensures_bind.mpr (ensures_value_of (x := x) hx (ensures_withOperand.mpr ?_))
    refine ensures_eval_register (a := a) hother (ensures_step_holding.mpr (ensures_bind.mpr ?_))
    have hrun := run_equalOn_again hdown hdistinct ignoreCase σ
    refine ensures_compareHere (fun b _ τ hb => ?_) fun f _ τ hf => ?_
    · obtain ⟨⟨⟩, -⟩ := Prod.mk.inj (hrun.symm.trans hb)
      exact ensures_pure.mpr ⟨rfl, trivial⟩
    · exact absurd (Prod.mk.inj (hrun.symm.trans hf)).1 (by simp)
  exact (step_of_answer hagain).1

/-! ### Renderings -/

/-- How a rendering among the sequences that a session is writing can end. -/
theorem ensures_renderHere {style : Style} {o : PrintOptions} {Q : String → Session → Prop}
    {E : Fault → Session → Prop}
    (hok : ∀ text σ,
      (s.store.heap.renderOn s.writing style o x).run s.store.settled = (.ok text, σ) →
        Q text { s with store := { s.store with settled := σ } })
    (herror : ∀ f writing σ,
      (s.store.heap.renderOn s.writing style o x).run s.store.settled = (.error (f, writing), σ) →
        E f { s with writing, store := { s.store with settled := σ } }) :
    Ensures (Step.renderHere style o x) s Q E := by
  unfold Ensures
  rw [Step.run_renderHere, run_renderFrom]
  rcases hq : (s.store.heap.renderOn s.writing style o x).run s.store.settled with
    ⟨⟨f, writing⟩ | text, σ⟩
  · exact herror f writing σ hq
  · exact hok text σ hq

/-- **What a rendering leaves behind when it breaks off**: the sequences that it was writing. -/
theorem rendering_interrupted (hwriting : s.writing = []) {style : Style} {o : PrintOptions}
    (hfault : (s.step (.renderHere name style o)).1 = .fault (.violated r)) :
    ∃ x writing σ, s.value? name = some x ∧
      s.store.heap.WritesDownTo [] style x (.violated r, writing) ∧
      (s.step (.renderHere name style o)).2 =
        { s with writing, store := { s.store with settled := σ } } := by
  refine fault_of_ensures (E := fun f t => f = .violated r → ∃ x writing σ,
    s.value? name = some x ∧ s.store.heap.WritesDownTo [] style x (.violated r, writing) ∧
      t = { s with writing, store := { s.store with settled := σ } }) ?_ hfault rfl
  refine ensures_bind.mpr (ensures_value (fun x hx => ?_) (by simp))
  refine ensures_bind.mpr (ensures_renderHere (fun text σ _ => ensures_pure.mpr (by simp)) ?_)
  rintro f writing σ hrun rfl
  rw [hwriting] at hrun
  have hbreaks := (ensures_of_error hrun).mp (s.store.heap.ensures_renderWithin_breaks
    (P := fun _ => True) (fun _ _ _ => trivial) trivial _ [] style o x)
  exact ⟨x, writing, σ, hx, hbreaks.1 (by simp), rfl⟩

/-- A sequence that was being written with its brackets is cut short when it is written again. -/
theorem rendering_again (hwriting : s.writing = []) {o o' : PrintOptions}
    (hx : s.value? name = some x) (hseq : s.store.heap.IsSequence x)
    (hfault : (s.step (.renderHere name .delimited o)).1 = .fault (.violated r)) :
    ((s.step (.renderHere name .delimited o)).2.step (.renderHere name .delimited o')).1 =
      .reply (.text "...") := by
  obtain ⟨x', writing, σ, hx', hdown, ht⟩ := rendering_interrupted hwriting hfault
  obtain rfl : x' = x := Option.some.inj (hx'.symm.trans hx)
  rw [ht]
  have hagain : Ensures (Step.perform (.renderHere name .delimited o'))
      { s with writing, store := { s.store with settled := σ } }
      (fun answer _ => answer = .reply (.text "...") ∧ True) fun _ _ => False := by
    refine ensures_bind.mpr (ensures_value_of (x := x') hx (ensures_bind.mpr ?_))
    have hrun := run_renderOn_again hseq (hdown.mem hseq) o' σ
    refine ensures_renderHere (fun text τ htext => ?_) fun f _ τ hf => ?_
    · obtain ⟨⟨⟩, -⟩ := Prod.mk.inj (hrun.symm.trans htext)
      exact ensures_pure.mpr ⟨rfl, trivial⟩
    · exact absurd (Prod.mk.inj (hrun.symm.trans hf)).1 (by simp)
  exact (step_of_answer hagain).1

/-! ### Violations -/

/-- **A violation leaves its traces.**  In a session that is inside of no comparison and is writing
no sequence, a comparison that breaks off leaves the pairs behind that it was inside of, always the
two values at least, so that the session is not idle and finds the two equal when it compares them
again.  A rendering that breaks off leaves the sequences behind that it was writing, so that a
sequence which was to be written with its brackets is cut short when it is written again. -/
theorem violation_leaves_traces {made : List Command} (hs : (run made {}).2 = s)
    (htrail : s.trail = []) (hwriting : s.writing = []) (r : Refusal) :
    (∀ name ignoreCase y, (s.step (.compareHere name ignoreCase y)).1 = .fault (.violated r) →
      let t := (s.step (.compareHere name ignoreCase y)).2
      (∃ x a u, s.value? name = some x ∧ (Step.eval y).run s = (.ok a, u) ∧
        u.store.heap.ComparesDownTo [] x a (.violated r, t.trail)) ∧
      t.trail ≠ [] ∧ t.writing = [] ∧ (t.step .isIdle).1 = .reply (.flag false) ∧
      ∀ other, y = .register other →
        (t.step (.compareHere name ignoreCase y)).1 = .reply (.flag true)) ∧
    ∀ name style o, (s.step (.renderHere name style o)).1 = .fault (.violated r) →
      let t := (s.step (.renderHere name style o)).2
      ∃ x, s.value? name = some x ∧ t.trail = [] ∧
        s.store.heap.WritesDownTo [] style x (.violated r, t.writing) ∧
        (style = .delimited → s.store.heap.IsSequence x → t.writing ≠ [] ∧
          ∀ o', (t.step (.renderHere name .delimited o')).1 = .reply (.text "...")) := by
  subst hs
  refine ⟨fun name ignoreCase y hfault => ?_, fun name style o hfault => ?_⟩
  · obtain ⟨x, a, u, trail, σ, hx, hy, hdown, -, hu, ht⟩ := comparison_interrupted htrail hfault
    -- the trail still holds the pair that was compared at first
    have htrail' : trail ≠ [] := List.ne_nil_of_mem (hdown.suffix.subset List.mem_cons_self)
    have hagain : ∀ other, y = .register other →
        (((run made {}).2.step (.compareHere name ignoreCase y)).2.step
          (.compareHere name ignoreCase y)).1 = .reply (.flag true) := by
      rintro other rfl
      exact comparison_again (exact_sound made) htrail hfault
    refine ⟨⟨x, a, u, hx, hy, ?_⟩, ?_, ?_, ?_, hagain⟩
    all_goals rw [ht]
    · exact hdown
    · exact htrail'
    · exact hu.trans hwriting
    -- a trail that is not empty is all that is asked for
    · show Answer.reply (.flag trail.isEmpty) = _
      rw [List.isEmpty_eq_false_iff.mpr htrail']
  · obtain ⟨x, writing, σ, hx, hdown, ht⟩ := rendering_interrupted hwriting hfault
    refine ⟨x, hx, by rw [ht]; exact htrail, by rw [ht]; exact hdown, ?_⟩
    -- in bare style the sequence itself is not recorded, so only the other rendering is cut short
    rintro rfl hseq
    refine ⟨?_, fun o' => rendering_again hwriting hx hseq hfault⟩
    rw [ht]
    exact List.ne_nil_of_mem (hdown.mem hseq)

/-- A command whose step fails answers with the fault. -/
theorem fault_of_perform {c : Command} {f : Fault}
    (h : ((Step.perform c).run s).1.map (fun _ => ()) = .error f) : (s.step c).1 = .fault f := by
  unfold step
  rcases hr : (Step.perform c).run s with ⟨g | answer, t⟩ <;> rw [hr] at h
  · obtain rfl : g = f := Except.error.inj h
    rfl
  · exact absurd h (by simp [Except.map])

/-- A list whose first cell is linked to a word is taken for equal to a list with another element in
second place, and it is cut short, once its chain has been walked in vain. -/
theorem violation_at_linked_word :
    let s := (run [.build (.words ["a", "b"]) ⟨some "x", true⟩, .derive "x" .head ⟨some "c", true⟩,
      .change "c" .setCellNext (.text "w" false) true,
      .build (.words ["a", "d"]) ⟨some "y", true⟩] {}).2
    let t := (s.step (.compareHere "x" false (.register "y"))).2
    let u := (s.step (.renderHere "x" .delimited {})).2
    (t.step (.compareHere "x" false (.register "y"))).1 = .reply (.flag true) ∧
      (u.step (.renderHere "x" .delimited {})).1 = .reply (.text "...") := by
  intro s t u
  have hname : s.value? "x" = some 5 ∧ s.store.heap.IsSequence 5 ∧ s.trail = [] ∧
      s.writing = [] := by
    decide +kernel
  obtain ⟨hx, hseq, htrail, hwriting⟩ := hname
  have hcompare : (s.step (.compareHere "x" false (.register "y"))).1 =
      .fault (.violated (.kindMismatch .cell .word)) :=
    fault_of_perform (by decide +kernel)
  have hrender : (s.step (.renderHere "x" .delimited {})).1 =
      .fault (.violated (.kindMismatch .cell .word)) :=
    fault_of_perform (by decide +kernel)
  -- both faults are computed, and what they leave behind is got from the theorem
  obtain ⟨hcompared, hrendered⟩ := violation_leaves_traces rfl htrail hwriting _
  obtain ⟨x, hx', -, -, hcut⟩ := hrendered "x" .delimited {} hrender
  obtain rfl : x = 5 := Option.some.inj (hx'.symm.trans hx)
  exact ⟨(hcompared "x" false _ hcompare).2.2.2.2 "y" rfl, (hcut rfl hseq).2 {}⟩

/-- **A session is not always idle after a violation**: it is not if the violation struck inside of
a comparison. -/
theorem not_idle_after_violation :
    let s := (run [.build (.words ["a", "b"]) ⟨some "x", true⟩, .derive "x" .head ⟨some "c", true⟩,
      .change "c" .setCellNext (.text "w" false) true,
      .build (.words ["a", "b"]) ⟨some "y", true⟩] {}).2
    let t := (s.step (.compareHere "x" false (.register "y"))).2
    s.trail = [] ∧ s.writing = [] ∧
      (s.step (.compareHere "x" false (.register "y"))).1 =
        .fault (.violated (.kindMismatch .cell .word)) ∧
      t.trail ≠ [] := by
  intro s t
  have hbefore : s.trail = [] ∧ s.writing = [] ∧ t.trail ≠ [] := by decide +kernel
  exact ⟨hbefore.1, hbefore.2.1, fault_of_perform (by decide +kernel), hbefore.2.2⟩

end Session

end SharedValues
