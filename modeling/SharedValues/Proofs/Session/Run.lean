import SharedValues.Proofs.Session.State

/-!
# What whole runs keep

Every command keeps what its acts keep, whether it ends with an answer or with a fault.  So a
property that holds of the empty heap, and that the acts of all commands of a run keep, holds after
each of them.

## Main results

* `Kept.perform` — one command.
* `Kept.run` — a sequence of commands.
* `Session.run_counts_exact` — reference counts are exact after every run.
-/

namespace SharedValues

open Heap Operation

namespace Kept

variable {A : Set Act} {F : Multiset Addr → Heap → Prop} {s : Session} {rs : Registers}
  {extra : Multiset Addr} {x : Addr}

theorem adjustment_run (hF : Kept A F) (hs : s.Owns F rs 0) (a : Adjustment)
    (hA : a.acts ⊆ A) :
    Ensures (a.run x) s (fun _ t => t.Owns F rs 0) fun _ t => t.Owns F rs 0 := by
  cases a with
  | clear =>
    rw [Adjustment.run]
    refine step_keeps hs (ensures_bind.mpr (ensures_assert ?_ fun _ _ => hs.kept))
    intro l hl
    exact hF.list_clear (hA (by simp [Adjustment.acts])) hs.kept (body_of_list hl)
  | freeze =>
    have hfrozen : F (rs.held + 0) (s.store.heap.freeze x) := hF.move hF.hold (.freeze x) hs.kept
    rw [Adjustment.run]
    exact step_keeps hs (ensures_alter.mpr hfrozen)
  | decode kind mode =>
    rw [Adjustment.run]
    refine step_keeps hs (ensures_bind.mpr (ensures_look.mpr ?_))
    split
    · exact Keeps.call (ensures_throw.mpr hs.kept) mode
    · exact ensures_pure.mpr hs.kept
  | setParsed stamp items =>
    refine ensures_bind.mpr ((hF.step_evalAll hs items).mono ?_ fun _ _ => id)
    intro parsed t ht
    have hkept : F (rs.held + (parsed : Multiset Addr)) t.store.heap := by simpa using ht.kept
    -- the list has handles of its own, so the ones of the command are given up
    have hrelease : ∀ {u : Store}, F (rs.held + (parsed : Multiset Addr)) u.heap →
        F (rs.held + 0) (u.heap.releaseAll parsed) := by
      intro u hu
      rw [add_zero]
      exact hF.releaseAll parsed hu
    refine ensures_on.mpr ((ensures_holdingAll parsed).mpr (ensures_bind.mpr
      (ensures_assert ?_ fun _ _ => ⟨ht.registers_eq, hrelease hkept⟩)))
    intro l hl
    refine (hF.list_setParsed (hA (by simp [Adjustment.acts])) hkept (body_of_list hl)
      fun a ha => hF.live hkept ?_).mono
        (fun _ _ hu => ⟨ht.registers_eq, hrelease hu⟩) fun _ _ hu => ⟨ht.registers_eq, hrelease hu⟩
    exact Multiset.mem_add.mpr (Or.inr ha)

/-! ### Cursors in registers -/

/-- The handle of the cursor in a register, set apart from the others. -/
theorem exists_held_of_cursor {name : String} {c : Cursor}
    (hc : rs.lookup name = some (.cursor c)) : ∃ rest, rs.held = rest + {c.handle} := by
  obtain ⟨rest, hrest⟩ := Multiset.exists_cons_of_mem (Registers.handle_mem_held hc)
  exact ⟨rest, by rw [hrest, ← Multiset.singleton_add, add_comm]; rfl⟩

/-- A cursor that has been advanced goes back to its register. -/
theorem step_advance {name : String} {c c' : Cursor} {rest : Multiset Addr} (hrs : rs.Sorted)
    (hc : rs.lookup name = some (.cursor c)) (hrest : rs.held = rest + {c.handle})
    (hregisters : s.registers = rs) (hkept : F (rest + {c'.handle} + extra) s.store.heap) :
    Ensures (Step.advance name c') s
      (fun _ t => t.Owns F (Registers.set name (.cursor c') rs) extra) fun _ _ => False := by
  subst hregisters
  refine ensures_modify.mpr ⟨rfl, ?_⟩
  have hset := Registers.held_set name (.cursor c') hrs
  rw [Registers.handle?, hc, Option.toList_some, List.map_singleton, Multiset.coe_singleton, hrest,
    add_right_comm] at hset
  rwa [add_right_cancel hset]

/-- A step that advances the cursor in a register. -/
theorem step_next (hF : Kept A F) {c : Cursor} {rest : Multiset Addr}
    (hs : s.Owns F rs 0) (hrest : rs.held = rest + {c.handle}) :
    Ensures (Step.on c.next) s
      (fun r t => t.registers = rs ∧
        F (rest + {r.2.handle} + (r.1.toList : Multiset Addr)) t.store.heap)
      fun _ t => t.Owns F rs 0 := by
  have hkept : F (rest + {c.handle}) s.store.heap := by simpa [hrest] using hs.kept
  refine ensures_on.mpr ((hF.cursor_next hkept).mono
    (fun _ _ ht => ⟨hs.registers_eq, ht.1⟩) fun _ _ ht => ⟨hs.registers_eq, ?_⟩)
  simpa [hrest] using ht

/-- The cursor in a register advances and goes back to the register, and the element that it went
over is owned by the command. -/
theorem step_next_advance (hF : Kept A F) (name : String) (hrs : rs.Sorted) (hs : s.Owns F rs 0) :
    Ensures (Step.cursor name) s
      (fun c t => Ensures (Step.on c.next) t
        (fun r u => Ensures (Step.advance name r.2) u
          (fun _ v => ∃ rs', rs'.Sorted ∧ v.Owns F rs' (r.1.toList : Multiset Addr))
          fun _ _ => False)
        fun _ u => u.Owns F rs 0)
      fun _ t => t.Owns F rs 0 := by
  refine ensures_cursor ?_ hs
  intro c hc
  rw [hs.registers_eq] at hc
  obtain ⟨others, hothers⟩ := exists_held_of_cursor hc
  refine (hF.step_next hs hothers).mono ?_ fun _ _ => id
  rintro ⟨r, c'⟩ t ⟨hregisters, hkept⟩
  exact (step_advance hrs hc hothers hregisters hkept).mono (fun _ u hu => ⟨_, hrs.set, hu⟩)
    fun _ _ => id

theorem step_collectWithin (hF : Kept A F) (name : String) (n : ℕ) (written : List String)
    (hs : s.Sound F 0) :
    Ensures (Step.collectWithin name n written) s (fun _ t => t.Sound F 0)
      fun _ t => t.Sound F 0 := by
  induction n generalizing s written with
  | zero => exact ensures_pure.mpr hs
  | succ n ih =>
    rw [Step.collectWithin]
    refine ensures_bind.mpr ((hF.step_next_advance name hs.sorted hs.owns).mono ?_
      fun _ _ ht => ht.sound hs.sorted)
    intro c t ht
    refine ensures_bind.mpr (ht.mono ?_ fun _ _ hu => hu.sound hs.sorted)
    rintro ⟨r, c'⟩ u hu
    refine ensures_bind.mpr (hu.mono ?_ fun _ _ => False.elim)
    rintro - t ⟨rs', hrs', ht⟩
    cases r with
    | none => exact ensures_pure.mpr (Session.Owns.sound (by simpa using ht) hrs')
    -- the element is written, given up, and the cursor goes on
    | some a =>
      have hown : t.Owns F rs' (0 + {a}) := by simpa using ht
      refine ensures_bind.mpr (ensures_step_holding.mpr ?_)
      refine (step_keeps hown ((reads_ask _).keeps hown.kept)).mono ?_
        fun _ u hu => (hF.step_release hu).sound hrs'
      intro _ u hu
      exact ih _ ((hF.step_release hu).sound hrs')

/-- A step that touches neither the registers nor the heap. -/
theorem step_silent {α : Type} {step : Step α} (hs : s.Owns F rs extra)
    (hregisters : (step.run s).2.registers = s.registers)
    (hheap : (step.run s).2.store.heap = s.store.heap) :
    Ensures step s (fun _ t => t.Owns F rs extra) fun _ t => t.Owns F rs extra := by
  have hend : (step.run s).2.Owns F rs extra :=
    ⟨hregisters.trans hs.registers_eq, by rw [hheap]; exact hs.kept⟩
  unfold Ensures
  rcases hr : step.run s with ⟨_ | _, t⟩ <;> rw [hr] at hend <;> exact hend

/-! ### Commands -/

/-- A step that leaves the registers alone, with an answer made of its result. -/
theorem answer {α β : Type} {step : Step α} (hrs : rs.Sorted) (g : α → β)
    (hstep : Ensures step s (fun _ t => t.Owns F rs extra) fun _ t => t.Owns F rs extra) :
    Ensures (step >>= fun a => pure (g a)) s (fun _ t => t.Sound F extra)
      fun _ t => t.Sound F extra :=
  ensures_bind.mpr (hstep.mono (fun _ _ ht => ensures_pure.mpr (ht.sound hrs))
    fun _ _ ht => ht.sound hrs)

theorem perform_next (hF : Kept A F) (hs : s.Sound F 0) (name : String) (k : Keep) :
    Ensures (Step.perform (.next name k)) s (fun _ t => t.Sound F 0) fun _ t => t.Sound F 0 := by
  have hrs := hs.sorted
  refine ensures_bind.mpr ((hF.step_next_advance name hrs hs.owns).mono ?_
    fun _ _ ht => ht.sound hrs)
  intro c t ht
  refine ensures_bind.mpr (ht.mono ?_ fun _ _ hu => hu.sound hrs)
  rintro ⟨r, c'⟩ u hu
  refine ensures_bind.mpr (hu.mono ?_ fun _ _ => False.elim)
  rintro - v ⟨rs', hrs', hv⟩
  exact hF.step_keep? hrs' (by simpa using hv) k

theorem perform_takeNext (hF : Kept A F) (hs : s.Sound F 0) (name : String) (k : Keep) :
    Ensures (Step.perform (.takeNext name k)) s (fun _ t => t.Sound F 0)
      fun _ t => t.Sound F 0 := by
  have hrs := hs.sorted
  have hown := hs.owns
  refine ensures_bind.mpr (ensures_cursor ?_ hs)
  intro c hc
  obtain ⟨others, hothers⟩ := exists_held_of_cursor hc
  have hkept : F (others + {c.handle}) s.store.heap := by simpa [hothers] using hown.kept
  refine ensures_bind.mpr (ensures_on.mpr ((hF.cursor_takeNext hkept).mono ?_ fun _ t ht => ?_))
  · rintro ⟨a, c'⟩ t ht
    have hadvance : Ensures (Step.advance name c') { s with store := t } _ _ :=
      step_advance hrs hc hothers rfl ht
    refine ensures_bind.mpr (hadvance.mono ?_ fun _ _ => False.elim)
    intro _ u hu
    exact hF.step_keep hrs.set (by simpa using hu) k
  · -- without an element the cursor stays where it is
    exact Session.Owns.sound ⟨rfl, by simpa [hothers] using ht⟩ hrs

theorem perform_collect (hF : Kept A F) (hs : s.Sound F 0) (name : String) :
    Ensures (Step.perform (.collect name)) s (fun _ t => t.Sound F 0)
      fun _ t => t.Sound F 0 := by
  have hown := hs.owns
  refine ensures_bind.mpr (ensures_bind.mpr (ensures_cursor ?_ hs))
  intro c hc
  refine ensures_bind.mpr ((step_keeps hown ((reads_ask _).keeps hown.kept)).mono ?_
    fun _ _ ht => ht.sound hs.sorted)
  rintro ⟨low, high⟩ t ht
  exact (hF.step_collectWithin name (high + 1) [] (ht.sound hs.sorted)).mono
    (fun _ _ hu => ensures_pure.mpr hu) fun _ _ => id

/-- The handle of an emptied register is given up. -/
theorem perform_drop (hF : Kept A F) (hs : s.Sound F 0) (name : String) :
    Ensures (Step.perform (.drop name)) s (fun _ t => t.Sound F 0) fun _ t => t.Sound F 0 := by
  have hrs := hs.sorted
  have herase := Registers.held_erase name hrs
  refine ensures_bind.mpr (ensures_get.mpr (ensures_bind.mpr (ensures_modify.mpr ?_)))
  -- a register that is not there holds no handle, and one that is there gives up its own
  cases hold : s.registers.lookup name with
  | none =>
    rw [Registers.handle?, hold, Option.toList_none, List.map_nil, Multiset.coe_nil, add_zero]
      at herase
    refine ensures_pure.mpr ⟨hrs.erase, ?_⟩
    change F (Registers.held _ + 0) _
    rw [herase]
    exact hs.kept
  | some old =>
    rw [Registers.handle?, hold, Option.toList_some, List.map_singleton, Multiset.coe_singleton]
      at herase
    refine ensures_bind.mpr (ensures_on.mpr (ensures_release.mpr (ensures_pure.mpr
      ⟨hrs.erase, hF.release ?_⟩)))
    change F (Registers.held _ + 0 + {old.handle}) _
    rw [add_zero, herase]
    simpa using hs.owns.kept

theorem perform_dropAll (hF : Kept A F) (hs : s.Sound F 0) :
    Ensures (Step.perform .dropAll) s (fun _ t => t.Sound F 0) fun _ t => t.Sound F 0 := by
  refine ensures_bind.mpr (ensures_get.mpr (ensures_bind.mpr (ensures_modify.mpr ?_)))
  refine ensures_bind.mpr (ensures_on.mpr (ensures_alter.mpr (ensures_pure.mpr
    ⟨List.Pairwise.nil, ?_⟩)))
  have hkept : F (0 + (s.registers.map (·.2.handle) : List Addr)) s.store.heap := by
    simpa [Registers.held] using hs.owns.kept
  exact hF.releaseAll _ hkept

/-- **Every command keeps what its acts keep**, with an answer and with a fault. -/
theorem perform (hF : Kept A F) (hs : s.Sound F 0) (c : Command) (hA : c.acts ⊆ A) :
    Ensures (Step.perform c) s (fun _ t => t.Sound F 0) fun _ t => t.Sound F 0 := by
  have hrs := hs.sorted
  have hown := hs.owns
  have hend : ∀ (t : Session), t.Owns F s.registers 0 → t.Sound F 0 := fun _ ht => ht.sound hrs
  -- a value in a register is held as long as the registers stay
  have hvalue : ∀ {name : String} {x : Addr} (extra : Multiset Addr), s.value? name = some x →
      x ∈ s.registers.held + extra := fun _ hx =>
    Multiset.mem_add.mpr (Or.inl (Session.mem_held_of_value? hx))
  cases c with
  | make e k =>
    exact ensures_bind.mpr ((hF.step_eval hown e).mono (fun a t ht => hF.step_keep hrs ht k)
      fun _ t ht => hend t ht)
  | build source k =>
    exact ensures_bind.mpr ((step_yields hown (hF.source_make hown.kept source hA)).mono
      (fun a t ht => hF.step_keep hrs ht k) fun _ t ht => hend t ht)
  | derive name d k =>
    refine ensures_bind.mpr (ensures_value ?_ hs)
    intro x hx
    refine ensures_bind.mpr ((step_on _ hown fun hh => hF.derivation_run hh (hvalue 0 hx) d).mono
      (fun r t ht => hF.step_keep? hrs ht k) fun _ t ht => hend t ht)
  | combine name c y k =>
    refine ensures_bind.mpr (ensures_value ?_ hs)
    intro x hx
    refine ensures_bind.mpr (ensures_promise ?_ fun _ => hs)
    apply hF.step_withOperand hrs hown y
    intro a t ht
    have hrun := hF.combination_run (x := x) (y := a) ht.kept (by simp) c
    exact ensures_bind.mpr ((step_yields ht hrun).mono (fun b u hu => hF.step_keep hrs hu k)
      fun _ u hu => hu.sound hrs)
  -- the second value is owned by the command until the change has ended
  | change name c y quiet =>
    refine ensures_bind.mpr (ensures_value ?_ hs)
    intro x hx
    refine ensures_bind.mpr (ensures_promise ?_ fun _ => hs)
    apply hF.step_withOperand hrs hown y
    intro a t ht
    have hrun := hF.change_run (x := x) (y := a) ht.kept (hvalue _ hx) (by simp) c hA
    refine ensures_bind.mpr ((step_keeps ht hrun).mono ?_ fun _ u hu => hu.sound hrs)
    intro _ u hu
    exact (step_changed hu x quiet).mono (fun _ v hv => hv.sound hrs) fun _ v hv => hv.sound hrs
  | adjust name a quiet =>
    refine ensures_bind.mpr (ensures_value ?_ hs)
    intro x hx
    refine ensures_bind.mpr ((hF.adjustment_run hown a hA).mono ?_ fun _ t ht => hend t ht)
    intro _ t ht
    exact (step_changed ht x quiet).mono (fun _ u hu => hend u hu) fun _ u hu => hend u hu
  | ask name q =>
    refine ensures_bind.mpr (ensures_value ?_ hs)
    intro x hx
    exact answer hrs _ (step_keeps hown (hF.question_run hown.kept q hA))
  | compare name c y =>
    refine ensures_bind.mpr (ensures_value ?_ hs)
    intro x hx
    refine ensures_bind.mpr (ensures_promise ?_ fun _ => hs)
    apply hF.step_withOperand hrs hown y
    intro a t ht
    exact answer hrs _ (step_keeps ht ((Comparison.reads x a c).keeps ht.kept))
  | compareHere name ignoreCase y =>
    refine ensures_bind.mpr (ensures_value ?_ hs)
    intro x hx
    apply hF.step_withOperand hrs hown y
    intro a t ht
    exact answer hrs _ (step_silent ht rfl rfl)
  | renderHere name style o =>
    refine ensures_bind.mpr (ensures_value ?_ hs)
    intro x hx
    exact answer hrs _ (step_silent hown rfl rfl)
  | openCursor name how target =>
    refine ensures_bind.mpr (ensures_value ?_ hs)
    intro x hx
    refine ensures_bind.mpr ((step_on _ hown fun hh => hF.opening_run hh (hvalue 0 hx) how).mono
      ?_ fun _ t ht => hend t ht)
    intro c t ht
    exact ensures_bind.mpr ((hF.step_put (x := .cursor c) hrs target ht).mono
      (fun _ _ hu => ensures_pure.mpr hu) fun _ _ => False.elim)
  | hasMore name =>
    refine ensures_bind.mpr (ensures_cursor ?_ hs)
    intro c hc
    exact answer hrs _ (step_keeps hown ((reads_ask _).keeps hown.kept))
  | next name k => exact hF.perform_next hs name k
  | takeNext name k => exact hF.perform_takeNext hs name k
  | sizeHint name =>
    refine ensures_bind.mpr (ensures_cursor ?_ hs)
    intro c hc
    exact answer hrs _ (step_keeps hown ((reads_ask _).keeps hown.kept))
  | collect name => exact hF.perform_collect hs name
  | drop name => exact hF.perform_drop hs name
  | dropAll => exact hF.perform_dropAll hs
  | usage =>
    have husage : F (s.registers.held + 0) s.store.heap.usage.2 := hF.move hF.hold .usage hown.kept
    exact ensures_bind.mpr (ensures_on.mpr (ensures_make.mpr (ensures_pure.mpr
      (hend _ ⟨rfl, husage⟩))))
  | isIdle => exact ensures_bind.mpr (ensures_get.mpr (ensures_pure.mpr hs))
  | shapeName sh => exact ensures_pure.mpr hs

end Kept

/-! ### Runs -/

/-- The session after a command, with its answer. -/
theorem Session.answer_of_ensures {P : Answer → Session → Prop} {s : Session} {c : Command}
    (h : Ensures (Step.perform c) s P fun f t => P (.fault f) t) : P (s.step c).1 (s.step c).2 := by
  unfold Ensures at h
  unfold Session.step
  rcases hr : (Step.perform c).run s with ⟨_ | _, t⟩ <;> rw [hr] at h <;> exact h

/-- The session after a command, whatever the answer. -/
theorem Session.step_of_ensures {P : Session → Prop} {s : Session} {c : Command}
    (h : Ensures (Step.perform c) s (fun _ t => P t) fun _ t => P t) : P (s.step c).2 :=
  answer_of_ensures (P := fun _ => P) h

/-- A command that can have one answer only. -/
theorem Session.step_of_answer {P : Session → Prop} {s : Session} {c : Command} {answer : Answer}
    (h : Ensures (Step.perform c) s (fun b t => b = answer ∧ P t) fun _ _ => False) :
    (s.step c).1 = answer ∧ P (s.step c).2 :=
  answer_of_ensures (P := fun b t => b = answer ∧ P t)
    (h.mono (fun _ _ => id) fun _ _ => False.elim)

/-- A command that can end in one fault only. -/
theorem Session.step_of_fault {s t : Session} {c : Command} {f : Fault}
    (h : Ensures (Step.perform c) s (fun _ _ => False) fun g u => g = f ∧ u = t) :
    s.step c = (.fault f, t) := by
  unfold Ensures at h
  unfold Session.step
  rcases hr : (Step.perform c).run s with ⟨_ | _, u⟩ <;> rw [hr] at h
  · obtain ⟨rfl, rfl⟩ := h
    rfl
  · exact h.elim

theorem Session.run_concat (cs : List Command) (c : Command) (s : Session) :
    (run (cs ++ [c]) s).2 = ((run cs s).2.step c).2 := by
  induction cs generalizing s with
  | nil => rfl
  | cons d cs ih => exact ih (s.step d).2

/-- The command that comes after some of the commands of a run is the one at that place. -/
theorem Session.eq_take_of_concat_prefix {cs p : List Command} {c : Command}
    (hp : p ++ [c] <+: cs) : p = cs.take p.length ∧ cs[p.length]? = some c := by
  obtain ⟨rest, rfl⟩ := hp
  simp

namespace Kept

variable {A : Set Act} {F : Multiset Addr → Heap → Prop} {s : Session}

theorem step (hF : Kept A F) (hs : s.Sound F 0) (c : Command) (hA : c.acts ⊆ A) :
    (s.step c).2.Sound F 0 :=
  Session.step_of_ensures (hF.perform hs c hA)

/-- **A run keeps what the acts of its commands keep.** -/
theorem run (hF : Kept A F) (cs : List Command) (hA : ∀ c ∈ cs, c.acts ⊆ A)
    (hs : s.Sound F 0) : (s.run cs).2.Sound F 0 := by
  induction cs generalizing s with
  | nil => exact hs
  | cons c cs ih =>
    exact ih (fun d hd => hA d (List.mem_cons_of_mem c hd))
      (hF.step hs c (hA c List.mem_cons_self))

end Kept

/-! ### Counts in every run -/

/-- The empty heap is exact. -/
theorem Heap.exact_empty : Heap.Exact {} 0 where
  count_eq hb := by simp [block?] at hb
  live ha := by simp [stored, total] at ha
  used hb := by simp [block?] at hb
  live_eq := rfl
  nothing_at ha := by simp at ha
  nothing_only hb := by simp [block?] at hb
  truth_at ha := by simp at ha
  plain hb := by simp [block?] at hb

theorem Session.sound_empty {F : Multiset Addr → Heap → Prop} (h : F 0 {}) :
    ({} : Session).Sound F 0 :=
  ⟨List.Pairwise.nil, h⟩

theorem Session.exact_sound (cs : List Command) :
    (run cs {}).2.Sound (fun held h => h.Exact held) 0 :=
  kept_exact.run cs (fun _ _ => Set.subset_univ _) (sound_empty exact_empty)

/-- Reference counts are exact after every run. -/
theorem Session.exact_run (cs : List Command) :
    (Session.run cs {}).2.store.heap.Exact (Session.run cs {}).2.held := by
  simpa using (exact_sound cs).kept

/-- **Reference counts are exact.**  After every run, with whatever faults, a block counts the
handles in registers, cursors and other blocks, and a permanent one counts one more; no handle
leads to a block that was freed; a block is live if and only if it is permanent or its count is
positive; and the number of live blocks is kept right. -/
theorem Session.run_counts_exact (cs : List Command) :
    let s := (Session.run cs {}).2
    let handles := s.held + s.store.heap.stored
    (∀ a b, s.store.heap.block? a = some b →
      b.count = handles.count a + if b.permanent then 1 else 0) ∧
    (∀ a ∈ handles, s.store.heap.Live a) ∧
    (∀ a, s.store.heap.Live a ↔
      (∃ b, s.store.heap.block? a = some b ∧ b.permanent = true) ∨ 0 < s.store.heap.count a) ∧
    s.store.heap.live = s.store.heap.occupied := by
  intro s handles
  have hexact := Session.exact_run cs
  refine ⟨fun a b hb => hexact.count_eq hb, fun a ha => hexact.live ha, fun a => ⟨?_, ?_⟩,
    hexact.live_eq⟩
  · -- a live block that is not permanent is used
    rintro ⟨b, hb⟩
    apply (hexact.used hb).imp (fun hperm => ⟨b, hb, hperm⟩)
    intro hcount
    rwa [count, hb]
  · rintro (⟨b, hb, -⟩ | hcount)
    · exact ⟨b, hb⟩
    · cases hb : s.store.heap.block? a with
      | none => simp [count, hb] at hcount
      | some b => exact ⟨b, hb⟩

end SharedValues
