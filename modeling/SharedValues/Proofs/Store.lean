import Mathlib.Data.Multiset.AddSub
import SharedValues.Store

/-!
# Running operations

What a step on a state does is said by what holds when it ends, with a result or with a fault.  The
rules below take a composed step apart, and the operations on a store among the steps.  An operation
that only asks questions leaves the heap alone, whatever it is asked and however it ends.

## Main definitions

* `Ensures` — what holds when a step ends.
* `Operation.Reads` — an operation leaves the heap alone.
* `Operation.Yields`, `Operation.Keeps` — an operation keeps a property of the heap and of the
  handles held outside of it, and does or does not hand out one more.

## Main results

* `ensures_bind`, `ensures_holding`, `ensures_keeping` — the rules for composed operations.
* `Reads.ensures` — reading operations need no rules of their own.
-/

namespace SharedValues

/-! ### Steps -/

section Ensures

variable {ε α β σ : Type} {s : σ} {Q : α → σ → Prop} {E : ε → σ → Prop}

/-- **What holds when a step ends**: it ends in `Q` with a result, or in `E` with a fault. -/
def Ensures (step : ExceptT ε (StateM σ) α) (s : σ) (Q : α → σ → Prop) (E : ε → σ → Prop) :
    Prop :=
  match step.run s with
  | (.ok a, t) => Q a t
  | (.error f, t) => E f t

theorem ensures_of_ok {step : ExceptT ε (StateM σ) α} {a : α} {t : σ}
    (hrun : step.run s = (.ok a, t)) : Ensures step s Q E ↔ Q a t := by
  rw [Ensures, hrun]

theorem ensures_of_error {step : ExceptT ε (StateM σ) α} {f : ε} {t : σ}
    (hrun : step.run s = (.error f, t)) : Ensures step s Q E ↔ E f t := by
  rw [Ensures, hrun]

theorem ensures_pure {a : α} : Ensures (pure a) s Q E ↔ Q a s := Iff.rfl

theorem ensures_throw {f : ε} :
    Ensures (throw f : ExceptT ε (StateM σ) α) s Q E ↔ E f s := Iff.rfl

theorem run_bind (step : ExceptT ε (StateM σ) α) (f : α → ExceptT ε (StateM σ) β) (s : σ) :
    (step >>= f).run s =
      match step.run s with
      | (.ok a, t) => (f a).run t
      | (.error e, t) => (.error e, t) := by
  show (step >>= f) s = _
  simp only [bind, ExceptT.bind, ExceptT.mk, StateT.bind, ExceptT.run]
  rcases step s with ⟨_ | _, _⟩ <;> rfl

/-- What follows does not tell two steps apart that run alike. -/
theorem run_bind_congr {step step' : ExceptT ε (StateM σ) α} (hstep : step.run s = step'.run s)
    (f : α → ExceptT ε (StateM σ) β) : (step >>= f).run s = (step' >>= f).run s := by
  rw [run_bind, run_bind, hstep]

theorem snd_run_bind_pure (step : ExceptT ε (StateM σ) α) (g : α → β) (s : σ) :
    ((step >>= fun a => pure (g a)).run s).2 = (step.run s).2 := by
  rw [run_bind]
  rcases step.run s with ⟨_ | _, _⟩ <;> rfl

/-- A step after another starts where that one ends with a result. -/
theorem ensures_bind {step : ExceptT ε (StateM σ) α} {f : α → ExceptT ε (StateM σ) β}
    {Q : β → σ → Prop} :
    Ensures (step >>= f) s Q E ↔ Ensures step s (fun a t => Ensures (f a) t Q E) E := by
  unfold Ensures
  rw [run_bind]
  rcases step.run s with ⟨_ | _, _⟩ <;> exact Iff.rfl

theorem ensures_map {step : ExceptT ε (StateM σ) α} {g : α → β} {Q : β → σ → Prop} :
    Ensures (g <$> step) s Q E ↔ Ensures step s (fun a t => Q (g a) t) E := by
  have hmap : g <$> step = step >>= fun a => pure (g a) := rfl
  rw [hmap, ensures_bind]
  exact Iff.rfl

theorem ensures_get {Q : σ → σ → Prop} :
    Ensures (get : ExceptT ε (StateM σ) σ) s Q E ↔ Q s s := Iff.rfl

theorem ensures_modify {f : σ → σ} {Q : PUnit → σ → Prop} :
    Ensures (modify f : ExceptT ε (StateM σ) PUnit) s Q E ↔ Q ⟨⟩ (f s) := Iff.rfl

theorem ensures_adapt {ε' : Type} {step : ExceptT ε (StateM σ) α} {f : ε → ε'}
    {E : ε' → σ → Prop} :
    Ensures (step.adapt f) s Q E ↔ Ensures step s Q fun e t => E (f e) t := by
  have hrun : (step.adapt f).run s = ((step.run s).1.mapError f, (step.run s).2) := rfl
  unfold Ensures
  rw [hrun]
  rcases step.run s with ⟨_ | _, _⟩ <;> exact Iff.rfl

/-- Less may be asked of the end. -/
theorem Ensures.mono {step : ExceptT ε (StateM σ) α} {Q' : α → σ → Prop} {E' : ε → σ → Prop}
    (h : Ensures step s Q E) (hQ : ∀ a t, Q a t → Q' a t) (hE : ∀ f t, E f t → E' f t) :
    Ensures step s Q' E' := by
  unfold Ensures at h ⊢
  rcases hr : step.run s with ⟨_ | _, t⟩
  · rw [hr] at h
    exact hE _ _ h
  · rw [hr] at h
    exact hQ _ _ h

/-- What two statements say of the end holds together. -/
theorem Ensures.and {step : ExceptT ε (StateM σ) α} {Q' : α → σ → Prop} {E' : ε → σ → Prop}
    (h : Ensures step s Q E) (h' : Ensures step s Q' E') :
    Ensures step s (fun a t => Q a t ∧ Q' a t) fun f t => E f t ∧ E' f t := by
  unfold Ensures at h h' ⊢
  rcases hr : step.run s with ⟨_ | _, t⟩ <;> rw [hr] at h h' <;> exact ⟨h, h'⟩

/-- A step that can have one result only. -/
theorem result_of_ensures {step : ExceptT ε (StateM σ) α} {r : Except ε α}
    (h : Ensures step s (fun a _ => .ok a = r) fun f _ => .error f = r) : (step.run s).1 = r := by
  unfold Ensures at h
  rcases hr : step.run s with ⟨_ | _, t⟩ <;> rw [hr] at h <;> exact h

/-- A step that never fails ends with a result. -/
theorem Ensures.exists_ok {step : ExceptT ε (StateM σ) α} (h : Ensures step s Q fun _ _ => False) :
    ∃ a t, step.run s = (.ok a, t) ∧ Q a t := by
  unfold Ensures at h
  rcases hr : step.run s with ⟨_ | a, t⟩
  · rw [hr] at h
    exact h.elim
  · rw [hr] at h
    exact ⟨a, t, rfl, h⟩

/-- A step for each member of a list, if each of them has the result `g` says. -/
theorem ensures_mapM {step : α → ExceptT ε (StateM σ) β} {g : α → β} {P : σ → Prop} {as : List α}
    (h : ∀ a ∈ as, ∀ s, P s → Ensures (step a) s (fun b t => b = g a ∧ P t) E) (hs : P s) :
    Ensures (as.mapM step) s (fun bs t => bs = as.map g ∧ P t) E := by
  induction as generalizing s with
  | nil => exact ensures_pure.mpr ⟨rfl, hs⟩
  | cons a as ih =>
    rw [List.mapM_cons]
    refine ensures_bind.mpr ((h a List.mem_cons_self s hs).mono ?_ fun _ _ => id)
    rintro b t ⟨rfl, ht⟩
    have hrest := ih (fun c hc => h c (List.mem_cons_of_mem a hc)) ht
    refine ensures_bind.mpr (hrest.mono ?_ fun _ _ => id)
    rintro bs u ⟨rfl, hu⟩
    exact ensures_pure.mpr ⟨rfl, hu⟩

/-- A step for each member of a list keeps what each of them keeps. -/
theorem ensures_mapM_keeps {step : α → ExceptT ε (StateM σ) β} {P : σ → Prop} {as : List α}
    (h : ∀ a ∈ as, ∀ s, P s → Ensures (step a) s (fun _ t => P t) E) (hs : P s) :
    Ensures (as.mapM step) s (fun _ t => P t) E := by
  induction as generalizing s with
  | nil => exact ensures_pure.mpr hs
  | cons a as ih =>
    rw [List.mapM_cons]
    refine ensures_bind.mpr ((h a List.mem_cons_self s hs).mono ?_ fun _ _ => id)
    intro b t ht
    have hrest := ih (fun c hc => h c (List.mem_cons_of_mem a hc)) ht
    exact ensures_bind.mpr (hrest.mono (fun _ _ hu => ensures_pure.mpr hu) fun _ _ => id)

theorem run_mapM_cons (step : α → StateM σ β) (a : α) (as : List α) (s : σ) :
    ((a :: as).mapM step).run s =
      (((step a).run s).1 :: ((as.mapM step).run ((step a).run s).2).1,
        ((as.mapM step).run ((step a).run s).2).2) := by
  rw [List.mapM_cons]
  rfl

/-- Steps that leave a state as it is, one after the other, each have the result they have there. -/
theorem run_mapM_of_restored {step : α → StateM σ β} {g : α → β} {as : List α}
    (h : ∀ a ∈ as, (step a).run s = (g a, s)) : (as.mapM step).run s = (as.map g, s) := by
  induction as with
  | nil => rfl
  | cons a as ih =>
    rw [run_mapM_cons, h a List.mem_cons_self]
    dsimp only
    rw [ih fun b hb => h b (List.mem_cons_of_mem a hb), List.map_cons]

end Ensures

/-! ### Operations on a store -/

namespace Operation

variable {α β : Type} {s : Store} {Q : α → Store → Prop} {E : Fault → Store → Prop}

theorem ensures_look {f : Heap → α} : Ensures (look f) s Q E ↔ Q (f s.heap) s := Iff.rfl

/-- What follows a look at the heap starts with what was seen. -/
theorem run_look_bind (f : Heap → α) (g : α → Operation β) :
    (look f >>= g).run s = (g (f s.heap)).run s := by
  rw [run_bind]
  rfl

theorem run_check (f : Heap → Except Fault α) : (check f).run s = (f s.heap, s) := rfl

theorem ensures_check {f : Heap → Except Fault α} (hok : ∀ a, f s.heap = .ok a → Q a s)
    (herror : ∀ e, f s.heap = .error e → E e s) : Ensures (check f) s Q E := by
  have hrun : (check f).run s = (f s.heap, s) := rfl
  unfold Ensures
  rw [hrun]
  cases hf : f s.heap with
  | ok a => exact hok a hf
  | error e => exact herror e hf

theorem ensures_ask {q : Heap → Query Fault α}
    (hok : ∀ a settled, (q s.heap).run s.settled = (.ok a, settled) → Q a { s with settled })
    (herror : ∀ f settled, (q s.heap).run s.settled = (.error f, settled) →
      E f { s with settled }) : Ensures (ask q) s Q E := by
  have hrun : (ask q).run s = (((q s.heap).run s.settled).1,
      { s with settled := ((q s.heap).run s.settled).2 }) := rfl
  unfold Ensures
  rw [hrun]
  rcases hq : (q s.heap).run s.settled with ⟨f | a, settled⟩
  · exact herror f settled hq
  · exact hok a settled hq

theorem run_ask {q : Heap → Query Fault α} {r : Except Fault α} {σ : Settled}
    (hq : (q s.heap).run s.settled = (r, σ)) : (ask q).run s = (r, { s with settled := σ }) := by
  have hrun : (ask q).run s = (((q s.heap).run s.settled).1,
      { s with settled := ((q s.heap).run s.settled).2 }) := rfl
  rw [hrun, hq]

/-- A query that has a result. -/
theorem ensures_ask_of_ok {q : Heap → Query Fault α} {r : α} {σ : Settled}
    (hq : (q s.heap).run s.settled = (.ok r, σ)) :
    Ensures (ask q) s Q E ↔ Q r { s with settled := σ } :=
  ensures_of_ok (run_ask hq)

/-- A query that neither fails nor settles anything. -/
theorem ensures_ask_of_pure {q : Heap → Query Fault α} {a : α} (hq : q s.heap = pure a) :
    Ensures (ask q) s Q E ↔ Q a s := by
  have hrun : (ask q).run s = (((q s.heap).run s.settled).1,
      { s with settled := ((q s.heap).run s.settled).2 }) := rfl
  rw [Ensures, hrun, hq]
  exact Iff.rfl

theorem ensures_assert {f : Heap → Except Refusal α} (hok : ∀ a, f s.heap = .ok a → Q a s)
    (herror : ∀ r, f s.heap = .error r → E (.violated r) s) : Ensures (assert f) s Q E := by
  refine ensures_check (fun a ha => ?_) fun e he => ?_ <;> cases hf : f s.heap
  · simp [hf, Except.mapError] at ha
  · exact hok a (by simpa [hf, Except.mapError] using ha)
  · obtain rfl : _ = e := by simpa [hf, Except.mapError] using he
    exact herror _ hf
  · simp [hf, Except.mapError] at he

theorem ensures_check_of_ok {f : Heap → Except Fault α} {a : α} (hf : f s.heap = .ok a) :
    Ensures (check f) s Q E ↔ Q a s := by
  have hrun : (check f).run s = (f s.heap, s) := rfl
  rw [Ensures, hrun, hf]

theorem ensures_check_of_error {f : Heap → Except Fault α} {e : Fault}
    (hf : f s.heap = .error e) : Ensures (check f) s Q E ↔ E e s := by
  have hrun : (check f).run s = (f s.heap, s) := rfl
  rw [Ensures, hrun, hf]

theorem ensures_assert_of_ok {f : Heap → Except Refusal α} {a : α} (hf : f s.heap = .ok a) :
    Ensures (assert f) s Q E ↔ Q a s :=
  ensures_check_of_ok (by rw [hf]; rfl)

theorem ensures_demand {f : Heap → Except Refusal α} (hok : ∀ a, f s.heap = .ok a → Q a s)
    (herror : ∀ r, f s.heap = .error r → E (.refused r) s) : Ensures (demand f) s Q E := by
  refine ensures_check (fun a ha => ?_) fun e he => ?_ <;> cases hf : f s.heap
  · simp [hf, Except.mapError] at ha
  · exact hok a (by simpa [hf, Except.mapError] using ha)
  · obtain rfl : _ = e := by simpa [hf, Except.mapError] using he
    exact herror _ hf
  · simp [hf, Except.mapError] at he

theorem ensures_demand_of_ok {f : Heap → Except Refusal α} {a : α} (hf : f s.heap = .ok a) :
    Ensures (demand f) s Q E ↔ Q a s :=
  ensures_check_of_ok (by rw [hf]; rfl)

theorem ensures_alter {f : Heap → Heap} {Q : Unit → Store → Prop} :
    Ensures (alter f) s Q E ↔ Q () { s with heap := f s.heap } := Iff.rfl

theorem ensures_make {f : Heap → α × Heap} :
    Ensures (make f) s Q E ↔ Q (f s.heap).1 { s with heap := (f s.heap).2 } := Iff.rfl

theorem ensures_share {a : Addr} {Q : Addr → Store → Prop} :
    Ensures (share a) s Q E ↔ Q a { s with heap := s.heap.retain a } := Iff.rfl

theorem ensures_create {body : Body} {Q : Addr → Store → Prop} :
    Ensures (create body) s Q E ↔
      Q ((s.heap.retainAll body.handles).alloc body).1
        { s with heap := ((s.heap.retainAll body.handles).alloc body).2 } := Iff.rfl

theorem ensures_release {a : Addr} {Q : Unit → Store → Prop} :
    Ensures (release a) s Q E ↔ Q () { s with heap := s.heap.release a } := Iff.rfl

theorem ensures_holdingAll (as : List Addr) {op : Operation α} :
    Ensures (holdingAll as op) s Q E ↔
      Ensures op s (fun a t => Q a { t with heap := t.heap.releaseAll as })
        (fun f t => E f { t with heap := t.heap.releaseAll as }) := by
  have hrun : (holdingAll as op).run s =
      ((op.run s).1, { (op.run s).2 with heap := (op.run s).2.heap.releaseAll as }) := rfl
  unfold Ensures
  rw [hrun]
  rcases op.run s with ⟨_ | _, _⟩ <;> exact Iff.rfl

theorem ensures_holding {a : Addr} {op : Operation α} :
    Ensures (holding a op) s Q E ↔
      Ensures op s (fun b t => Q b { t with heap := t.heap.release a })
        (fun f t => E f { t with heap := t.heap.release a }) :=
  ensures_holdingAll [a]

theorem run_keeping (a : Addr) (op : Operation α) (s : Store) :
    (keeping a op).run s =
      match op.run s with
      | (.ok x, t) => (.ok x, t)
      | (.error f, t) => (.error f, { t with heap := t.heap.release a }) := rfl

theorem ensures_keeping {a : Addr} {op : Operation α} :
    Ensures (keeping a op) s Q E ↔
      Ensures op s Q (fun f t => E f { t with heap := t.heap.release a }) := by
  unfold Ensures
  rw [run_keeping]
  rcases op.run s with ⟨_ | _, _⟩ <;> exact Iff.rfl

theorem run_promised (op : Operation α) (s : Store) :
    (promised op).run s = ((op.run s).1.mapError Fault.promised, (op.run s).2) := rfl

theorem ensures_promised {op : Operation α} :
    Ensures (promised op) s Q E ↔ Ensures op s Q (fun f t => E f.promised t) := by
  unfold Ensures
  rw [run_promised]
  rcases op.run s with ⟨_ | _, _⟩ <;> exact Iff.rfl

/-! ### Reading operations -/

/-- An operation leaves the heap alone. -/
def Reads (op : Operation α) : Prop := ∀ s, (op.run s).2.heap = s.heap

theorem Reads.ensures {op : Operation α} (hop : Reads op)
    (hQ : ∀ a t, t.heap = s.heap → Q a t) (hE : ∀ f t, t.heap = s.heap → E f t) :
    Ensures op s Q E := by
  have hheap := hop s
  unfold Ensures
  rcases hr : op.run s with ⟨_ | _, t⟩
  · exact hE _ _ (by rw [← hheap, hr])
  · exact hQ _ _ (by rw [← hheap, hr])

theorem reads_pure (a : α) : Reads (pure a : Operation α) := fun _ => rfl

theorem reads_throw (f : Fault) : Reads (throw f : Operation α) := fun _ => rfl

theorem reads_ask (q : Heap → Query Fault α) : Reads (ask q) := fun _ => rfl

theorem reads_look (f : Heap → α) : Reads (look f) := fun _ => rfl

theorem reads_assert (f : Heap → Except Refusal α) : Reads (assert f) := fun _ => rfl

theorem Reads.bind {op : Operation α} {f : α → Operation β} (hop : Reads op)
    (hf : ∀ a, Reads (f a)) : Reads (op >>= f) := by
  intro s
  have hheap := hop s
  rw [run_bind]
  rcases hr : op.run s with ⟨_ | a, t⟩
  · rw [← hheap, hr]
  · rw [← hheap, hr]
    exact hf a t

theorem Reads.promised {op : Operation α} (hop : Reads op) : Reads (promised op) := fun s => hop s

/-! ### Operations that keep a property -/

/-- An operation keeps a property, and hands out a handle if it ends with a result. -/
def Yields (F : Multiset Addr → Heap → Prop) (held : Multiset Addr) (op : Operation Addr)
    (s : Store) : Prop :=
  Ensures op s (fun a t => F (held + {a}) t.heap) fun _ t => F held t.heap

/-- An operation keeps a property and hands out no handle. -/
def Keeps (F : Multiset Addr → Heap → Prop) (held : Multiset Addr) (op : Operation α)
    (s : Store) : Prop :=
  Ensures op s (fun _ t => F held t.heap) fun _ t => F held t.heap

variable {F : Multiset Addr → Heap → Prop} {held : Multiset Addr}

theorem Yields.promised {op : Operation Addr} (hop : Yields F held op s) :
    Yields F held (promised op) s :=
  ensures_promised.mpr hop

theorem Keeps.promised {op : Operation α} (hop : Keeps F held op s) :
    Keeps F held (promised op) s :=
  ensures_promised.mpr hop

theorem Reads.keeps {op : Operation α} (hop : Reads op) (hh : F held s.heap) :
    Keeps F held op s :=
  hop.ensures (fun _ _ ht => by rwa [ht]) fun _ _ ht => by rwa [ht]

end Operation

end SharedValues
