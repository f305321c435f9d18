import SharedValues.Proofs.Heap.Steady
import SharedValues.Proofs.Store

/-!
# Runs in lockstep

What has been settled is kept beside the heap.  Two stores with the same heap may differ in it
without any operation telling them apart; then every operation ends alike on both, and they stay
that way.  A property of the settled words that all operations keep is the case in which the two
stores are the same.

## Main definitions

* `Lockstep` — two runs of a step end alike, and in related states.
* `Concord` — a relation between sets of settled words that no reading tells apart.
* `Synced` — stores with the same heap and related settled words.

## Main results

* `Lockstep.bind`, `Lockstep.mapM` — steps one after the other.
* `Concord.ask`, `Concord.alter`, `Concord.make` — the elementary operations.
-/

namespace SharedValues

/-! ### Steps -/

section Lockstep

variable {ε α β σ : Type} {S : σ → σ → Prop} {s t : σ}

/-- **Two runs in lockstep** end alike, and `S` relates the states in which they end. -/
def Lockstep (S : σ → σ → Prop) (step : ExceptT ε (StateM σ) α) (s t : σ) : Prop :=
  (step.run s).1 = (step.run t).1 ∧ S (step.run s).2 (step.run t).2

theorem Lockstep.pure (hs : S s t) (a : α) :
    Lockstep S (pure a : ExceptT ε (StateM σ) α) s t :=
  ⟨rfl, hs⟩

theorem Lockstep.throw (hs : S s t) (f : ε) :
    Lockstep S (throw f : ExceptT ε (StateM σ) α) s t :=
  ⟨rfl, hs⟩

/-- A step after another starts in lockstep where that one ends. -/
theorem Lockstep.bind {step : ExceptT ε (StateM σ) α} {f : α → ExceptT ε (StateM σ) β}
    (h : Lockstep S step s t) (hf : ∀ a s' t', S s' t' → Lockstep S (f a) s' t') :
    Lockstep S (step >>= f) s t := by
  obtain ⟨hend, hS⟩ := h
  unfold Lockstep
  rw [run_bind, run_bind]
  rcases hs : step.run s with ⟨_ | a, s'⟩
  all_goals
    rcases ht : step.run t with ⟨_ | b, t'⟩
    all_goals rw [hs, ht] at hend hS
  · obtain rfl := Except.error.inj hend
    exact ⟨rfl, hS⟩
  · exact absurd hend (by simp)
  · exact absurd hend (by simp)
  · obtain rfl := Except.ok.inj hend
    exact hf a s' t' hS

/-- A result made of the result of a step. -/
theorem Lockstep.result {step : ExceptT ε (StateM σ) α} (h : Lockstep S step s t) (g : α → β) :
    Lockstep S (step >>= fun a => Pure.pure (g a)) s t :=
  h.bind fun a _ _ hs => .pure hs (g a)

theorem Lockstep.map {step : ExceptT ε (StateM σ) α} (h : Lockstep S step s t) (g : α → β) :
    Lockstep S (g <$> step) s t :=
  h.result g

theorem Lockstep.adapt {ε' : Type} {step : ExceptT ε (StateM σ) α} (h : Lockstep S step s t)
    (f : ε → ε') : Lockstep S (step.adapt f) s t :=
  ⟨congrArg (Except.mapError f) h.1, h.2⟩

/-- A step for each member of a list. -/
theorem Lockstep.mapM {step : α → ExceptT ε (StateM σ) β} {as : List α} (hs : S s t)
    (h : ∀ a ∈ as, ∀ s' t', S s' t' → Lockstep S (step a) s' t') :
    Lockstep S (as.mapM step) s t := by
  induction as generalizing s t with
  | nil =>
    rw [List.mapM_nil]
    exact .pure hs []
  | cons a as ih =>
    rw [List.mapM_cons]
    apply (h a List.mem_cons_self s t hs).bind
    intro b s' t' hs'
    have hrest := ih hs' fun c hc => h c (List.mem_cons_of_mem a hc)
    exact hrest.bind fun bs _ _ hs'' => .pure hs'' (b :: bs)

end Lockstep

/-! ### Settled words -/

/-- A relation between two sets of settled words of a heap that goes along with all changes and
that no reading tells apart. -/
structure Concord (R : Heap → Settled → Settled → Prop) : Prop where
  /-- A change of the heap leaves the words alone. -/
  steady : ∀ {h h' σ τ}, h.Steady h' → R h σ τ → R h' σ τ
  /-- A word with a number may be settled. -/
  settle : ∀ {h a w σ τ}, h.body a = .word w → w.number?.isSome = true → R h σ τ →
    R h (σ.insert a) (τ.insert a)
  /-- The same words are treated as numbers. -/
  numeric : ∀ {h a w σ τ}, h.body a = .word w → R h σ τ →
    w.isNumeric (σ.contains a) = w.isNumeric (τ.contains a)

/-- Stores with the same heap and related settled words. -/
structure Synced (R : Heap → Settled → Settled → Prop) (s t : Store) : Prop where
  /-- The heaps are the same. -/
  heap_eq : s.heap = t.heap
  /-- The settled words are related. -/
  settled : R s.heap s.settled t.settled

namespace Concord

open Operation

variable {R : Heap → Settled → Settled → Prop} {s t : Store} {α β : Type}

/-! ### Elementary operations -/

theorem ask (hs : Synced R s t) {q : Heap → Query Fault α}
    (hq : Lockstep (R s.heap) (q s.heap) s.settled t.settled) :
    Lockstep (Synced R) (ask q) s t := by
  obtain ⟨h, σ⟩ := s
  obtain ⟨h', τ⟩ := t
  obtain rfl : h = h' := hs.heap_eq
  exact ⟨hq.1, rfl, hq.2⟩

/-- What follows a look at the heap may depend on what was seen. -/
theorem look (hs : Synced R s t) {f : Heap → α} {g : α → Operation β}
    (hg : Lockstep (Synced R) (g (f s.heap)) s t) : Lockstep (Synced R) (look f >>= g) s t := by
  have hsame : f s.heap = f t.heap := congrArg f hs.heap_eq
  refine ⟨?_, ?_⟩
  · exact hg.1.trans (by rw [hsame]; rfl)
  · have hend := hg.2
    rw [show ((g (f s.heap)).run t) = (Operation.look f >>= g).run t by rw [hsame]; rfl] at hend
    exact hend

theorem check (hs : Synced R s t) {f : Heap → Except Fault α} {g : α → Operation β}
    (hg : ∀ a, f s.heap = .ok a → Lockstep (Synced R) (g a) s t) :
    Lockstep (Synced R) (check f >>= g) s t := by
  have hrun : ∀ u : Store, (Operation.check f).run u = (f u.heap, u) := fun _ => rfl
  unfold Lockstep
  rw [run_bind, run_bind, hrun, hrun, ← hs.heap_eq]
  cases hf : f s.heap with
  | error e => exact ⟨rfl, hs⟩
  | ok a => exact hg a hf

theorem checked (hs : Synced R s t) (f : Heap → Except Fault α) :
    Lockstep (Synced R) (Operation.check f) s t :=
  ⟨congrArg f hs.heap_eq, hs⟩

theorem assert (hs : Synced R s t) {f : Heap → Except Refusal α} {g : α → Operation β}
    (hg : ∀ a, f s.heap = .ok a → Lockstep (Synced R) (g a) s t) :
    Lockstep (Synced R) (assert f >>= g) s t := by
  refine check hs fun a ha => hg a ?_
  cases hf : f s.heap with
  | error r => simp [hf, Except.mapError] at ha
  | ok b => simpa [hf, Except.mapError] using ha

theorem demand (hs : Synced R s t) {f : Heap → Except Refusal α} {g : α → Operation β}
    (hg : ∀ a, f s.heap = .ok a → Lockstep (Synced R) (g a) s t) :
    Lockstep (Synced R) (demand f >>= g) s t := by
  refine check hs fun a ha => hg a ?_
  cases hf : f s.heap with
  | error r => simp [hf, Except.mapError] at ha
  | ok b => simpa [hf, Except.mapError] using ha

/-- A change of the heap alone. -/
theorem synced (hR : Concord R) (hs : Synced R s t) {h : Heap} (hh : s.heap.Steady h) :
    Synced R { s with heap := h } { t with heap := h } :=
  ⟨rfl, hR.steady hh hs.settled⟩

theorem alter (hR : Concord R) (hs : Synced R s t) {f : Heap → Heap}
    (hf : s.heap.Steady (f s.heap)) : Lockstep (Synced R) (alter f) s t := by
  have hend := hR.synced hs hf
  refine ⟨rfl, ?_⟩
  show Synced R { s with heap := f s.heap } { t with heap := f t.heap }
  rwa [← hs.heap_eq]

theorem make (hR : Concord R) (hs : Synced R s t) {f : Heap → α × Heap}
    (hf : s.heap.Steady (f s.heap).2) : Lockstep (Synced R) (make f) s t := by
  have hend := hR.synced hs hf
  refine ⟨congrArg (fun h => Except.ok (f h).1) hs.heap_eq, ?_⟩
  show Synced R { s with heap := (f s.heap).2 } { t with heap := (f t.heap).2 }
  rwa [← hs.heap_eq]

theorem share (hR : Concord R) (hs : Synced R s t) (a : Addr) :
    Lockstep (Synced R) (share a) s t :=
  (hR.alter hs (.retain _ a)).result _

theorem create (hR : Concord R) (hs : Synced R s t) (body : Body) :
    Lockstep (Synced R) (create body) s t :=
  (hR.alter hs (.retainAll _ _)).bind fun _ _ _ hs => hR.make hs (.alloc _ _ _)

theorem release (hR : Concord R) (hs : Synced R s t) (a : Addr) :
    Lockstep (Synced R) (release a) s t :=
  hR.alter hs (.release _ a)

/-! ### Operations around others -/

variable {op : Operation α}

theorem holdingAll (hR : Concord R) (as : List Addr) (hop : Lockstep (Synced R) op s t) :
    Lockstep (Synced R) (holdingAll as op) s t := by
  obtain ⟨hend, hs⟩ := hop
  have hrun : ∀ u : Store, (Operation.holdingAll as op).run u =
      ((op.run u).1, { (op.run u).2 with heap := (op.run u).2.heap.releaseAll as }) :=
    fun _ => rfl
  unfold Lockstep
  rw [hrun, hrun, ← hs.heap_eq]
  exact ⟨hend, hR.synced hs (.releaseAll _ as)⟩

theorem holding (hR : Concord R) (a : Addr) (hop : Lockstep (Synced R) op s t) :
    Lockstep (Synced R) (holding a op) s t :=
  hR.holdingAll [a] hop

theorem keeping (hR : Concord R) (a : Addr) (hop : Lockstep (Synced R) op s t) :
    Lockstep (Synced R) (keeping a op) s t := by
  obtain ⟨hend, hs⟩ := hop
  unfold Lockstep
  rw [run_keeping, run_keeping]
  rcases hs' : op.run s with ⟨_ | x, s'⟩
  all_goals
    rcases ht' : op.run t with ⟨_ | y, t'⟩
    all_goals rw [hs', ht'] at hend hs
  -- only a fault releases the value, and then it does so on both sides
  · obtain rfl := Except.error.inj hend
    refine ⟨rfl, ?_⟩
    show Synced R { s' with heap := s'.heap.release a } { t' with heap := t'.heap.release a }
    have hrelease := hR.synced hs (.release s'.heap a)
    rwa [← (hs.heap_eq : s'.heap = t'.heap)]
  · exact absurd hend (by simp)
  · exact absurd hend (by simp)
  · exact ⟨hend, hs⟩

theorem promised (hop : Lockstep (Synced R) op s t) :
    Lockstep (Synced R) (promised op) s t :=
  ⟨congrArg (Except.mapError Fault.promised) hop.1, hop.2⟩

end Concord

end SharedValues
