import SharedValues.Proofs.Query.Written

/-!
# More levels

A rendering is given a number of levels, and ends with the fault of an endless one where they are
used up.  With one level more it comes to the same, unless it ended for want of levels: it writes
the same text, or breaks off in the same way, and settles the same words.

## Main definitions

* `Query.Curtails` — a reading comes to the same as another, or ends for want of levels.

## Main results

* `Heap.curtails_renderWithin` — more levels do not change a rendering that has enough of them.
-/

namespace SharedValues

namespace Query

variable {α β : Type} {q q' : Query (Fault × List Addr) α}

/-- **A reading curtails another**: it comes to the same, or ends for want of levels. -/
def Curtails (q q' : Query (Fault × List Addr) α) : Prop :=
  ∀ σ, (∃ writing, (q.run σ).1 = .error (.endless, writing)) ∨ q'.run σ = q.run σ

theorem curtails_refl (q : Query (Fault × List Addr) α) : Curtails q q := fun _ => .inr rfl

namespace Curtails

/-- What comes to the same goes on in the same way. -/
theorem bind {f f' : α → Query (Fault × List Addr) β} (hq : Curtails q q')
    (hf : ∀ a, Curtails (f a) (f' a)) : Curtails (q >>= f) (q' >>= f') := by
  intro σ
  rw [run_bind, run_bind]
  rcases hq σ with ⟨writing, hend⟩ | heq
  · left
    refine ⟨writing, ?_⟩
    revert hend
    rcases q.run σ with ⟨_ | a, τ⟩ <;> simp
  · rw [heq]
    rcases q.run σ with ⟨_ | a, τ⟩
    · exact .inr rfl
    · exact hf a τ

/-- Readings one after the other. -/
theorem mapM {write write' : Addr → Query (Fault × List Addr) α}
    (hwrite : ∀ a, Curtails (write a) (write' a)) (as : List Addr) :
    Curtails (as.mapM write) (as.mapM write') := by
  induction as with
  | nil => exact curtails_refl _
  | cons a as ih =>
    rw [List.mapM_cons, List.mapM_cons]
    exact (hwrite a).bind fun t => ih.bind fun ts => curtails_refl _

/-- A walk whose elements are written one after the other. -/
theorem renderWalk {write write' : Addr → Query (Fault × List Addr) String}
    (hwrite : ∀ a, Curtails (write a) (write' a)) (halt : Fault → Fault × List Addr)
    (o : PrintOptions) (w : Walk) :
    Curtails (Heap.renderWalk write halt o w) (Heap.renderWalk write' halt o w) := by
  unfold Heap.renderWalk
  dsimp only
  split
  · exact curtails_refl _
  split
  · exact curtails_refl _
  · exact (mapM hwrite _).bind fun parts => curtails_refl _

end Curtails

end Query

namespace Heap

open Query

/-- **More levels do not change a rendering** that has enough of them. -/
theorem curtails_renderWithin (h : Heap) (n : ℕ) (writing : List Addr) (style : Style)
    (o : PrintOptions) (x : Addr) :
    Curtails (h.renderWithin n writing style o x) (h.renderWithin (n + 1) writing style o x) := by
  induction n generalizing writing style o x with
  | zero => exact fun σ => .inl ⟨writing, rfl⟩
  | succ n ih =>
    -- writing the elements takes a level, recording the sequence does not
    have hbare : ∀ writing, h.IsSequence x → Curtails
        (h.renderWithin (n + 1) writing .bare o x) (h.renderWithin (n + 2) writing .bare o x) := by
      intro writing hx
      rw [renderWithin_bare _ _ _ hx, renderWithin_bare _ _ _ hx]
      exact .renderWalk (fun a => ih writing .delimited o.deeper a) _ o _
    cases h.form x with
    | word hw =>
      rw [renderWithin_word _ _ _ _ hw, renderWithin_word _ _ _ _ hw]
      exact curtails_refl _
    | sequence hx =>
      cases style with
      | bare => exact hbare writing hx
      | delimited =>
        rw [renderWithin_delimited _ _ _ hx, renderWithin_delimited _ _ _ hx]
        split
        · exact curtails_refl _
        · exact (hbare (x :: writing) hx).bind fun inner => curtails_refl _
    | node hx =>
      rw [renderWithin_node _ _ _ _ hx, renderWithin_node _ _ _ _ hx]
      exact (Curtails.mapM (fun a => ih writing .delimited o a) _).bind fun parts => curtails_refl _
    | error hx =>
      rw [renderWithin_error _ _ _ _ hx, renderWithin_error _ _ _ _ hx]
      exact ih writing .bare o _
    | plain hx =>
      rw [renderWithin_plain _ _ _ _ hx, renderWithin_plain _ _ _ _ hx]
      exact curtails_refl _

end Heap

end SharedValues
