import SharedValues.Proofs.Query.Handles
import SharedValues.Proofs.Query.Repeat
import SharedValues.Proofs.Session.Interrupted

/-!
# What an inquiry leaves alone

A session may ask whether two of its values are equal, whether one contains the other or has it as a
member, how a value is written, how many elements it has, and whether an index means one of them.
The answer is found by traversals that take handles and give them up.  The heap afterwards is the
one before, with every block, every count and both statistics, whether there is an answer or the
question ends in a violation.  Only words may have been settled.

## Main definitions

* `Inquiry` — the questions.
* `Inquiry.answer`, `Inquiry.withHandles` — asking them by queries, and by traversals that take
  handles.
* `Heap.Settles` — some more words are settled.
* `Session.Undisturbed` — a session is what it was, settled words aside.

## Main results

* `Inquiry.run_withHandles` — the two ways of asking are the same.
* `Inquiry.undisturbed` — no inquiry disturbs a session.
* `Inquiry.leaves_heap_alone` — both, in every state of a session.
-/

namespace SharedValues

/-! ### Settled words -/

namespace Heap

/-- Some more words are settled, all of which have numbers. -/
structure Settles (h : Heap) (σ τ : Settled) : Prop where
  /-- Settled words stay settled. -/
  le : σ ≤ τ
  /-- What is settled besides is a word with a number. -/
  word : ∀ a, τ.contains a = true →
    σ.contains a = true ∨ ∃ w, h.body a = .word w ∧ w.number?.isSome = true

variable {h : Heap} {σ τ : Settled} {a : Addr} {w : Word}

theorem Settles.refl (h : Heap) (σ : Settled) : h.Settles σ σ := ⟨le_refl σ, fun _ => .inl⟩

theorem Settles.insert (hσ : h.Settles σ τ) (ha : h.body a = .word w)
    (hw : w.number?.isSome = true) : h.Settles σ (τ.insert a) where
  le := hσ.le.trans (τ.le_insert a)
  word b hb := by
    rw [Settled.contains_insert, Bool.or_eq_true, decide_eq_true_eq] at hb
    rcases hb with hb | rfl
    · exact hσ.word b hb
    · exact .inr ⟨w, ha, hw⟩

/-- What is settled besides are words, as long as no block has been added. -/
theorem concord_settles (h : Heap) (σ : Settled) : Concord fun g τ τ' =>
    τ = τ' ∧ h.Steady g ∧ (g.blocks.size = h.blocks.size → h.Settles σ τ) where
  steady := by
    rintro g g' τ _ hsteady ⟨rfl, hg, hτ⟩
    refine ⟨rfl, hg.trans hsteady, fun hsize => hτ ?_⟩
    exact Nat.le_antisymm (hsteady.size_le.trans hsize.le) hg.size_le
  settle := by
    rintro g a w τ _ ha hw ⟨rfl, hg, hτ⟩
    refine ⟨rfl, hg, fun hsize => (hτ hsize).insert (hg.word ?_ ha) hw⟩
    rw [← hsize]
    exact (live_of_body ha (by simp)).lt_size
  numeric := by
    rintro g a w τ _ - ⟨rfl, -, -⟩
    rfl

/-- A query that no sets of settled words can tell apart settles words only. -/
theorem settles_of_concord {ε α : Type} {q : Query ε α} (σ : Settled)
    (hq : ∀ {R}, Concord R → R h σ σ → Lockstep (R h) q σ σ) : h.Settles σ (q.run σ).2 :=
  (hq (h.concord_settles σ) ⟨rfl, .refl h, fun _ => .refl h σ⟩).2.2.2 rfl

end Heap

/-! ### Inquiries -/

/-- A comparison inside of the one of a session, by a traversal that takes handles. -/
def Traversal.compareHere (ignoreCase : Bool) (x y : Addr) : Step Bool :=
  fun s =>
    let ((result, trail), store) := (Traversal.compare ignoreCase s.trail x y).run s.store
    (result, { s with trail, store })

/-- A rendering inside of the one of a session, by a traversal that takes handles. -/
def Traversal.renderHere (style : Style) (o : PrintOptions) (x : Addr) : Step String :=
  fun s =>
    let ((result, writing), store) := (Traversal.renderFrom s.writing style o x).run s.store
    (result, { s with writing, store })

/-- The questions that traverse values. -/
inductive Inquiry where
  /-- Whether two values are equal. -/
  | equal (ignoreCase : Bool) (x y : Addr)
  /-- Whether two values are equal, inside of the comparison of the session. -/
  | equalHere (ignoreCase : Bool) (x y : Addr)
  /-- Whether a value contains another. -/
  | contains (ignoreCase : Bool) (mode : Mode) (x needle : Addr)
  /-- Whether a value is a member of another. -/
  | isMember (ignoreCase : Bool) (mode : Mode) (x value : Addr)
  /-- How a value is written. -/
  | render (style : Style) (o : PrintOptions) (x : Addr)
  /-- How a value is written, inside of the rendering of the session. -/
  | renderHere (style : Style) (o : PrintOptions) (x : Addr)
  /-- How many elements a value has. -/
  | size (mode : Mode) (x : Addr)
  /-- Whether an index means an element of a value. -/
  | inRange (index : ℤ) (mode : Mode) (x : Addr)
  deriving DecidableEq, Repr

namespace Inquiry

/-- An inquiry as a session answers it. -/
def answer : Inquiry → Step Reply
  | equal ignoreCase x y => do return .flag (← .on ((Comparison.equal ignoreCase).run x y))
  | equalHere ignoreCase x y => do return .flag (← Step.compareHere ignoreCase x y)
  | contains ignoreCase mode x needle => do
    return .flag (← .on ((Comparison.contains ignoreCase mode).run x needle))
  | isMember ignoreCase mode x value => do
    return .flag (← .on ((Comparison.isMember ignoreCase mode).run x value))
  | render style o x => .on ((Question.render style o).run x)
  | renderHere style o x => do return .text (← Step.renderHere style o x)
  | size mode x => .on ((Question.size mode).run x)
  | inRange index mode x => .on ((Question.inRange index mode).run x)

/-- An inquiry whose traversals take handles.  The size of a value can be known without any. -/
def withHandles : Inquiry → Step Reply
  | equal ignoreCase x y => do return .flag (← .on (Traversal.equal ignoreCase x y))
  | equalHere ignoreCase x y => do return .flag (← Traversal.compareHere ignoreCase x y)
  | contains ignoreCase mode x needle => do
    return .flag (← .on (mode.call (Traversal.contains ignoreCase x needle)))
  | isMember ignoreCase mode x value => do
    return .flag (← .on (mode.call (Traversal.isMember ignoreCase x value)))
  | render style o x => .on do return .text (← Traversal.render style o x)
  | renderHere style o x => do return .text (← Traversal.renderHere style o x)
  | size mode x => .on ((Question.size mode).run x)
  | inRange index mode x => .on ((Question.inRange index mode).run x)

end Inquiry

/-! ### With handles and without -/

section Agreement

variable {α : Type} {s : Session} {op op' : Operation α}

theorem run_on_congr (hop : op.run s.store = op'.run s.store) :
    (Step.on op).run s = (Step.on op').run s := by
  rw [run_on, run_on, hop]

theorem run_call_congr {s : Store} (hop : op.run s = op'.run s) (m : Mode) :
    (m.call op).run s = (m.call op').run s := by
  have hpromised : op.promised.run s = op'.promised.run s := by
    rw [Operation.run_promised, Operation.run_promised, hop]
  cases m with
  | checked => exact hop
  | asserted => exact hpromised
  | typed => exact hpromised

namespace Traversal

/-- A traversal that spends nothing is its query. -/
theorem run_eq_ask {s : Store} (q : Heap → Query Fault α) (hop : Spends s.heap 0 op (q s.heap)) :
    op.run s = (Operation.ask q).run s :=
  hop.run s.settled

variable {ignoreCase : Bool} {style : Style} {o : PrintOptions} {x y : Addr}

theorem run_compareHere (hh : s.store.heap.InUse) :
    (compareHere ignoreCase x y).run s = (Step.compareHere ignoreCase x y).run s := by
  have hrun : (compareHere ignoreCase x y).run s =
      (((compare ignoreCase s.trail x y).run s.store).1.1,
        { s with
          trail := ((compare ignoreCase s.trail x y).run s.store).1.2
          store := ((compare ignoreCase s.trail x y).run s.store).2 }) := rfl
  have hequal := (Spends.equalOn hh ignoreCase s.trail x y).run s.store.settled
  rw [hrun, Step.run_compareHere, Heap.run_compare]
  unfold compare
  rw [StateT.run_bind, show StateT.run (equalOn ignoreCase s.trail x y).run s.store =
    (equalOn ignoreCase s.trail x y).run s.store from rfl, hequal]
  -- the outcome is the same in each case, with the trail it leaves
  rcases (s.store.heap.equalOn ignoreCase s.trail x y).run s.store.settled with
    ⟨⟨f, trail⟩ | _ | _, σ⟩
  · rfl
  · rfl
  · rfl

theorem run_renderHere (hh : s.store.heap.InUse) :
    (renderHere style o x).run s = (Step.renderHere style o x).run s := by
  have hrun : (renderHere style o x).run s =
      (((renderFrom s.writing style o x).run s.store).1.1,
        { s with
          writing := ((renderFrom s.writing style o x).run s.store).1.2
          store := ((renderFrom s.writing style o x).run s.store).2 }) := rfl
  have hrender := (Spends.renderOn hh s.writing style o x).run s.store.settled
  rw [hrun, Step.run_renderHere, Heap.run_renderFrom]
  unfold renderFrom
  rw [StateT.run_bind, show StateT.run (renderOn s.writing style o x).run s.store =
    (renderOn s.writing style o x).run s.store from rfl, hrender]
  rcases (s.store.heap.renderOn s.writing style o x).run s.store.settled with ⟨⟨f, writing⟩ | _, σ⟩
  · rfl
  · rfl

end Traversal

end Agreement

namespace Inquiry

open Traversal

variable {s : Session}

/-- **The handles that an inquiry takes make no difference**: it has the same outcome without. -/
theorem run_withHandles (hh : s.store.heap.InUse) (q : Inquiry) :
    q.withHandles.run s = q.answer.run s := by
  -- each inquiry is asked with handles or without them, and what surrounds it is the same
  cases q with
  | equal ignoreCase x y =>
    have hequal := run_eq_ask (·.equal ignoreCase x y) (Spends.equal hh ignoreCase x y)
    exact run_bind_congr (run_on_congr hequal) _
  | equalHere ignoreCase x y => exact run_bind_congr (run_compareHere hh) _
  | contains ignoreCase mode x needle =>
    have hcontains :=
      run_eq_ask (·.contains ignoreCase x needle) (Spends.contains hh ignoreCase x needle)
    exact run_bind_congr (run_on_congr (run_call_congr hcontains mode)) _
  | isMember ignoreCase mode x value =>
    have hisMember :=
      run_eq_ask (·.isMember ignoreCase x value) (Spends.isMember hh ignoreCase x value)
    exact run_bind_congr (run_on_congr (run_call_congr hisMember mode)) _
  | render style o x =>
    have hrender := run_eq_ask (·.render style o x) (Spends.render hh style o x)
    exact run_on_congr (run_bind_congr hrender _)
  | renderHere style o x => exact run_bind_congr (run_renderHere hh) _
  | size mode x => rfl
  | inRange index mode x => rfl

end Inquiry

/-! ### Nothing is disturbed -/

/-- A session is what it was, apart from words that are settled besides, and from the traversals
that it is inside of. -/
structure Session.Undisturbed (s t : Session) : Prop where
  /-- The heap is the same, with its blocks, their counts and the statistics. -/
  heap_eq : t.store.heap = s.store.heap
  /-- The registers are the same. -/
  registers_eq : t.registers = s.registers
  /-- Only words may have been settled. -/
  settles : s.store.heap.Settles s.store.settled t.store.settled

theorem snd_run_call {α : Type} (m : Mode) (op : Operation α) (s : Store) :
    ((m.call op).run s).2 = (op.run s).2 := by
  cases m <;> rfl

namespace Inquiry

open Heap (settles_of_concord)

/-- **No inquiry disturbs a session**, whatever its outcome. -/
theorem undisturbed (s : Session) (q : Inquiry) : s.Undisturbed (q.answer.run s).2 := by
  -- an inquiry only settles words, whatever its outcome
  cases q with
  | equal ignoreCase x y =>
    rw [answer, snd_run_bind_pure]
    have hsettles := settles_of_concord (h := s.store.heap) s.store.settled fun hR hσ =>
      hR.equal hσ ignoreCase x y
    exact ⟨rfl, rfl, hsettles⟩
  | equalHere ignoreCase x y =>
    have hsettles := settles_of_concord (h := s.store.heap) s.store.settled fun hR hσ =>
      hR.equalOn hσ ignoreCase s.trail x y
    rw [answer, snd_run_bind_pure, Step.run_compareHere, Heap.run_compare]
    exact ⟨rfl, rfl, hsettles⟩
  | contains ignoreCase mode x needle =>
    rw [answer, snd_run_bind_pure, run_on, Comparison.run, snd_run_call]
    exact ⟨rfl, rfl, settles_of_concord _ fun hR hσ => hR.contains hσ ignoreCase x needle⟩
  | isMember ignoreCase mode x value =>
    rw [answer, snd_run_bind_pure, run_on, Comparison.run, snd_run_call]
    exact ⟨rfl, rfl, settles_of_concord _ fun hR hσ => hR.isMember hσ ignoreCase x value⟩
  | render style o x =>
    rw [answer, run_on, Question.run, snd_run_bind_pure]
    have hsettles := settles_of_concord (h := s.store.heap) s.store.settled fun hR hσ =>
      hR.render hσ style o x
    exact ⟨rfl, rfl, hsettles⟩
  | renderHere style o x =>
    have hsettles := settles_of_concord (h := s.store.heap) s.store.settled fun hR hσ =>
      hR.renderOn hσ s.writing style o x
    rw [answer, snd_run_bind_pure, Step.run_renderHere, Heap.run_renderFrom]
    exact ⟨rfl, rfl, hsettles⟩
  | size mode x =>
    rw [answer, run_on, Question.run, snd_run_bind_pure, snd_run_call]
    exact ⟨rfl, rfl, settles_of_concord _ fun hR hσ => hR.size hσ x⟩
  | inRange index mode x =>
    rw [answer, run_on, Question.run, snd_run_bind_pure, snd_run_call]
    exact ⟨rfl, rfl, settles_of_concord _ fun hR hσ => hR.inRange hσ x index⟩

/-- **An inquiry leaves the heap alone**, in every state of a session and whatever its outcome:
the handles that its traversals take are all given up, and words are settled at most. -/
theorem leaves_heap_alone (cs : List Command) (q : Inquiry) :
    let s := (Session.run cs {}).2
    q.withHandles.run s = q.answer.run s ∧ s.Undisturbed (q.withHandles.run s).2 := by
  intro s
  have hrun := q.run_withHandles (Session.exact_run cs).inUse
  exact ⟨hrun, hrun ▸ q.undisturbed s⟩

end Inquiry

end SharedValues
