import SharedValues.Proofs.Query.Broken
import SharedValues.Proofs.Session.Lockstep

/-!
# Renderings go unnoticed

To be written, a number has to spell its text, so that it is settled from then on.  Nothing else
comes of a rendering, whatever is written and however the rendering ends, and a number is treated
as one whether it is settled or not.  So a session in which a value has been written goes on as it
would have gone on without, save for the answers about what is settled.

## Main definitions

* `Question.writes` — a question is answered by the written forms of some values.
* `Session.written` — the session after some values have been written.
* `Settled.Alike` — no reading of a heap tells two sets of settled words apart.

## Main results

* `concord_alike` — two sets of settled words stay alike whatever happens to the heap.
* `ensures_writes` — a rendering leaves the settled words alike.
* `Session.rendering_unnoticed` — all later answers are the same, and so is all that is left.
-/

namespace SharedValues

open Heap Operation

/-- A question is answered by the written forms of some values, each in a rendering of its own. -/
def Question.writes : Question → Bool
  | shown | inspected | render .. | renderWord _ | parsed | slots | children => true
  | _ => false

/-- The session after values were written to answer a question about the value at an address. -/
def Session.written (q : Question) (x : Addr) (s : Session) : Session :=
  ((Step.on (q.run x)).run s).2

/-! ### Settled words that are alike -/

/-- No reading of a heap tells two sets of settled words apart: the same words are treated as
numbers, and no address is settled in one of the sets only before there is a word. -/
structure Settled.Alike (h : Heap) (σ τ : Settled) : Prop where
  /-- The words that are there are treated alike. -/
  reading : h.SameReading σ τ
  /-- So will be the words to come. -/
  later : ∀ a, h.blocks.size ≤ a → σ.contains a = τ.contains a

namespace Settled.Alike

variable {h : Heap} {σ τ : Settled} {a : Addr} {w : Word}

theorem refl (h : Heap) (σ : Settled) : Alike h σ σ := ⟨.refl h σ, fun _ _ => rfl⟩

/-- A number may be settled in one of the sets only. -/
theorem insert (hστ : Alike h σ τ) (ha : h.body a = .word w) (hw : w.isNumber = true) :
    Alike h σ (τ.insert a) where
  reading := hστ.reading.insert ha hw
  later b hb := by
    have hlt : a < h.blocks.size := (live_of_body ha (by simp)).lt_size
    rw [contains_insert, hστ.later b hb]
    simp [(hlt.trans_le hb).ne]

end Settled.Alike

/-- **Sets of settled words stay alike**, whatever happens to the heap and whatever is settled in
both. -/
theorem concord_alike : Concord Settled.Alike where
  steady := by
    intro h h' σ τ hh hστ
    refine ⟨fun a w hw => ?_, fun a ha => hστ.later a (hh.size_le.trans ha)⟩
    -- the readings agree on old words, and no later address is settled on either side
    rcases Nat.lt_or_ge a h.blocks.size with ha | ha
    · exact hστ.reading a w (hh.word ha hw)
    · rw [hστ.later a ha]
  settle := by
    intro h a w σ τ _ _ hστ
    refine ⟨fun b v hb => ?_, fun b hb => ?_⟩
    -- settling a word gives it the same reading on both sides, and leaves those of the others
    · have hsame := hστ.reading b v hb
      unfold Word.isNumeric at hsame ⊢
      rw [Settled.contains_insert, Settled.contains_insert, Bool.or_right_comm,
        Bool.or_right_comm (τ.contains b), hsame]
    · rw [Settled.contains_insert, Settled.contains_insert, hστ.later b hb]
  numeric ha hστ := hστ.reading _ _ ha

/-! ### What a rendering leaves behind -/

section Renderings

variable {h : Heap} {s : Store} {σ τ : Settled} {x : Addr}

/-- A rendering settles numbers only, whatever is written and however it ends. -/
theorem ensures_render_alike (hσ : Settled.Alike h σ τ) (style : Style) (o : PrintOptions)
    (x : Addr) :
    Ensures (h.render style o x) τ (fun _ τ' => Settled.Alike h σ τ')
      fun _ τ' => Settled.Alike h σ τ' :=
  ensures_adapt.mpr ((ensures_renderWithin_breaks (fun ha hw hτ => hτ.insert ha hw) hσ _ [] style o
    x).mono (fun _ _ => id) fun _ _ => And.right)

theorem ensures_inspected_alike (hσ : Settled.Alike h σ τ) (x : Addr) :
    Ensures (h.inspected x) τ (fun _ τ' => Settled.Alike h σ τ')
      fun _ τ' => Settled.Alike h σ τ' := by
  unfold inspected
  split
  · exact ensures_pure.mpr hσ
  · exact ensures_bind.mpr ((ensures_render_alike hσ _ _ x).mono
      (fun _ _ hτ => ensures_pure.mpr hτ) fun _ _ => id)

/-- A query that leaves the settled words alike, put to a store. -/
theorem ensures_ask_alike {α : Type} {q : Heap → Query Fault α} {t : Store}
    (ht : Synced Settled.Alike s t)
    (hq : Ensures (q t.heap) t.settled (fun _ τ => Settled.Alike t.heap s.settled τ)
      fun _ τ => Settled.Alike t.heap s.settled τ) :
    Ensures (ask q) t (fun _ u => Synced Settled.Alike s u) fun _ u =>
      Synced Settled.Alike s u := by
  have hend : ∀ τ, Settled.Alike t.heap s.settled τ →
      Synced Settled.Alike s { t with settled := τ } := by
    intro τ hτ
    exact ⟨ht.heap_eq, ht.heap_eq ▸ hτ⟩
  refine ensures_ask (fun a τ hrun => ?_) fun f τ hrun => ?_
  · exact hend τ ((ensures_of_ok hrun).mp hq)
  · exact hend τ ((ensures_of_error hrun).mp hq)

/-- The default written forms of some values. -/
theorem ensures_shownAll_alike (s : Store) (as : List Addr) :
    Ensures (Question.shownAll as) s (fun _ t => Synced Settled.Alike s t)
      fun _ t => Synced Settled.Alike s t := by
  refine ensures_bind.mpr ((ensures_mapM_keeps ?_ ⟨rfl, .refl _ _⟩).mono
    (fun _ _ ht => ensures_pure.mpr ht) fun _ _ => id)
  intro a _ t ht
  exact ensures_ask_alike ht
    (ensures_render_alike (ht.heap_eq ▸ ht.settled) .delimited {} a)

/-- **A rendering leaves the settled words alike**, and the heap as it is. -/
theorem ensures_writes {q : Question} (hq : q.writes = true) (x : Addr) (s : Store) :
    Ensures (q.run x) s (fun _ t => Synced Settled.Alike s t)
      fun _ t => Synced Settled.Alike s t := by
  have hs : Synced Settled.Alike s s := ⟨rfl, .refl _ _⟩
  -- one value is written, in one of several forms
  have hone : ∀ {q : Heap → Query Fault String},
      Ensures (q s.heap) s.settled (fun _ τ => Settled.Alike s.heap s.settled τ)
        (fun _ τ => Settled.Alike s.heap s.settled τ) →
      Ensures (do return .text (← ask q) : Operation Reply) s
        (fun _ t => Synced Settled.Alike s t) fun _ t => Synced Settled.Alike s t := fun h =>
    ensures_bind.mpr ((ensures_ask_alike hs h).mono (fun _ _ ht => ensures_pure.mpr ht)
      fun _ _ => id)
  cases q with
  | shown => exact hone (ensures_render_alike (.refl _ _) .delimited {} x)
  | inspected => exact hone (ensures_inspected_alike (.refl _ _) x)
  | render style o => exact hone (ensures_render_alike (.refl _ _) style o x)
  | renderWord o =>
    refine ensures_bind.mpr (ensures_assert ?_ fun _ _ => hs)
    intro w hw
    refine hone ((ensures_renderWord_keeps (body_of_word hw) ?_ (.refl _ _) o).mono (fun _ _ => id)
      fun _ _ => False.elim)
    exact fun ha hw hτ => hτ.insert ha hw
  -- the parts of a value are written one after the other
  | parsed =>
    exact ensures_bind.mpr (ensures_assert (fun l _ => ensures_shownAll_alike s l.parsed)
      fun _ _ => hs)
  | slots =>
    exact ensures_bind.mpr (ensures_assert (fun r _ => ensures_shownAll_alike s r.slots)
      fun _ _ => hs)
  | children =>
    exact ensures_bind.mpr (ensures_assert (fun n _ => ensures_shownAll_alike s n.2)
      fun _ _ => hs)
  | _ => simp [Question.writes] at hq

end Renderings

/-! ### Sessions -/

namespace Session

variable {R : Heap → Settled → Settled → Prop} {s t : Session}

theorem synced_written {q : Question} (hq : q.writes = true) (x : Addr) (s : Session) :
    s.Synced Settled.Alike (s.written q x) := by
  have hstore : SharedValues.Synced Settled.Alike s.store ((q.run x).run s.store).2 := by
    have hwrites := ensures_writes hq x s.store
    unfold Ensures at hwrites
    rcases hrun : (q.run x).run s.store with ⟨_ | _, t⟩ <;> rw [hrun] at hwrites <;> exact hwrites
  exact ⟨hstore, rfl, rfl, rfl⟩

/-- In synced sessions, the commands of a run get the same answers, those apart that ask which words
are settled. -/
theorem run_lockstep (hR : Concord R) (hs : s.Synced R t) {cs : List Command} {i : ℕ} {c : Command}
    (hi : cs[i]? = some c) (hc : ¬c.Reveals) :
    ∃ answer, (s.run cs).1[i]? = some answer ∧ (t.run cs).1[i]? = some answer := by
  induction cs generalizing s t i with
  | nil => simp at hi
  | cons d cs ih =>
    cases i with
    | zero =>
      obtain rfl : d = c := by simpa using hi
      exact ⟨(s.step d).1, rfl, congrArg some (step_lockstep hR hs hc).1.symm⟩
    | succ i => exact ih (step_synced hR hs d) (by simpa using hi)

/-- **Renderings go unnoticed.**  Whatever value is written in any state of a session, in any form,
with any limits and with any outcome, every later command is answered as if it had not been, unless
it asks which words are settled.  The sessions that are left in the end differ in nothing but
settled words that no reading tells apart. -/
theorem rendering_unnoticed (s : Session) {q : Question} (hq : q.writes = true) (x : Addr)
    (cs : List Command) :
    (∀ (i : ℕ) (c : Command), cs[i]? = some c → ¬c.Reveals →
      ∃ answer, (s.run cs).1[i]? = some answer ∧ ((s.written q x).run cs).1[i]? = some answer) ∧
    (s.run cs).2.Synced Settled.Alike ((s.written q x).run cs).2 := by
  have hs := synced_written hq x s
  exact ⟨fun i c => run_lockstep concord_alike hs, run_synced concord_alike hs cs⟩

/-- A number in a list is settled when the list is written, but a later comparison with a text is
answered as if it were not. -/
theorem rendering_of_number_unnoticed :
    let s := (run [.make (.number (.ofNat 1)) ⟨some "n", true⟩,
      .make (.list [.register "n", .text "a" false]) ⟨some "x", true⟩] {}).2
    let t := s.written .shown 5
    let cs : List Command := [.ask "n" .freshness, .compare "n" (.equal false) (.text "1.0" false)]
    (s.value? "n" = some 0 ∧ s.value? "x" = some 5) ∧
      (s.store.settled.contains 0 = false ∧ t.store.settled.contains 0 = true) ∧
      ∃ answer, (s.run cs).1[1]? = some answer ∧ (t.run cs).1[1]? = some answer := by
  intro s t cs
  have hsettled : (s.value? "n" = some 0 ∧ s.value? "x" = some 5) ∧
      s.store.settled.contains 0 = false ∧ t.store.settled.contains 0 = true := by
    decide +kernel
  exact ⟨hsettled.1, hsettled.2, (rendering_unnoticed s (q := .shown) rfl 5 cs).1 1 _ rfl id⟩

end Session

end SharedValues
