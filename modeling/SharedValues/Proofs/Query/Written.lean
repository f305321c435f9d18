import Mathlib.Data.List.Forall2
import SharedValues.Proofs.Query.Legible
import SharedValues.Proofs.Query.Lockstep

/-!
# Written forms

A rendering settles numbers on its way, but never a word that it reads as a text, so what it writes
depends on the words settled at its start only.  The written form of a value is therefore a function
of the heap, and every rendering of a legible value ends with it.

## Main definitions

* `Heap.written` — the written form of a value.
* `Heap.SameReading` — the same words are treated as numbers.

## Main results

* `Heap.ensures_renderWithin` — a rendering with enough levels ends with the written form.
* `Heap.run_render` — so does a rendering of its own.
-/

namespace SharedValues

/-- Texts, each of them after a blank. -/
def spaced (ss : List String) : String := ss.foldr (fun s rest => " " ++ s ++ rest) ""

theorem intercalate_cons (s : String) (ss : List String) :
    " ".intercalate (s :: ss) = s ++ spaced ss := by
  induction ss generalizing s with
  | nil => simp [spaced]
  | cons t ss ih =>
    rw [String.intercalate_cons_cons, ih t]
    simp [spaced, String.append_assoc]

namespace Heap

variable {h : Heap} {a x : Addr} {σ τ : Settled} {n : ℕ} {writing : List Addr} {style : Style}
  {o : PrintOptions} {ε : Type}

/-! ### Renderings of each sort -/

section Render

variable (n writing style o)

theorem renderWithin_word {w : Word} (hx : h.body x = .word w) :
    h.renderWithin (n + 1) writing style o x = Query.renderWord x w o := by
  rw [renderWithin.eq_def]
  dsimp only
  rw [hx]

theorem renderWithin_bare (hx : h.IsSequence x) :
    h.renderWithin (n + 1) writing .bare o x =
      renderWalk (h.renderWithin n writing .delimited o.deeper) (·, writing) o (h.elements x) := by
  unfold IsSequence kind at hx
  rw [renderWithin]
  revert hx
  cases h.body x <;> simp [Body.kind]

/-- A sequence that is not being written is recorded, and its elements are written as in bare
style. -/
theorem renderWithin_delimited (hx : h.IsSequence x) :
    h.renderWithin (n + 1) writing .delimited o x =
      if x ∈ writing then pure "..."
      else do
        let inner ← h.renderWithin (n + 1) (x :: writing) .bare o x
        return (brackets (h.kind x)).1 ++ inner ++ (brackets (h.kind x)).2 := by
  rw [renderWithin_bare n (x :: writing) o hx]
  unfold IsSequence at hx
  rw [renderWithin]
  revert hx
  unfold kind
  cases h.body x <;> simp [Body.kind]

theorem renderWithin_node {name : Addr} {children : List Addr}
    (hx : h.body x = .node name children) :
    h.renderWithin (n + 1) writing style o x = do
      let parts ← (h.parts x).mapM (h.renderWithin n writing .delimited o)
      return "( " ++ " ".intercalate parts ++ " )" := by
  rw [renderWithin.eq_def]
  dsimp only
  rw [hx, parts_of_node hx]

theorem renderWithin_error {code : ℤ} {text tag : Addr} (hx : h.body x = .error code text tag) :
    h.renderWithin (n + 1) writing style o x = h.renderWithin n writing .bare o text := by
  rw [renderWithin.eq_def]
  dsimp only
  rw [hx]

theorem renderWithin_plain (hx : h.IsPlain x) :
    h.renderWithin (n + 1) writing style o x = pure (h.kind x).name := by
  unfold IsPlain kind at hx
  unfold kind
  rw [renderWithin.eq_def]
  dsimp only
  revert hx
  cases h.body x <;> simp [Body.kind]

end Render

/-! ### The written form -/

/-- The elements within a width. -/
def fitting (width : Option ℕ) (found : List Addr) : List Addr :=
  found.take (width.getD found.length)

/-- The texts of the elements within a width, and `...` for the others. -/
def texts (text : Addr → String) (width : Option ℕ) (found : List Addr) : List String :=
  (fitting width found).map text ++ if width.getD found.length < found.length then ["..."] else []

/-- The elements of a sequence, each written by `text`, within the limits of the print options. -/
def writtenWalk (text : Addr → String) (o : PrintOptions) (found : List Addr) : String :=
  if found.isEmpty then ""
  else if o.depthLimit = some 0 ∨ o.widthLimit = some 0 then "..."
  else " ".intercalate (texts text o.widthLimit found)

/-- Walks whose elements are written alike are written alike. -/
theorem writtenWalk_congr {text text' : Addr → String} (o : PrintOptions) {found found' : List Addr}
    (h : List.Forall₂ (fun a b => text' b = text a) found found') :
    writtenWalk text' o found' = writtenWalk text o found := by
  have hmap : ∀ {as bs : List Addr}, List.Forall₂ (fun a b => text' b = text a) as bs →
      bs.map text' = as.map text := by
    intro as bs hab
    induction hab with
    | nil => rfl
    | cons heq _ ih => rw [List.map_cons, List.map_cons, heq, ih]
  have hlength := h.length_eq
  have hempty : found'.isEmpty = found.isEmpty := by
    rw [Bool.eq_iff_iff, List.isEmpty_iff_length_eq_zero, List.isEmpty_iff_length_eq_zero, hlength]
  unfold writtenWalk texts fitting
  rw [hempty, ← hlength, hmap (List.forall₂_take _ h)]

/-- The written form of a value, within `n` levels, if the words in `σ` are settled, while the
sequences in `writing` are being written. -/
def written (h : Heap) (σ : Settled) : ℕ → List Addr → Style → PrintOptions → Addr → String
  | 0, _, _, _, _ => ""
  | n + 1, writing, style, o, x =>
    match h.body x with
    | .word w => w.render (σ.contains x) o
    | .list _ | .array .. =>
      match style with
      | .bare => writtenWalk (h.written σ n writing .delimited o.deeper) o (h.elements x).found
      | .delimited =>
        if x ∈ writing then "..."
        else
          (brackets (h.kind x)).1 ++
            writtenWalk (h.written σ n (x :: writing) .delimited o.deeper) o
              (h.elements x).found ++
            (brackets (h.kind x)).2
    | .node .. =>
      "( " ++ " ".intercalate ((h.parts x).map (h.written σ n writing .delimited o)) ++ " )"
    | .error _ text _ => h.written σ n writing .bare o text
    | body => body.kind.name

section Written

variable (σ n writing style o)

theorem written_word {w : Word} (hx : h.body x = .word w) :
    h.written σ (n + 1) writing style o x = w.render (σ.contains x) o := by
  rw [written.eq_def]
  dsimp only
  rw [hx]

theorem written_bare (hx : h.IsSequence x) :
    h.written σ (n + 1) writing .bare o x =
      writtenWalk (h.written σ n writing .delimited o.deeper) o (h.elements x).found := by
  unfold IsSequence kind at hx
  rw [written]
  revert hx
  cases h.body x <;> simp [Body.kind]

theorem written_delimited (hx : h.IsSequence x) :
    h.written σ (n + 1) writing .delimited o x =
      if x ∈ writing then "..."
      else (brackets (h.kind x)).1 ++ h.written σ (n + 1) (x :: writing) .bare o x ++
        (brackets (h.kind x)).2 := by
  rw [written_bare σ n (x :: writing) o hx]
  unfold IsSequence at hx
  rw [written]
  revert hx
  unfold kind
  cases h.body x <;> simp [Body.kind]

theorem written_node {name : Addr} {children : List Addr} (hx : h.body x = .node name children) :
    h.written σ (n + 1) writing style o x =
      "( " ++ " ".intercalate ((h.parts x).map (h.written σ n writing .delimited o)) ++ " )" := by
  rw [written.eq_def]
  dsimp only
  rw [hx]

theorem written_error {code : ℤ} {text tag : Addr} (hx : h.body x = .error code text tag) :
    h.written σ (n + 1) writing style o x = h.written σ n writing .bare o text := by
  rw [written.eq_def]
  dsimp only
  rw [hx]

theorem written_plain (hx : h.IsPlain x) :
    h.written σ (n + 1) writing style o x = (h.kind x).name := by
  unfold IsPlain kind at hx
  unfold kind
  rw [written.eq_def]
  dsimp only
  revert hx
  cases h.body x <;> simp [Body.kind]

end Written

/-! ### Renderings end with the written form -/

/-- The same words are treated as numbers. -/
def SameReading (h : Heap) (σ τ : Settled) : Prop :=
  ∀ a w, h.body a = .word w → w.isNumeric (σ.contains a) = w.isNumeric (τ.contains a)

theorem SameReading.refl (h : Heap) (σ : Settled) : h.SameReading σ σ := fun _ _ _ => rfl

/-- A number is treated as one, whether it is settled or not. -/
theorem SameReading.insert (hστ : h.SameReading σ τ) {w : Word} (ha : h.body a = .word w)
    (hw : w.isNumber = true) : h.SameReading σ (τ.insert a) := by
  intro b v hb
  rw [hστ b v hb]
  unfold Word.isNumeric
  rw [Settled.contains_insert]
  by_cases hab : a = b
  · subst hab
    obtain rfl := Body.word.inj (ha.symm.trans hb)
    simp [hw]
  · simp [hab]

theorem ensures_renderWord {w : Word} (hστ : h.SameReading σ τ) (ha : h.body a = .word w)
    (o : PrintOptions) :
    Ensures (Query.renderWord a w o : Query ε String) τ
      (fun s τ' => s = w.render (σ.contains a) o ∧ h.SameReading σ τ') fun _ _ => False := by
  have hrender := Concord.render_congr (hστ a w ha) o
  unfold Query.renderWord
  refine ensures_bind.mpr ?_
  show Ensures _ τ _ _
  split
  · next hw => exact ⟨hrender.symm, hστ.insert ha hw⟩
  · exact ⟨hrender.symm, hστ⟩

/-- A walk without a fault is written element by element. -/
theorem ensures_renderWalk {write : Addr → Query ε String} {text : Addr → String}
    {halt : Fault → ε} {w : Walk} {P : Settled → Prop} (hfault : w.fault? = none)
    (hwrite : ∀ e ∈ w.found, ∀ τ, P τ →
      Ensures (write e) τ (fun s τ' => s = text e ∧ P τ') fun _ _ => False) (hτ : P τ) :
    Ensures (renderWalk write halt o w) τ
      (fun s τ' => s = writtenWalk text o w.found ∧ P τ') fun _ _ => False := by
  unfold renderWalk writtenWalk
  rw [hfault]
  dsimp only
  split
  · exact ensures_pure.mpr ⟨rfl, hτ⟩
  split
  · exact ensures_pure.mpr ⟨rfl, hτ⟩
  -- the elements that fit are written from left to right, with the same reading of words throughout
  refine ensures_bind.mpr ((ensures_mapM (fun e he => hwrite e (List.mem_of_mem_take he)) hτ).mono
    ?_ fun _ _ => id)
  rintro parts τ' ⟨rfl, hτ'⟩
  unfold texts fitting
  split
  · exact ensures_pure.mpr ⟨rfl, hτ'⟩
  · rw [List.append_nil]
    exact ensures_pure.mpr ⟨rfl, hτ'⟩

/-- **A rendering with enough levels ends with the written form** of a legible value, and what was
treated as a text still is. -/
theorem ensures_renderWithin (hroom : h.Room n writing style x) (o : PrintOptions)
    (hστ : h.SameReading σ τ) :
    Ensures (h.renderWithin n writing style o x) τ
      (fun s τ' => s = h.written σ n writing style o x ∧ h.SameReading σ τ')
      fun _ _ => False := by
  induction hroom using Room.induction generalizing o τ with
  | word _ hw =>
    rw [renderWithin_word _ _ _ _ hw, written_word _ _ _ _ _ hw]
    exact ensures_renderWord hστ hw o
  | bare hroom hx ih =>
    rw [renderWithin_bare _ _ _ hx, written_bare _ _ _ _ hx]
    exact ensures_renderWalk hroom.legible.fault? (fun e he τ hτ => ih e he o.deeper hτ) hστ
  | again _ hx hmem =>
    rw [renderWithin_delimited _ _ _ hx, written_delimited _ _ _ _ hx, if_pos hmem, if_pos hmem]
    exact ensures_pure.mpr ⟨rfl, hστ⟩
  | first _ hx hnew ih =>
    rw [renderWithin_delimited _ _ _ hx, written_delimited _ _ _ _ hx, if_neg hnew, if_neg hnew]
    refine ensures_bind.mpr ((ih o hστ).mono ?_ fun _ _ => id)
    -- the delimiters are put around what is written inside
    rintro inner τ' ⟨rfl, hτ'⟩
    exact ensures_pure.mpr ⟨rfl, hτ'⟩
  | node _ hx ih =>
    rw [renderWithin_node _ _ _ _ hx, written_node _ _ _ _ _ hx]
    refine ensures_bind.mpr ((ensures_mapM (fun e he τ hτ => ih e he o hτ) hστ).mono ?_
      fun _ _ => id)
    rintro parts τ' ⟨rfl, hτ'⟩
    exact ensures_pure.mpr ⟨rfl, hτ'⟩
  | error _ hx ih =>
    rw [renderWithin_error _ _ _ _ hx, written_error _ _ _ _ _ hx]
    exact ih o hστ
  | plain _ hx =>
    rw [renderWithin_plain _ _ _ _ hx, written_plain _ _ _ _ _ hx]
    exact ensures_pure.mpr ⟨rfl, hστ⟩

/-- The written form of a value, with as many levels as a rendering has. -/
def writtenOn (h : Heap) (σ : Settled) (writing : List Addr) (style : Style) (o : PrintOptions)
    (x : Addr) : String :=
  h.written σ ((h.blocks.size + 2) * (h.blocks.size + 2)) writing style o x

/-- A rendering inside some sequences that are being written. -/
theorem exists_run_renderOn (hx : h.Legible x) (σ : Settled) (writing : List Addr) (style : Style)
    (o : PrintOptions) :
    ∃ τ, (h.renderOn writing style o x).run σ = (.ok (h.writtenOn σ writing style o x), τ) := by
  obtain ⟨s, τ, hrun, rfl, -⟩ := Ensures.exists_ok
    (ensures_renderWithin (room_start hx writing style) o (SameReading.refl h σ))
  exact ⟨τ, hrun⟩

/-- **A rendering of its own ends with the written form.** -/
theorem run_render (hx : h.Legible x) (σ : Settled) (style : Style) (o : PrintOptions) :
    ((h.render style o x).run σ).1 = .ok (h.writtenOn σ [] style o x) := by
  have hrender : ((h.render style o x).run σ).1 =
      ((h.renderOn [] style o x).run σ).1.mapError Prod.fst := rfl
  obtain ⟨τ, hrun⟩ := exists_run_renderOn hx σ [] style o
  rw [hrender, hrun]
  rfl

end Heap

end SharedValues
