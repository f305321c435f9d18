import SharedValues.Proofs.Lockstep
import SharedValues.Query.Containment
import SharedValues.Query.Equality
import SharedValues.Query.Render
import SharedValues.Sequence

/-!
# Queries in lockstep

A query settles words that have numbers, and what it asks about a word is whether it is treated as
a number.  So no query tells related sets of settled words apart.

## Main results

* `Concord.wordsEqual`, `Concord.renderWord` — the queries about words.
* `Concord.equalWithin`, `Concord.searchWithin`, `Concord.renderWithin` — the traversals.
-/

namespace SharedValues.Concord

variable {R : Heap → Settled → Settled → Prop} {h : Heap} {σ τ : Settled} {ε α : Type}
  {a b x y : Addr} {v w : Word}

/-! ### Words -/

theorem settleWord (hR : Concord R) (hσ : R h σ τ) (ha : h.body a = .word w)
    (hw : w.number?.isSome = true) : Lockstep (R h) (Query.settle a : Query ε Unit) σ τ :=
  ⟨rfl, hR.settle ha hw hσ⟩

/-- A number word has a number. -/
theorem number?_of_isNumber (hw : w.isNumber = true) : w.number?.isSome = true := by
  cases w with
  | text raw special => simp [Word.isNumber] at hw
  | number value => rfl

theorem rawText (hR : Concord R) (hσ : R h σ τ) (ha : h.body a = .word w) :
    Lockstep (R h) (Query.rawText a w : Query ε String) σ τ := by
  unfold Query.rawText
  split
  · next hw =>
    have hnumber := number?_of_isNumber hw
    exact (hR.settleWord hσ ha hnumber).result _
  · exact .pure hσ _

theorem numberOf (hR : Concord R) (hσ : R h σ τ) (ha : h.body a = .word w) :
    Lockstep (R h) (Query.numberOf a w : Query ε Binary64) σ τ := by
  unfold Query.numberOf
  split
  · next hw =>
    rw [Bool.and_eq_true] at hw
    exact (hR.settleWord hσ ha hw.2).result _
  · exact .pure hσ _

/-- Whether a word is treated as a number decides alike on both sides. -/
theorem ifNumeric (hR : Concord R) (hσ : R h σ τ) (ha : h.body a = .word w) {yes no : Query ε α}
    (hyes : Lockstep (R h) yes σ τ) (hno : Lockstep (R h) no σ τ) :
    Lockstep (R h) (Query.isSettled a >>= fun settled =>
      if w.isNumeric settled = true then yes else no) σ τ := by
  have hrun : ∀ υ : Settled, (Query.isSettled a >>= fun settled =>
      if w.isNumeric settled = true then yes else no).run υ =
      (if w.isNumeric (υ.contains a) = true then yes else no).run υ := fun _ => rfl
  unfold Lockstep
  rw [hrun, hrun, ← hR.numeric ha hσ]
  split
  · exact hyes
  · exact hno

theorem wordsEqual (hR : Concord R) (hσ : R h σ τ) (ha : h.body a = .word v)
    (hb : h.body b = .word w) (ignoreCase : Bool) :
    Lockstep (R h) (Query.wordsEqual ignoreCase a v b w : Query ε Bool) σ τ := by
  refine hR.ifNumeric hσ ha ?_ (hR.ifNumeric hσ hb ?_ ?_)
  · exact (hR.numberOf hσ hb).result _
  · exact (hR.numberOf hσ ha).result _
  · exact .pure hσ _

theorem wordSeek? (hR : Concord R) (hσ : R h σ τ) (ha : h.body a = .word v)
    (hb : h.body b = .word w) (ignoreCase : Bool) :
    Lockstep (R h) (Query.wordSeek? ignoreCase a v b w : Query ε (Option String)) σ τ :=
  (hR.rawText hσ ha).bind fun _ _ _ hσ => (hR.rawText hσ hb).result _

/-- The written form depends on the settled words only through what is treated as a number. -/
theorem render_congr {p q : Bool} (hpq : w.isNumeric p = w.isNumeric q) (o : PrintOptions) :
    w.render p o = w.render q o := by
  rw [Word.render, Word.render, hpq]

theorem renderWord (hR : Concord R) (hσ : R h σ τ) (ha : h.body a = .word w)
    (o : PrintOptions) : Lockstep (R h) (Query.renderWord a w o : Query ε String) σ τ := by
  have hrun : ∀ υ : Settled, (Query.renderWord a w o : Query ε String).run υ =
      (Query.rawText a w >>= fun _ => pure (w.render (υ.contains a) o)).run υ := by
    intro υ
    unfold Query.renderWord Query.rawText
    cases w.isNumber <;> rfl
  unfold Lockstep
  rw [hrun, hrun, render_congr (hR.numeric ha hσ)]
  exact (hR.rawText hσ ha).result _

theorem characters (hR : Concord R) (hσ : R h σ τ) (ha : h.body a = .word w) :
    Lockstep (R h) (w.characters a) σ τ :=
  (hR.rawText hσ ha).result _

/-! ### Equality -/

theorem walksEqual {same : Addr → Addr → Query ε Bool} {halt : Fault → ε} {xs ys : List Addr}
    {f g : Option Fault} (hσ : R h σ τ)
    (hsame : ∀ x y σ τ, R h σ τ → Lockstep (R h) (same x y) σ τ) :
    Lockstep (R h) (Heap.walksEqual same halt xs f ys g) σ τ := by
  fun_induction Heap.walksEqual same halt xs f ys g generalizing σ τ with
  | case1 x xs f y ys g ih =>
    apply (hsame x y σ τ hσ).bind
    intro r σ' τ' hσ'
    split
    · exact ih hσ'
    · exact .pure hσ' _
  | case2 => exact .throw hσ _
  | case3 => exact .throw hσ _
  | case4 => exact .pure hσ _
  | case5 => exact .pure hσ _

theorem equalWithin (hR : Concord R) (hσ : R h σ τ) (ignoreCase : Bool) (n : ℕ) (trail : Trail)
    (x y : Addr) : Lockstep (R h) (h.equalWithin ignoreCase n trail x y) σ τ := by
  induction n generalizing trail x y σ τ with
  | zero => exact .throw hσ _
  | succ n ih =>
    rw [Heap.equalWithin]
    -- the checks on kind and identity do not look at the settled words
    split
    · exact .pure hσ _
    split
    · exact .pure hσ _
    split
    case h_1 => exact .pure hσ _
    case h_2 v w hv hw => exact hR.wordsEqual hσ hv hw ignoreCase
    case h_3 | h_4 =>
      dsimp only
      split
      · exact .pure hσ _
      split
      · exact .pure hσ _
      split
      · exact .pure hσ _
      exact walksEqual hσ fun x y _ _ hσ => ih hσ _ x y
    case h_5 => exact .pure hσ _

theorem equalOn (hR : Concord R) (hσ : R h σ τ) (ignoreCase : Bool) (trail : Trail)
    (x y : Addr) : Lockstep (R h) (h.equalOn ignoreCase trail x y) σ τ :=
  hR.equalWithin hσ ignoreCase _ trail x y

theorem equal (hR : Concord R) (hσ : R h σ τ) (ignoreCase : Bool) (x y : Addr) :
    Lockstep (R h) (h.equal ignoreCase x y) σ τ :=
  (hR.equalOn hσ ignoreCase [] x y).adapt Prod.fst

/-! ### Containment -/

theorem searchWalk {search : List Addr → Addr → Query Fault (Bool × List Addr)} {xs : List Addr}
    {f : Option Fault} {seen : List Addr} (hσ : R h σ τ)
    (hsearch : ∀ seen x σ τ, R h σ τ → Lockstep (R h) (search seen x) σ τ) :
    Lockstep (R h) (Heap.searchWalk search xs f seen) σ τ := by
  induction xs generalizing seen σ τ with
  | nil =>
    cases f with
    | some f => exact .throw hσ f
    | none => exact .pure hσ (false, seen)
  | cons x xs ih =>
    rw [Heap.searchWalk]
    apply (hsearch seen x σ τ hσ).bind
    rintro ⟨found, seen⟩ σ' τ' hσ'
    dsimp only
    split
    · exact .pure hσ' _
    · exact ih hσ'

theorem searchWithin (hR : Concord R) (hσ : R h σ τ) (ignoreCase : Bool) (needle : Addr) (n : ℕ)
    (seen : List Addr) (x : Addr) :
    Lockstep (R h) (h.searchWithin ignoreCase needle n seen x) σ τ := by
  induction n generalizing seen x σ τ with
  | zero => exact .throw hσ _
  | succ n ih =>
    rw [Heap.searchWithin]
    split
    -- only the search in a word settles anything
    · next w hw =>
      split
      · next v hv => exact (hR.wordSeek? hσ hw hv ignoreCase).result _
      · exact .pure hσ _
    case h_2 | h_3 =>
      split
      · exact .pure hσ _
      · apply searchWalk hσ
        intro seen e σ τ hσ
        split
        · exact .pure hσ _
        · exact ih hσ seen e
    · exact .pure hσ _

theorem contains (hR : Concord R) (hσ : R h σ τ) (ignoreCase : Bool) (x needle : Addr) :
    Lockstep (R h) (h.contains ignoreCase x needle) σ τ := by
  have hsearch := hR.searchWithin hσ ignoreCase needle (h.blocks.size + 2) [] x
  unfold Heap.contains
  split
  case h_4 => exact .throw hσ _
  all_goals exact hsearch.result _

theorem firstMatch {test : Addr → Query Fault Bool} {xs : List Addr} {f : Option Fault} {i : ℕ}
    (hσ : R h σ τ) (htest : ∀ x σ τ, R h σ τ → Lockstep (R h) (test x) σ τ) :
    Lockstep (R h) (Heap.firstMatch test xs f i) σ τ := by
  induction xs generalizing i σ τ with
  | nil =>
    cases f with
    | some f => exact .throw hσ f
    | none => exact .pure hσ none
  | cons x xs ih =>
    rw [Heap.firstMatch]
    apply (htest x σ τ hσ).bind
    intro r σ' τ' hσ'
    split
    · exact .pure hσ' _
    · exact ih hσ'

theorem memberAt (hR : Concord R) (hσ : R h σ τ) (ignoreCase : Bool) (x value : Addr) :
    Lockstep (R h) (h.memberAt ignoreCase x value) σ τ :=
  firstMatch hσ fun e _ _ hσ => hR.equal hσ ignoreCase e value

theorem isMember (hR : Concord R) (hσ : R h σ τ) (ignoreCase : Bool) (x value : Addr) :
    Lockstep (R h) (h.isMember ignoreCase x value) σ τ := by
  unfold Heap.isMember
  split
  · next w hw =>
    split
    · next v hv => exact (hR.wordSeek? hσ hw hv ignoreCase).result _
    · exact .pure hσ _
  · have hmatch : Lockstep (R h) (Heap.firstMatch (fun e => h.equal ignoreCase value e)
        (h.elements x).found (h.elements x).fault? 0) σ τ :=
      firstMatch hσ fun e _ _ hσ => hR.equal hσ ignoreCase value e
    exact hmatch.result _
  · exact (hR.memberAt hσ ignoreCase x value).result _
  · exact .throw hσ _

/-! ### Writing -/

theorem renderWalk {write : Addr → Query ε String} {halt : Fault → ε} (hσ : R h σ τ)
    (hwrite : ∀ x σ τ, R h σ τ → Lockstep (R h) (write x) σ τ) (o : PrintOptions) (walk : Walk) :
    Lockstep (R h) (Heap.renderWalk write halt o walk) σ τ := by
  unfold Heap.renderWalk
  dsimp only
  split
  · refine Lockstep.bind ?_ fun _ _ _ hσ => .pure hσ _
    -- the walk over the elements may break off, but in both runs at the same place
    split
    · exact .throw hσ _
    · exact .pure hσ _
  split
  · exact .pure hσ _
  apply (Lockstep.mapM hσ fun x _ σ τ hσ => hwrite x σ τ hσ).bind
  intro parts σ' τ' hσ'
  split
  · exact .pure hσ' _
  · refine Lockstep.bind ?_ fun _ _ _ hσ => .pure hσ _
    split
    · exact .throw hσ' _
    · exact .pure hσ' _

theorem renderWithin (hR : Concord R) (hσ : R h σ τ) (n : ℕ) (writing : List Addr)
    (style : Style) (o : PrintOptions) (x : Addr) :
    Lockstep (R h) (h.renderWithin n writing style o x) σ τ := by
  induction n generalizing writing style o x σ τ with
  | zero => exact .throw hσ _
  | succ n ih =>
    unfold Heap.renderWithin
    split
    · next w hw => exact hR.renderWord hσ hw o
    case h_2 | h_3 =>
      cases style with
      | bare => exact renderWalk hσ (fun x _ _ hσ => ih hσ _ _ _ x) o _
      | delimited =>
        dsimp only
        split
        · exact .pure hσ _
        · exact (renderWalk hσ (fun x _ _ hσ => ih hσ _ _ _ x) o _).result _
    · exact (Lockstep.mapM hσ fun x _ _ _ hσ => ih hσ _ _ _ x).result _
    · exact ih hσ _ _ _ _
    · exact .pure hσ _

theorem renderOn (hR : Concord R) (hσ : R h σ τ) (writing : List Addr) (style : Style)
    (o : PrintOptions) (x : Addr) : Lockstep (R h) (h.renderOn writing style o x) σ τ :=
  hR.renderWithin hσ _ writing style o x

theorem render (hR : Concord R) (hσ : R h σ τ) (style : Style) (o : PrintOptions) (x : Addr) :
    Lockstep (R h) (h.render style o x) σ τ :=
  (hR.renderOn hσ [] style o x).adapt Prod.fst

theorem shown (hR : Concord R) (hσ : R h σ τ) (x : Addr) : Lockstep (R h) (h.shown x) σ τ :=
  hR.render hσ .delimited {} x

theorem inspected (hR : Concord R) (hσ : R h σ τ) (x : Addr) :
    Lockstep (R h) (h.inspected x) σ τ := by
  unfold Heap.inspected
  split
  · exact .pure hσ _
  · exact (hR.render hσ _ _ x).result _

/-! ### Sequences -/

theorem size (hR : Concord R) (hσ : R h σ τ) (x : Addr) :
    Lockstep (R h) (Sequence.size x h) σ τ := by
  unfold Sequence.size
  split
  · next w hw => exact (hR.characters hσ hw).result _
  · exact .pure hσ _
  · exact .pure hσ _
  · exact .pure hσ _
  · exact .throw hσ _

theorem inRange (hR : Concord R) (hσ : R h σ τ) (x : Addr) (index : ℤ) :
    Lockstep (R h) (Sequence.inRange x index h) σ τ := by
  unfold Sequence.inRange
  split
  · next w hw =>
    split
    · exact .pure hσ _
    · exact (hR.characters hσ hw).result _
  · exact .pure hσ _
  · exact .pure hσ _
  · exact .throw hσ _

theorem isEmpty (hR : Concord R) (hσ : R h σ τ) (x : Addr) :
    Lockstep (R h) (Sequence.isEmpty x h) σ τ := by
  unfold Sequence.isEmpty
  split
  · next w hw => exact (hR.characters hσ hw).result _
  · exact .pure hσ _
  · exact .pure hσ _
  · exact .throw hσ _

end SharedValues.Concord
