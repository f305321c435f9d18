import SharedValues.Proofs.Query.Levels
import SharedValues.Proofs.Query.Printer

/-!
# Limits of the width

A width limit cuts a sequence short behind as many elements as it allows, and `...` stands for the
others if there are any.  Which elements there are is told by a cursor.  A printer counts down what
is left of the width: it writes the first element apart, and puts a blank before it looks whether
there is any width left for the next one.  As it looks each time, the count never goes below zero,
neither in a sequence nor in those within it.

## Main definitions

* `elided` — texts with blanks between them, and `...` for what is left out.
* `Printing.lower` — counting down, which is a step of its own at zero.
* `Heap.printCounted` — a printer that counts down in this way.

## Main results

* `Cursor.drain_iff` — the elements of a sequence are those that a cursor goes over.
* `Heap.printCounted_eq` — the count never goes below zero.
* `Heap.width_elision` — **what is written of a sequence** within a width limit.
-/

namespace SharedValues

open Heap

/-! ### What a cursor goes over -/

namespace Cursor

variable {h : Heap} {s : Store} {c : Cursor} {w : Walk} {n : ℕ} {x : Addr} {es : List Addr}

/-- A cursor goes over the elements that it has ahead, and fails only behind them. -/
theorem run_drain (hh : h.InUse) (hc : c.Ahead h n w) (k : ℕ) (held : Multiset Addr)
    (σ : Settled) : ((drain k c).run ⟨h.lent (c.handle ::ₘ held), σ⟩).1 =
      if w.found.length < k then w.fault?.elim (.ok w.found) .error else .ok (w.found.take k) := by
  induction k generalizing c n w held with
  | zero => rfl
  | succ k ih =>
    rw [drain, run_bind]
    cases hc.advances hh with
    | nil hrun =>
      rw [hrun]
      rfl
    | broken hrun =>
      rw [hrun]
      rfl
    | @cons n d a as broken hrest hrun =>
      -- the items taken before are held while the rest is drained
      have hlater := ih hrest (a ::ₘ held)
      rw [hrun]
      dsimp only
      rw [run_bind]
      rcases hend : (drain k d).run ⟨h.lent (d.handle ::ₘ a ::ₘ held), σ⟩ with ⟨r, t⟩
      rw [hend] at hlater
      obtain rfl := hlater
      -- the fault is that of the chain, not of what has been taken from it
      have hfault : (⟨a :: as, broken⟩ : Walk).fault? = (⟨as, broken⟩ : Walk).fault? := rfl
      rw [hfault]
      simp only [List.length_cons, Nat.add_lt_add_iff_right, List.take_succ_cons]
      split_ifs
      · cases (⟨as, broken⟩ : Walk).fault? <;> rfl
      · rfl

/-- **The elements of a sequence are those that a cursor goes over** before it comes to an end. -/
theorem drain_iff (hh : s.heap.InUse) (hx : s.heap.IsSequence x) :
    (∀ k, ((start x >>= drain k).run s).1 = .ok (es.take k)) ↔ s.heap.elements x = ⟨es, none⟩ := by
  obtain ⟨c, hc, hrun⟩ := exists_start hx
  have hdrain : ∀ k, ((start x >>= drain k).run s).1 =
      if (s.heap.elements x).found.length < k then
        (s.heap.elements x).fault?.elim (.ok (s.heap.elements x).found) .error
      else .ok ((s.heap.elements x).found.take k) := by
    intro k
    -- the store itself is one where nothing more is lent
    rw [← run_drain hh hc k 0 s.settled, run_bind]
    have hs : (start x).run s = (.ok c, ⟨s.heap.lent (c.handle ::ₘ 0), s.settled⟩) := by
      simpa using hrun 0 s.settled
    rw [hs]
  simp only [hdrain]
  rcases s.heap.elements x with ⟨found, broken⟩
  constructor
  · intro hcursor
    -- one item more than there are on either side: the cursor must have come to the end
    have hall := hcursor (max found.length es.length + 1)
    rw [if_pos (by dsimp only; omega), List.take_of_length_le (by omega)] at hall
    cases broken with
    | none =>
      obtain rfl : found = es := Except.ok.inj hall
      rfl
    | some k => exact absurd hall (by simp [Walk.fault?])
  · intro heq k
    obtain ⟨rfl, rfl⟩ := Walk.mk.inj heq
    dsimp only [Walk.fault?, Option.map_none, Option.elim_none]
    split_ifs with hk
    · rw [List.take_of_length_le hk.le]
    · rfl

end Cursor

/-! ### The elements within a width -/

variable {h : Heap} {x : Addr} {es : List Addr} {o : PrintOptions} {ε : Type}

/-- Texts with blanks between them, and `...` behind them if there are more. -/
def elided (texts : List String) (more : Bool) : String :=
  " ".intercalate texts ++ if more then " ..." else ""

theorem elided_cons (text : String) (texts : List String) (more : Bool) :
    elided (text :: texts) more = text ++ spaced (texts ++ if more then ["..."] else []) := by
  rw [elided, ← intercalate_cons]
  cases more with
  | false => simp
  | true =>
    rw [if_pos rfl, if_pos rfl, ← List.cons_append,
      String.intercalate_append_of_ne_nil (by simp) (by simp), String.append_assoc]
    simp

/-- The elements of a walk within a width. -/
theorem renderWalk_eq_elided (hdepth : o.depthLimit ≠ some 0) (hwidth : o.widthLimit ≠ some 0)
    (hes : es ≠ []) (write : Addr → Query ε String) (halt : Fault → ε) :
    renderWalk write halt o ⟨es, none⟩ = do
      let texts ← (es.take (o.widthLimit.getD es.length)).mapM write
      return elided texts (o.widthLimit.getD es.length < es.length) := by
  obtain ⟨e, es, rfl⟩ := List.exists_cons_of_ne_nil hes
  obtain ⟨htake, hless⟩ := Query.take_width_cons hwidth e es
  rw [Query.renderWalk_eq, Query.writeElements, if_neg (by simp [hdepth, hwidth]), htake,
    List.mapM_cons]
  simp only [Query.each_writeNext, bind_assoc, pure_bind, elided_cons, hless, Walk.fault?]
  refine bind_congr fun text => bind_congr fun texts => ?_
  split <;> simp [*]

/-! ### Counting down -/

namespace Printing

/-- Counts down what is left of a width.  There is nothing below zero. -/
def lower (underflow : Printing (Option ℕ)) (width : Option ℕ) : Printing (Option ℕ) :=
  if width = some 0 then underflow else return width.map (· - 1)

/-- Writes elements behind a text, `remaining` being left of the width. -/
def countedItems (underflow : Printing (Option ℕ)) (write : Addr → Printing String) :
    List Addr → Option Fault → Option ℕ → String → Printing String
  | [], fault?, _, result => fault?.elim (return result) throw
  | e :: es, fault?, remaining, result => do
    let result := result ++ " "
    if remaining = some 0 then return result ++ "..."
    else
      let text ← write e
      let remaining ← lower underflow remaining
      countedItems underflow write es fault? remaining (result ++ text)

/-- Writes the elements of a walk, the first one apart from the others. -/
def countedElements (underflow : Printing (Option ℕ)) (write : Addr → Printing String)
    (o : PrintOptions) (w : Walk) : Printing String :=
  match w.found with
  | [] => w.fault?.elim (return "") throw
  | first :: items =>
    if o.depthLimit = some 0 ∨ o.widthLimit = some 0 then return "..."
    else do
      let remaining ← lower underflow o.widthLimit
      let result ← write first
      countedItems underflow write items w.fault? remaining result

variable {underflow : Printing (Option ℕ)} {write : Addr → Printing String}

theorem lower_of_ne {width : Option ℕ} (hwidth : width ≠ some 0) :
    lower underflow width = pure (width.map (· - 1)) := if_neg hwidth

/-- Elements after others are written all the same if what is left is counted down. -/
theorem countedItems_eq (es : List Addr) (fault? : Option Fault) (remaining : Option ℕ)
    (result : String) : countedItems underflow write es fault? remaining result =
      (result ++ ·) <$> following write remaining es fault? := by
  induction es generalizing remaining result with
  | nil => cases fault? <;> simp [countedItems, following]
  | cons e es ih =>
    rw [countedItems]
    by_cases hremaining : remaining = some 0
    · subst hremaining
      simp [following, String.append_assoc]
    rw [following]
    · simp only [if_neg hremaining, lower_of_ne hremaining, pure_bind, ih, map_bind, map_pure]
      refine bind_congr fun text => ?_
      simp [String.append_assoc]
    · exact hremaining

/-- Elements are written all the same if what is left is counted down. -/
theorem countedElements_eq (o : PrintOptions) (w : Walk) :
    countedElements underflow write o w = writeAll write o w := by
  unfold countedElements writeAll
  generalize w.fault? = fault?
  cases w.found with
  | nil => cases fault? <;> rfl
  | cons e es =>
    dsimp only
    split
    · rfl
    next hlimits =>
    rw [lower_of_ne (not_or.mp hlimits).2, pure_bind]
    simp only [countedItems_eq]
    rfl

end Printing

namespace Heap

open Printing in
/-- The written form of the value at an address, within `n` levels, by way of a printer that counts
down what is left of the width. -/
def printCounted (h : Heap) (underflow : Printing (Option ℕ)) :
    ℕ → Style → PrintOptions → Addr → Printing String
  | 0, _, _, _ => throw .endless
  | n + 1, style, o, x =>
    match h.body x with
    | .word w => ask (Query.renderWord x w o)
    | .list _ | .array .. =>
      let write := countedElements underflow (h.printCounted underflow n .delimited o.deeper) o
        (h.elements x)
      match style with
      | .bare => write
      | .delimited => do
        if (← visited).contains x then return "..."
        else
          visit x
          let inner ← write
          leave x
          return (brackets (h.kind x)).1 ++ inner ++ (brackets (h.kind x)).2
    | .node name children => do
      let text ← h.printCounted underflow n .delimited o name
      let rest ← following (h.printCounted underflow n .delimited o) none children none
      return "( " ++ text ++ rest ++ " )"
    | .error _ text _ => h.printCounted underflow n .bare o text
    | body => return body.kind.name

/-- **The count never goes below zero**: whatever would happen then, the printer writes what it
writes. -/
theorem printCounted_eq (h : Heap) (underflow : Printing (Option ℕ)) (n : ℕ) (style : Style)
    (o : PrintOptions) (x : Addr) :
    h.printCounted underflow n style o x = h.printWithin n style o x := by
  induction n generalizing style o x with
  | zero => rfl
  | succ n ih =>
    have hlater : ∀ style o, h.printCounted underflow n style o = h.printWithin n style o :=
      fun style o => funext (ih style o)
    rw [printCounted.eq_def, printWithin.eq_def]
    dsimp only
    cases h.body x <;> cases style <;> simp only [hlater, Printing.countedElements_eq]

end Heap

/-! ### A sequence within a width -/

namespace Heap

open Query

/-- The elements of a legible sequence are legible. -/
theorem Legible.element (hlegible : h.Legible x) (hx : h.IsSequence x) {fault? : Option Kind}
    (helements : h.elements x = ⟨es, fault?⟩) {e : Addr} (he : e ∈ es) : h.Legible e :=
  hlegible.part (by rwa [parts_of_sequence hx, helements])

/-- The elements of a sequence have a level less than the sequence. -/
theorem exists_renderOn_bare (hx : h.IsSequence x) (writing : List Addr) (o : PrintOptions) :
    ∃ m, (h.blocks.size + 2) * (h.blocks.size + 2) = m + 1 ∧
      h.renderOn writing .bare o x = renderWalk (h.renderWithin m writing .delimited o.deeper)
        (·, writing) o (h.elements x) := by
  obtain ⟨m, hm⟩ : ∃ m, (h.blocks.size + 2) * (h.blocks.size + 2) = m + 1 :=
    Nat.exists_eq_succ_of_ne_zero (by simp)
  exact ⟨m, hm, by rw [renderOn, hm, renderWithin_bare _ _ _ hx]⟩

/-- Without any width there is nothing to write. -/
theorem renderOn_bare_of_no_width (hx : h.IsSequence x) (helements : h.elements x = ⟨es, none⟩)
    (hes : es ≠ []) (hwidth : o.widthLimit = some 0) (writing : List Addr) :
    h.renderOn writing .bare o x = pure "..." := by
  obtain ⟨m, -, hrender⟩ := exists_renderOn_bare hx writing o
  rw [hrender, helements, renderWalk, if_neg (by simpa using hes), if_pos (.inr hwidth)]

section Width

variable (hx : h.IsSequence x) (helements : h.elements x = ⟨es, none⟩) (hes : es ≠ [])
  (hdepth : o.depthLimit ≠ some 0) (hwidth : o.widthLimit ≠ some 0) (writing : List Addr)
include hx helements hes hdepth hwidth

/-- A sequence is written element by element, as far as the levels are enough for all of it. -/
theorem curtails_renderOn_bare :
    Curtails (h.renderOn writing .bare o x) do
      let texts ← (es.take (o.widthLimit.getD es.length)).mapM
        (h.renderOn writing .delimited o.deeper)
      return elided texts (o.widthLimit.getD es.length < es.length) := by
  obtain ⟨m, hm, hrender⟩ := exists_renderOn_bare hx writing o
  rw [hrender, helements, renderWalk_eq_elided hdepth hwidth hes]
  unfold renderOn
  rw [hm]
  exact (Curtails.mapM (fun e => curtails_renderWithin h m writing .delimited o.deeper e) _).bind
    fun texts => curtails_refl _

/-- The texts of the elements are the written form of a legible sequence. -/
theorem writtenOn_bare (hlegible : h.Legible x) (σ : Settled) :
    h.writtenOn σ writing .bare o x =
      elided ((es.take (o.widthLimit.getD es.length)).map
        (h.writtenOn σ writing .delimited o.deeper)) (o.widthLimit.getD es.length < es.length) := by
  obtain ⟨τ, hrun⟩ := exists_run_renderOn hlegible σ writing .bare o
  -- what is settled on the way changes no word's reading, so each element has one text
  have hwrite : ∀ e ∈ es.take (o.widthLimit.getD es.length), ∀ τ, h.SameReading σ τ →
      Ensures (h.renderOn writing .delimited o.deeper e) τ
        (fun t τ' => t = h.writtenOn σ writing .delimited o.deeper e ∧ h.SameReading σ τ')
        fun _ _ => False := by
    intro e he τ hτ
    have helement := hlegible.element hx helements (List.mem_of_mem_take he)
    exact ensures_renderWithin (room_start helement writing .delimited) o.deeper hτ
  obtain ⟨texts, τ', htexts, rfl, -⟩ := Ensures.exists_ok (ensures_mapM hwrite (.refl h σ))
  -- the two could differ only for want of levels, and a legible value never wants any
  rcases curtails_renderOn_bare hx helements hes hdepth hwidth writing σ with ⟨_, hend⟩ | heq
  · rw [hrun] at hend
    exact absurd hend (by simp)
  · rw [hrun, run_bind, htexts] at heq
    exact (Except.ok.inj (Prod.mk.inj heq).1).symm

end Width

/-- **What is written of a sequence within a width limit.**  Let a cursor go over the elements `es`
of a list or an array, at least one, and let there be some depth left.  In bare style, whatever
sequences are being written, it comes to `...` if the width is zero, and otherwise to as many of the
elements as the width allows, in delimited style and one level deeper, with blanks between them, and
` ...` behind them if there are more; unless the rendering is an endless one.  A printer that counts
down what is left of the width comes to the same, whatever would happen below zero.  If the sequence
is legible then it is written indeed, and so are those elements. -/
theorem width_elision {s : Store} (hs : s.heap.InUse) (hx : s.heap.IsSequence x)
    (hcursor : ∀ k, ((Cursor.start x >>= Cursor.drain k).run s).1 = .ok (es.take k))
    (hes : es ≠ []) (hdepth : o.depthLimit ≠ some 0) (writing : List Addr) :
    let w := o.widthLimit.getD es.length
    (w = 0 → s.heap.renderOn writing .bare o x = pure "...") ∧
      (w ≠ 0 → Curtails (s.heap.renderOn writing .bare o x) do
        let texts ← (es.take w).mapM (s.heap.renderOn writing .delimited o.deeper)
        return elided texts (w < es.length)) ∧
      (∀ underflow σ,
        (s.heap.printCounted underflow ((s.heap.blocks.size + 2) * (s.heap.blocks.size + 2)) .bare
          o x).run (σ, writing.reverse) =
            Printing.outcome writing ((s.heap.renderOn writing .bare o x).run σ)) ∧
      (s.heap.Legible x → ∀ σ, ∃ texts,
        List.Forall₂ (fun e text => ∃ τ,
          (s.heap.renderOn writing .delimited o.deeper e).run σ = (.ok text, τ))
          (es.take w) texts ∧
        ∃ τ, (s.heap.renderOn writing .bare o x).run σ =
          (.ok (if w = 0 then "..." else elided texts (w < es.length)), τ)) := by
  intro w
  -- what the cursor yields are the elements of the sequence, with no break behind them
  have helements := (Cursor.drain_iff hs hx).mp hcursor
  have hzero : w = 0 ↔ o.widthLimit = some 0 := by
    cases hwidth : o.widthLimit with
    | none => simpa [w, hwidth] using hes
    | some k => simp [w, hwidth]
  have hnone : w = 0 → s.heap.renderOn writing .bare o x = pure "..." := fun hw =>
    renderOn_bare_of_no_width hx helements hes (hzero.mp hw) writing
  refine ⟨hnone, fun hw => ?_, fun underflow σ => ?_, fun hlegible σ => ?_⟩
  · exact curtails_renderOn_bare hx helements hes hdepth (fun h0 => hw (hzero.mpr h0)) writing
  · rw [printCounted_eq]
    exact prints_printWithin _ _ writing .bare o x σ
  · refine ⟨(es.take w).map (s.heap.writtenOn σ writing .delimited o.deeper), ?_, ?_⟩
    · refine List.forall₂_map_right_iff.mpr (List.forall₂_same.mpr fun e he => ?_)
      have helement := hlegible.element hx helements (List.mem_of_mem_take he)
      exact exists_run_renderOn helement σ writing .delimited o.deeper
    · by_cases hw : w = 0
      · rw [if_pos hw, hnone hw]
        exact ⟨σ, rfl⟩
      · rw [if_neg hw, ← writtenOn_bare hx helements hes hdepth (fun h0 => hw (hzero.mpr h0))
          writing hlegible σ]
        exact exists_run_renderOn hlegible σ writing .bare o

/-- Within a list of three elements that is cut short to two, another one is. -/
theorem width_elision_nested :
    let s := (Session.run [.make (.list [.list [.text "a" false, .text "b" false, .text "c" false],
      .text "d" false, .text "e" false]) ⟨some "x", true⟩] {}).2.store
    let o : PrintOptions := { widthLimit := some 2 }
    s.heap.InUse ∧ s.heap.IsSequence 13 ∧ s.heap.Legible 13 ∧ o.depthLimit ≠ some 0 ∧
      (∀ k, ((Cursor.start 13 >>= Cursor.drain k).run s).1 = .ok ([7, 8, 9].take k)) ∧
      ∃ τ, (s.heap.renderOn [] .bare o 13).run s.settled = (.ok "[a b ...] d ...", τ) := by
  intro s o
  have hs : s.heap.InUse := (Session.exact_run _).inUse
  have hx : s.heap.IsSequence 13 ∧ s.heap.elements 13 = ⟨[7, 8, 9], none⟩ := by decide +kernel
  have hlegible : s.heap.Legible 13 :=
    legible_of_closed (S := [0, 1, 2, 7, 8, 9, 13]) (fun _ => [])
      (linked_of_heads (S := [3, 4, 5, 6, 10, 11, 12]) (by decide +kernel) (by decide +kernel)
        (by decide +kernel))
      (by decide +kernel) (by decide +kernel) (by decide +kernel) (by decide)
  have hcursor := (Cursor.drain_iff hs hx.1).mpr hx.2
  obtain ⟨texts, htexts, τ, hrun⟩ := (width_elision (o := o) hs hx.1 hcursor (by decide) (by decide)
    []).2.2.2 hlegible s.settled
  have hlist : ((s.heap.renderOn [] .delimited o.deeper 7).run s.settled).1 = .ok "[a b ...]" ∧
      ((s.heap.renderOn [] .delimited o.deeper 8).run s.settled).1 = .ok "d" := by
    decide +kernel
  -- there are two texts, one for each element that fits
  have htwo : List.Forall₂ (fun e text => ∃ τ,
      (s.heap.renderOn [] .delimited o.deeper e).run s.settled = (.ok text, τ)) [7, 8] texts :=
    htexts
  rcases htwo with _ | ⟨⟨τ₁, h₁⟩, _ | ⟨⟨τ₂, h₂⟩, _ | _⟩⟩
  rw [h₁, h₂] at hlist
  obtain ⟨rfl, rfl⟩ : _ ∧ _ := hlist.imp Except.ok.inj Except.ok.inj
  exact ⟨hs, hx.1, hlegible, by decide, hcursor, τ,
    hrun.trans (congrArg (fun text => (Except.ok text, τ)) (by decide))⟩

end Heap

end SharedValues
