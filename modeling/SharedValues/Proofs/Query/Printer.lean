import SharedValues.Proofs.Query.Handles
import SharedValues.Proofs.Session.Lockstep

/-!
# Renderings through one printer

A rendering may keep the sequences that it is writing in a list of its own: it adds a sequence when
it begins to write it in delimited style, and takes it out when it is done.  Such a printer comes to
what the rendering that passes the sequences down comes to, of any value: it writes the same, or
breaks off with the same fault and the same sequences left open.  It serves for one rendering after
another, because a rendering that ends with a text leaves the list as it found it.

## Main definitions

* `Printing`, `Heap.printWithin` — the rendering that adds sequences and takes them out.
* `Printing.Prints` — a printer comes to what a rendering comes to.
* `Rendering` — a rendering that is asked for.

## Main results

* `Heap.prints_printWithin` — a printer comes to what the rendering comes to.
* `Rendering.printers_are_reusable` — renderings one after the other through one printer.
-/

namespace SharedValues

/-! ### Printers -/

/-- A step of a rendering, which settles words and changes the visited sequences of a printer. -/
abbrev Printing (α : Type) := ExceptT Fault (StateM (Settled × List Addr)) α

namespace Printing

/-- Puts a query. -/
def ask {α : Type} (q : Query Fault α) : Printing α :=
  fun s =>
    let (result, settled) := q.run s.1
    (result, (settled, s.2))

/-- The visited sequences, the outermost first. -/
def visited : Printing (List Addr) := do return (← get).2

/-- Adds a sequence to the visited ones. -/
def visit (a : Addr) : Printing Unit := modify fun s => (s.1, s.2 ++ [a])

/-- Takes a sequence out of the visited ones. -/
def leave (a : Addr) : Printing Unit := modify fun s => (s.1, s.2.filter (· != a))

/-- Writes elements after others, each of them after a blank, until there is no width left. -/
def following (write : Addr → Printing String) :
    Option ℕ → List Addr → Option Fault → Printing String
  | _, [], some f => throw f
  | _, [], none => return ""
  | some 0, _ :: _, _ => return " " ++ "..."
  | width, e :: es, f => do
    let text ← write e
    let rest ← following write (width.map (· - 1)) es f
    return " " ++ text ++ rest

/-- Writes the elements of a walk. -/
def writeAll (write : Addr → Printing String) (o : PrintOptions) (w : Walk) : Printing String :=
  match w.found, w.fault? with
  | [], some f => throw f
  | [], none => return ""
  | e :: es, f =>
    if o.depthLimit = some 0 ∨ o.widthLimit = some 0 then return "..."
    else do
      let text ← write e
      let rest ← following write (o.widthLimit.map (· - 1)) es f
      return text ++ rest

end Printing

open Printing in
/-- The written form of the value at an address, within `n` levels, by way of a printer. -/
def Heap.printWithin (h : Heap) : ℕ → Style → PrintOptions → Addr → Printing String
  | 0, _, _, _ => throw .endless
  | n + 1, style, o, x =>
    match h.body x with
    | .word w => ask (Query.renderWord x w o)
    | .list _ | .array .. =>
      let write := writeAll (h.printWithin n .delimited o.deeper) o (h.elements x)
      match style with
      | .bare => write
      | .delimited => do
        if (← visited).contains x then return "..."
        else
          visit x
          let inner ← write
          leave x
          return (brackets (h.kind x)).1 ++ inner ++ (brackets (h.kind x)).2
    | .node name children => do
      let text ← h.printWithin n .delimited o name
      let rest ← following (h.printWithin n .delimited o) none children none
      return "( " ++ text ++ rest ++ " )"
    | .error _ text _ => h.printWithin n .bare o text
    | body => return body.kind.name

namespace Printing

/-! ### What a printer comes to -/

section Prints

variable {α β : Type} {writing : List Addr} {q : Query (Fault × List Addr) α} {p : Printing α}

/-- The outcome of a rendering as the outcome of a printer, which has visited the sequences that are
being written, in the order in which they were begun. -/
def outcome (writing : List Addr) :
    Except (Fault × List Addr) α × Settled → Except Fault α × (Settled × List Addr)
  | (.ok a, τ) => (.ok a, (τ, writing.reverse))
  | (.error (f, left), τ) => (.error f, (τ, left.reverse))

/-- **A printer comes to what a rendering comes to** inside the sequences that are being written. -/
def Prints (writing : List Addr) (q : Query (Fault × List Addr) α) (p : Printing α) : Prop :=
  ∀ σ, p.run (σ, writing.reverse) = outcome writing (q.run σ)

theorem prints_pure (a : α) : Prints writing (pure a) (pure a) := fun _ => rfl

theorem prints_throw (f : Fault) :
    Prints writing (throw (f, writing) : Query (Fault × List Addr) α) (throw f) := fun _ => rfl

theorem prints_renderWord (x : Addr) (w : Word) (o : PrintOptions) :
    Prints writing (Query.renderWord x w o) (ask (Query.renderWord x w o)) := by
  intro σ
  unfold Query.renderWord
  cases w.isNumber <;> rfl

namespace Prints

theorem bind {f : α → Query (Fault × List Addr) β} {g : α → Printing β} (hp : Prints writing q p)
    (hg : ∀ a, Prints writing (f a) (g a)) : Prints writing (q >>= f) (p >>= g) := by
  intro σ
  rw [run_bind, run_bind, hp σ]
  rcases q.run σ with ⟨⟨f, left⟩ | a, τ⟩
  · rfl
  · exact hg a τ

theorem mapM {read : Addr → Query (Fault × List Addr) α} {write : Addr → Printing α}
    (hwrite : ∀ a, Prints writing (read a) (write a)) (as : List Addr) :
    Prints writing (as.mapM read) (as.mapM write) := by
  induction as with
  | nil => exact prints_pure []
  | cons a as ih =>
    rw [List.mapM_cons, List.mapM_cons]
    exact (hwrite a).bind fun t => ih.bind fun ts => prints_pure (t :: ts)

end Prints

end Prints

section Visited

variable {writing : List Addr} {a : Addr} (σ : Settled)

theorem run_visited :
    visited.run (σ, writing.reverse) = (.ok writing.reverse, (σ, writing.reverse)) := rfl

theorem run_visit :
    (visit a).run (σ, writing.reverse) = (.ok (), (σ, (a :: writing).reverse)) := by
  rw [List.reverse_cons]
  rfl

/-- Taking out what was added last leaves what was there before. -/
theorem run_leave (hnew : a ∉ writing) :
    (leave a).run (σ, (a :: writing).reverse) = (.ok (), (σ, writing.reverse)) := by
  have hrun : (leave a).run (σ, (a :: writing).reverse) =
      (.ok (), (σ, (a :: writing).reverse.filter (· != a))) := rfl
  have hkeep : writing.reverse.filter (· != a) = writing.reverse := by
    refine List.filter_eq_self.mpr fun b hb => ?_
    have hne : b ≠ a := fun hba => hnew (hba ▸ List.mem_reverse.mp hb)
    simpa using hne
  rw [hrun, List.reverse_cons, List.filter_append, hkeep]
  simp

end Visited

/-! ### Elements one by one -/

section Elements

variable {write : Addr → Printing String}

/-- Elements after others are written one by one. -/
theorem following_eq (width : Option ℕ) (es : List Addr) (fault? : Option Fault) :
    following write width es fault? = do
      let texts ← (es.take (width.getD es.length)).mapM write
      if width.getD es.length < es.length then return spaced (texts ++ ["..."])
      else
        match fault? with
        | some f => throw f
        | none => return spaced texts := by
  induction es generalizing width with
  | nil => cases fault? <;> simp [following, spaced]
  | cons e es ih =>
    -- at width zero the rest is elided; otherwise one text is written and one less may follow
    by_cases hwidth : width = some 0
    · subst hwidth
      simp [following, spaced]
    obtain ⟨htake, hless⟩ := Query.take_width_cons hwidth e es
    rw [htake, List.mapM_cons, following]
    · simp only [ih, bind_assoc, pure_bind, hless]
      refine bind_congr fun text => bind_congr fun texts => ?_
      split
      · simp [spaced, String.append_assoc]
      · cases fault? <;> simp [spaced, String.append_assoc]
    · exact hwidth

/-- Elements within a width are written one by one. -/
theorem writeAll_eq (o : PrintOptions) (w : Walk) :
    writeAll write o w =
      if w.found.isEmpty then w.fault?.elim (return "") throw
      else if o.depthLimit = some 0 ∨ o.widthLimit = some 0 then return "..."
      else do
        let texts ← (w.found.take (o.widthLimit.getD w.found.length)).mapM write
        if o.widthLimit.getD w.found.length < w.found.length then
          return " ".intercalate (texts ++ ["..."])
        else
          match w.fault? with
          | some f => throw f
          | none => return " ".intercalate texts := by
  unfold writeAll
  generalize w.fault? = fault?
  cases w.found with
  | nil => cases fault? <;> rfl
  | cons e es =>
    rw [if_neg (by simp)]
    dsimp only
    split
    · rfl
    -- one element at least is written, and it has no blank before it
    next hlimits =>
    obtain ⟨htake, hless⟩ := Query.take_width_cons (not_or.mp hlimits).2 e es
    rw [htake, List.mapM_cons]
    simp only [following_eq, bind_assoc, pure_bind, hless]
    refine bind_congr fun text => bind_congr fun texts => ?_
    simp only [List.cons_append, intercalate_cons]
    split
    · rfl
    · cases fault? <;> rfl

/-- A printer and a rendering that write the elements alike write a walk alike. -/
theorem Prints.writeAll {writing : List Addr} {read : Addr → Query (Fault × List Addr) String}
    (hwrite : ∀ a, Prints writing (read a) (write a)) (o : PrintOptions) (w : Walk) :
    Prints writing (Heap.renderWalk read (·, writing) o w) (Printing.writeAll write o w) := by
  rw [writeAll_eq]
  unfold Heap.renderWalk
  generalize w.fault? = fault?
  dsimp only
  -- the two forms of the walk branch in the same order
  split
  · cases fault? with
    | none => exact prints_pure ""
    | some f => exact prints_throw f
  split
  · exact prints_pure "..."
  refine (Prints.mapM hwrite _).bind fun texts => ?_
  split
  · exact prints_pure _
  cases fault? with
  | none => exact prints_pure _
  | some f => exact prints_throw f

end Elements

end Printing

namespace Heap

open Printing

variable {h : Heap} {x : Addr}

section Print

variable (n : ℕ) (style : Style) (o : PrintOptions)

theorem printWithin_word {w : Word} (hx : h.body x = .word w) :
    h.printWithin (n + 1) style o x = ask (Query.renderWord x w o) := by
  rw [printWithin.eq_def]
  dsimp only
  rw [hx]

theorem printWithin_bare (hx : h.IsSequence x) :
    h.printWithin (n + 1) .bare o x =
      writeAll (h.printWithin n .delimited o.deeper) o (h.elements x) := by
  unfold IsSequence kind at hx
  rw [printWithin.eq_def]
  dsimp only
  revert hx
  cases h.body x <;> simp [Body.kind]

theorem printWithin_delimited (hx : h.IsSequence x) :
    h.printWithin (n + 1) .delimited o x = do
      if (← Printing.visited).contains x then return "..."
      else
        visit x
        let inner ← h.printWithin (n + 1) .bare o x
        leave x
        return (brackets (h.kind x)).1 ++ inner ++ (brackets (h.kind x)).2 := by
  rw [printWithin_bare n o hx]
  unfold IsSequence at hx
  rw [printWithin.eq_def]
  dsimp only
  revert hx
  unfold kind
  cases h.body x <;> simp [Body.kind]

theorem printWithin_node {name : Addr} {children : List Addr}
    (hx : h.body x = .node name children) :
    h.printWithin (n + 1) style o x = do
      let text ← h.printWithin n .delimited o name
      let rest ← following (h.printWithin n .delimited o) none children none
      return "( " ++ text ++ rest ++ " )" := by
  rw [printWithin.eq_def]
  dsimp only
  rw [hx]

theorem printWithin_error {code : ℤ} {text tag : Addr} (hx : h.body x = .error code text tag) :
    h.printWithin (n + 1) style o x = h.printWithin n .bare o text := by
  rw [printWithin.eq_def]
  dsimp only
  rw [hx]

theorem printWithin_plain (hx : h.IsPlain x) :
    h.printWithin (n + 1) style o x = pure (h.kind x).name := by
  unfold IsPlain kind at hx
  unfold kind
  rw [printWithin.eq_def]
  dsimp only
  revert hx
  cases h.body x <;> simp [Body.kind]

end Print

/-- **A printer comes to what the rendering comes to**, whatever the value is. -/
theorem prints_printWithin (h : Heap) (n : ℕ) (writing : List Addr) (style : Style)
    (o : PrintOptions) (x : Addr) :
    Prints writing (h.renderWithin n writing style o x) (h.printWithin n style o x) := by
  induction n generalizing writing style o x with
  | zero => exact prints_throw .endless
  | succ n ih =>
    -- recording a sequence changes the list of those being written, not the levels
    have hbare : ∀ writing, h.IsSequence x → Prints writing
        (h.renderWithin (n + 1) writing .bare o x) (h.printWithin (n + 1) .bare o x) := by
      intro writing hx
      rw [renderWithin_bare _ _ _ hx, printWithin_bare _ _ hx]
      exact .writeAll (fun a => ih writing .delimited o.deeper a) o _
    cases h.form x with
    | word hw =>
      rw [renderWithin_word _ _ _ _ hw, printWithin_word _ _ _ hw]
      exact prints_renderWord x _ o
    | sequence hx =>
      cases style with
      | bare => exact hbare writing hx
      | delimited =>
        intro σ
        rw [renderWithin_delimited _ _ _ hx, printWithin_delimited _ _ hx, run_bind, run_visited]
        dsimp only
        -- the visited set of the printer holds just the sequences being written
        by_cases hmem : x ∈ writing
        · rw [if_pos hmem, if_pos (by simpa using hmem)]
          rfl
        rw [if_neg hmem, if_neg (by simpa using hmem), run_bind, run_visit]
        dsimp only
        rw [run_bind, run_bind, hbare (x :: writing) hx σ]
        rcases (h.renderWithin (n + 1) (x :: writing) .bare o x).run σ with
          ⟨⟨f, left⟩ | inner, τ⟩
        · rfl
        -- the sequence is taken out of the visited set again, which leaves it as it was
        · dsimp only [outcome]
          rw [run_bind, run_leave τ hmem]
          rfl
    | @node name children hx =>
      rw [renderWithin_node _ _ _ _ hx, printWithin_node _ _ _ hx, parts_of_node hx, List.mapM_cons]
      simp only [following_eq, Option.getD_none, List.take_length, Nat.lt_irrefl, if_false,
        bind_assoc, pure_bind, intercalate_cons]
      refine (ih writing .delimited o name).bind fun text => ?_
      refine (Prints.mapM (fun a => ih writing .delimited o a) children).bind fun texts => ?_
      rw [← String.append_assoc]
      exact prints_pure _
    | error hx =>
      rw [renderWithin_error _ _ _ _ hx, printWithin_error _ _ _ hx]
      exact ih writing .bare o _
    | plain hx =>
      rw [renderWithin_plain _ _ _ _ hx, printWithin_plain _ _ _ hx]
      exact prints_pure _

end Heap

/-! ### Many renderings -/

/-- A rendering that is asked for: the heap and the settled words it starts from, the style, the
print options, and the value. -/
structure Rendering where
  /-- The heap. -/
  heap : Heap
  /-- The settled words. -/
  settled : Settled
  /-- The style. -/
  style : Style
  /-- The print options. -/
  options : PrintOptions
  /-- The value. -/
  value : Addr

namespace Rendering

/-- The rendering by itself. -/
def alone (r : Rendering) : Except Fault String :=
  ((r.heap.render r.style r.options r.value).run r.settled).1

/-- The rendering among the sequences that the one before it left open. -/
def inSession (r : Rendering) : StateM (List Addr) (Except Fault String) := fun writing =>
  ((r.heap.renderFrom writing r.style r.options r.value).run r.settled).1

/-- The rendering through a printer as the one before it left it. -/
def onPrinter (r : Rendering) : StateM (List Addr) (Except Fault String) := fun visited =>
  let levels := (r.heap.blocks.size + 2) * (r.heap.blocks.size + 2)
  let (result, _, visited) :=
    (r.heap.printWithin levels r.style r.options r.value).run (r.settled, visited)
  (result, visited)

variable {r : Rendering}

/-- A rendering through a printer that has visited some sequences. -/
theorem run_onPrinter (hr : r.heap.Legible r.value) (visited : List Addr) :
    r.onPrinter.run visited =
      (.ok (r.heap.writtenOn r.settled visited.reverse r.style r.options r.value), visited) := by
  obtain ⟨τ, hrun⟩ :=
    Heap.exists_run_renderOn hr r.settled visited.reverse r.style r.options
  have hprints := r.heap.prints_printWithin ((r.heap.blocks.size + 2) * (r.heap.blocks.size + 2))
    visited.reverse r.style r.options r.value r.settled
  rw [List.reverse_reverse, ← Heap.renderOn, hrun] at hprints
  have hprinter : r.onPrinter.run visited =
      let levels := (r.heap.blocks.size + 2) * (r.heap.blocks.size + 2)
      let final := (r.heap.printWithin levels r.style r.options r.value).run (r.settled, visited)
      (final.1, final.2.2) := rfl
  rw [hprinter]
  dsimp only
  rw [hprints]
  exact congrArg (Prod.mk _) visited.reverse_reverse

theorem run_alone (hr : r.heap.Legible r.value) :
    r.alone = .ok (r.heap.writtenOn r.settled [] r.style r.options r.value) :=
  Heap.run_render hr r.settled r.style r.options

theorem run_inSession (hr : r.heap.Legible r.value) : r.inSession.run [] = (r.alone, []) := by
  have hin : r.inSession.run [] =
      ((r.heap.renderFrom [] r.style r.options r.value).run r.settled).1 := rfl
  obtain ⟨τ, hrun⟩ := Heap.exists_run_renderOn hr r.settled [] r.style r.options
  rw [hin, Heap.run_renderFrom, hrun, run_alone hr]

/-- **Renderings one after the other through one printer.**  Of values in which the chains are made
of cells, no error is within its own text and no syntax node is a part of itself, every rendering
ends with a text and leaves the visited sequences as they were, whatever they were; and through a
new printer each of them writes what it writes by itself. -/
theorem printers_are_reusable (rs : List Rendering)
    (hlegible : ∀ r ∈ rs, r.heap.Legible r.value) :
    (∀ r ∈ rs, ∀ visited, ∃ text, r.onPrinter.run visited = (.ok text, visited)) ∧
      (rs.mapM onPrinter).run [] = (rs.map alone, []) ∧
      (rs.mapM inSession).run [] = (rs.map alone, []) := by
  refine ⟨fun r hr visited => ⟨_, run_onPrinter (hlegible r hr) visited⟩, ?_, ?_⟩
  · refine run_mapM_of_restored fun r hr => ?_
    rw [run_onPrinter (hlegible r hr), run_alone (hlegible r hr), List.reverse_nil]
  · exact run_mapM_of_restored fun r hr => run_inSession (hlegible r hr)

/-- A list that contains itself, a syntax node with this list, and an error whose text is a list of
both are written one after the other. -/
theorem list_node_and_error_written :
    let s := (Session.run [.build (.selfContaining ["a"]) ⟨some "x", true⟩,
      .make (.node (.text "sum" false) [.register "x", .number (.ofNat 1)]) ⟨some "n", true⟩,
      .make (.error 7 (.list [.register "n", .register "x"]) .nothing) ⟨some "e", true⟩] {}).2.store
    let rs : List Rendering := [⟨s.heap, s.settled, .bare, {}, 3⟩,
      ⟨s.heap, s.settled, .bare, {}, 7⟩, ⟨s.heap, s.settled, .delimited, {}, 11⟩]
    (∀ r ∈ rs, r.heap.Legible r.value) ∧
      (rs.mapM onPrinter).run [] = ([.ok "a [a ...]", .ok "( sum [a ...] 1 )",
        .ok "( sum [a ...] 1 ) [a ...]"], []) := by
  intro s rs
  have hlegible : ∀ r ∈ rs, r.heap.Legible r.value := by
    have hheap : ∀ a ∈ [0, 3, 5, 6, 7, 10, 11], s.heap.Legible a := fun a ha =>
      Heap.legible_of_closed (fun _ => [0, 3, 5, 6, 7, 10])
        (Heap.linked_of_heads (S := [1, 2, 4, 8, 9]) (by decide +kernel) (by decide +kernel)
          (by decide +kernel))
        (by decide +kernel) (by decide +kernel) (by decide +kernel) ha
    simp only [rs, List.forall_mem_cons]
    exact ⟨hheap 3 (by decide), hheap 7 (by decide), hheap 11 (by decide), by simp⟩
  have halone : rs.map alone = [.ok "a [a ...]", .ok "( sum [a ...] 1 )",
      .ok "( sum [a ...] 1 ) [a ...]"] := by
    decide +kernel
  exact ⟨hlegible, halone ▸ (printers_are_reusable rs hlegible).2.1⟩

end Rendering

end SharedValues
