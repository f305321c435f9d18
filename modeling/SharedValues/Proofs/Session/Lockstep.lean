import SharedValues.Proofs.Sequence.Lockstep
import SharedValues.Proofs.Session.Run

/-!
# Sessions in lockstep

Sessions that differ only in words that no reading tells apart give the same answers, save for the
two questions that ask which words are settled, and go on to differ in no other way.

## Main definitions

* `Session.Synced` — sessions with synced stores that are the same otherwise.
* `Command.Reveals` — a command asks which words are settled.

## Main results

* `Session.step_synced`, `Session.run_synced` — sessions stay synced.
* `Session.step_answer` — all other commands get the same answer.
-/

namespace SharedValues

/-- Sessions with synced stores that are the same otherwise. -/
structure Session.Synced (R : Heap → Settled → Settled → Prop) (s t : Session) : Prop where
  /-- The stores are synced. -/
  store : SharedValues.Synced R s.store t.store
  /-- The registers are the same. -/
  registers_eq : s.registers = t.registers
  /-- The comparison is inside of the same pairs. -/
  trail_eq : s.trail = t.trail
  /-- The same sequences are being written. -/
  writing_eq : s.writing = t.writing

/-- A command asks which words are settled. -/
def Command.Reveals : Command → Prop
  | .ask _ q => q = .freshness ∨ q = .outline
  | _ => False

/-! ### Traversals of a session -/

theorem Heap.run_compare (h : Heap) (ignoreCase : Bool) (trail : Trail) (x y : Addr)
    (σ : Settled) : (h.compare ignoreCase trail x y).run σ =
      (match ((h.equalOn ignoreCase trail x y).run σ).1 with
        | .error (f, trail) => (.error f, trail)
        | .ok true => (.ok true, trail)
        | .ok false => (.ok false, if h.usesTrail x y then [] else trail),
      ((h.equalOn ignoreCase trail x y).run σ).2) := by
  unfold Heap.compare
  rw [StateT.run_bind, show StateT.run (h.equalOn ignoreCase trail x y).run σ =
    (h.equalOn ignoreCase trail x y).run σ from rfl]
  rcases (h.equalOn ignoreCase trail x y).run σ with ⟨⟨f, trail⟩ | _ | _, σ'⟩
  · rfl
  · rfl
  · rfl

theorem Heap.run_renderFrom (h : Heap) (writing : List Addr) (style : Style) (o : PrintOptions)
    (x : Addr) (σ : Settled) : (h.renderFrom writing style o x).run σ =
      (match ((h.renderOn writing style o x).run σ).1 with
        | .error (f, writing) => (.error f, writing)
        | .ok text => (.ok text, writing),
      ((h.renderOn writing style o x).run σ).2) := by
  unfold Heap.renderFrom
  rw [StateT.run_bind, show StateT.run (h.renderOn writing style o x).run σ =
    (h.renderOn writing style o x).run σ from rfl]
  rcases (h.renderOn writing style o x).run σ with ⟨⟨f, writing⟩ | _, σ'⟩
  · rfl
  · rfl

theorem Step.run_compareHere (ignoreCase : Bool) (x y : Addr) (s : Session) :
    (Step.compareHere ignoreCase x y).run s =
      (((s.store.heap.compare ignoreCase s.trail x y).run s.store.settled).1.1,
        { s with
          trail := ((s.store.heap.compare ignoreCase s.trail x y).run s.store.settled).1.2
          store := { s.store with
            settled := ((s.store.heap.compare ignoreCase s.trail x y).run s.store.settled).2 } }) :=
  rfl

theorem Step.run_renderHere (style : Style) (o : PrintOptions) (x : Addr) (s : Session) :
    (Step.renderHere style o x).run s =
      (((s.store.heap.renderFrom s.writing style o x).run s.store.settled).1.1,
        { s with
          writing := ((s.store.heap.renderFrom s.writing style o x).run s.store.settled).1.2
          store := { s.store with
            settled := ((s.store.heap.renderFrom s.writing style o x).run s.store.settled).2 } }) :=
  rfl

namespace Concord

open Heap (Steady body_of_word)

variable {R : Heap → Settled → Settled → Prop} {α β : Type}

/-! ### Operations of commands -/

section Operation

variable {s t : Store} {x y : Addr}

theorem call {m : Mode} {op : Operation α} (hop : Lockstep (Synced R) op s t) :
    Lockstep (Synced R) (m.call op) s t := by
  cases m with
  | checked => exact hop
  | asserted => exact promised hop
  | typed => exact promised hop

theorem source_make (hR : Concord R) (hs : Synced R s t) (source : Source) :
    Lockstep (Synced R) source.make s t := by
  cases source with
  | emptyList =>
    rw [Source.make]
    exact hR.make hs (.listOf _ [])
  | emptyArray origin size => exact hR.make hs (.emptyArray _ origin size)
  | words raws => exact hR.make hs (.words _ raws)
  | numbers values => exact hR.make hs (.numbers _ values)
  | wordArray origin raws => exact hR.make hs (.wordArray _ origin raws)
  | nested raw depth => exact hR.make hs (.nested _ raw depth)
  -- the list is made first, and then appended to itself or linked to itself
  | selfContaining raws =>
    apply (hR.make hs (.words _ raws)).bind
    intro x s t hs
    refine (hR.keeping x ?_).bind fun _ _ _ hs => .pure hs x
    exact assert hs fun l _ => promised (hR.list_append hs x x)
  | circular raws =>
    apply (hR.make hs (.words _ raws)).bind
    intro x s t hs
    refine (hR.keeping x ?_).bind fun _ _ _ hs => .pure hs x
    exact assert hs fun l _ => promised (hR.list_setButFirst hs x x)
  | shape sh size =>
    cases sh with
    | flat =>
      rw [Source.make]
      exact hR.make hs (.numbers _ _)
    | nested => exact hR.make hs (.nested _ _ size)
    | array => exact hR.make hs (.numberArray _ 1 _)
  | usage =>
    rw [Source.make]
    exact hR.make hs ((Steady.usage _).trans (.numbers _ _))

theorem piece_take (hR : Concord R) (hs : Synced R s t) (p : Piece) (x : Addr) :
    Lockstep (Synced R) (p.take x) s t := by
  cases p with
  | item index => exact hR.sequence_item hs x index
  | first => exact hR.sequence_first hs x
  | last => exact hR.sequence_last hs x
  | butFirst => exact hR.sequence_butFirst hs x
  | butLast => exact hR.sequence_butLast hs x

/-- An element of a list that may not be there. -/
theorem share_get? (hR : Concord R) (hs : Synced R s t) (as : List Addr) (n : ℕ) :
    Lockstep (Synced R) (as[n]?.mapM Operation.share) s t := by
  cases as[n]? with
  | none => exact .pure hs none
  | some a => exact (hR.share hs a).map some

theorem derivation_run (hR : Concord R) (hs : Synced R s t) (d : Derivation) (x : Addr) :
    Lockstep (Synced R) (d.run x) s t := by
  -- each derivation looks at the value, and then makes or shares one value from what it saw
  cases d with
  | same => exact (hR.share hs x).map some
  | piece p mode => exact look hs ((call (hR.piece_take hs p x)).map some)
  | head => exact assert hs fun l _ => (hR.share hs l.head).map some
  | shared => exact assert hs fun l _ => (hR.list_shared hs).map some
  | listOfSlots => exact assert hs fun r _ => (hR.list_ofSlots hs r.slots).map some
  | arrayOfElements origin => exact assert hs fun _ _ => (hR.row_ofElements hs origin x).map some
  | part start stop => exact assert hs fun r _ => (hR.row_part hs start stop).map some
  | slot n => exact assert hs fun r _ => hR.share_get? hs r.slots n
  | nodeName => exact assert hs fun _ _ => (hR.share hs _).map some
  | child n => exact assert hs fun _ _ => hR.share_get? hs _ n
  | errorText => exact assert hs fun _ _ => (hR.share hs _).map some
  | errorTag => exact assert hs fun _ _ => (hR.share hs _).map some
  | cellItem => exact assert hs fun _ _ => (hR.share hs _).map some
  | cellNext => exact assert hs fun _ _ => (hR.share hs _).map some
  | procedureCopy => exact assert hs fun _ _ => (hR.make hs (.alloc _ _ _)).map some

theorem combination_run (hR : Concord R) (hs : Synced R s t) (c : Combination) (x y : Addr) :
    Lockstep (Synced R) (c.run x y) s t := by
  cases c with
  | fromMember ignoreCase mode => exact call (hR.sequence_fromMember hs ignoreCase x y)
  | cons => exact assert hs fun l _ => hR.list_cons hs y

theorem change_run (hR : Concord R) (hs : Synced R s t) (c : Change) (x y : Addr) :
    Lockstep (Synced R) (c.run x y) s t := by
  cases c with
  | setItem index mode => exact call (hR.sequence_setItem hs x index y)
  | setFirst mode => exact call (hR.sequence_setFirst hs x y)
  | setButFirst mode => exact call (hR.sequence_setButFirst hs x y)
  | append mode =>
    -- appending depends on the kind of the value, which is the same on both sides
    refine look hs ?_
    split
    · exact hR.row_append hs x y
    · exact call (hR.list_append hs x y)
    · exact .throw hs _
  | prepend => exact assert hs fun l _ => hR.list_prepend hs x y
  | addChild =>
    apply assert hs
    rintro ⟨name, children⟩ -
    exact hR.alter hs ((Steady.retain _ y).trans (.setBody _ _ (by simp)))
  | setCellItem => exact hR.setCellItem hs x y
  | setCellNext => exact hR.setCellNext hs x y

theorem comparison_run (hR : Concord R) (hs : Synced R s t) (c : Comparison) (x y : Addr) :
    Lockstep (Synced R) (c.run x y) s t := by
  cases c with
  | same => exact .pure hs _
  | equal ignoreCase => exact ask hs (hR.equal hs.settled ignoreCase x y)
  | wordEqual ignoreCase =>
    refine assert hs fun v hv => assert hs fun w hw => ask hs ?_
    exact hR.wordsEqual hs.settled (body_of_word hv) (body_of_word hw) ignoreCase
  | wordContains ignoreCase =>
    refine assert hs fun v hv => assert hs fun w hw => ?_
    refine (ask hs ?_).result _
    exact hR.wordSeek? hs.settled (body_of_word hv) (body_of_word hw) ignoreCase
  | contains ignoreCase mode => exact call (ask hs (hR.contains hs.settled ignoreCase x y))
  | isMember ignoreCase mode => exact call (ask hs (hR.isMember hs.settled ignoreCase x y))
  | samePayload => exact assert hs fun _ _ => assert hs fun _ _ => .pure hs _

theorem opening_run (hR : Concord R) (hs : Synced R s t) (o : Opening) (x : Addr) :
    Lockstep (Synced R) (o.run x) s t := by
  cases o with
  | sequence mode =>
    cases mode with
    | checked => exact hR.cursor_start hs x
    | asserted => exact promised (hR.cursor_start hs x)
    | typed => exact assert hs fun l _ => hR.cursor_ofList hs l
  | array => exact hR.cursor_ofArray hs x
  | word => exact hR.cursor_ofWord hs x

/-! ### Questions -/

theorem shownAll (hR : Concord R) (hs : Synced R s t) (as : List Addr) :
    Lockstep (Synced R) (Question.shownAll as) s t := by
  refine (Lockstep.mapM hs ?_).result _
  intro a _ s t hs
  exact ask hs (hR.shown hs.settled a)

/-- A question about a word that asks for one of its forms. -/
theorem askWord {f : Word → Query Fault α} {g : Word → α → Reply} (hs : Synced R s t)
    (hf : ∀ w, s.heap.body x = .word w → Lockstep (R s.heap) (f w) s.settled t.settled) :
    Lockstep (Synced R) (do
      let w ← Operation.assert (·.word x)
      let a ← Operation.ask fun _ => f w
      return g w a) s t := by
  apply assert hs
  intro w hw
  exact (ask hs (hf w (body_of_word hw))).result _

theorem question_run (hR : Concord R) (hs : Synced R s t) (q : Question) (x : Addr)
    (hfreshness : q ≠ .freshness) (houtline : q ≠ .outline) :
    Lockstep (Synced R) (q.run x) s t := by
  cases q with
  -- the two questions that reveal which words are settled
  | freshness => exact absurd rfl hfreshness
  | outline => exact absurd rfl houtline
  | kind => exact look hs (.pure hs _)
  | kinds => exact look hs (.pure hs _)
  | isKind k => exact look hs (.pure hs _)
  | count => exact look hs (.pure hs _)
  | isDestroyable => exact look hs (.pure hs _)
  | isMutable => exact look hs (.pure hs _)
  | size mode =>
    exact (call (ask hs (hR.size hs.settled x))).result _
  | inRange index mode =>
    exact (call (ask hs (hR.inRange hs.settled x index))).result _
  | isEmpty => exact (ask hs (hR.isEmpty hs.settled x)).result _
  | shown => exact (ask hs (hR.shown hs.settled x)).result _
  | inspected => exact (ask hs (hR.inspected hs.settled x)).result _
  | render style o =>
    exact (ask hs (hR.render hs.settled style o x)).result _
  | renderWord o => exact askWord hs fun w hw => hR.renderWord hs.settled hw o
  | recount =>
    exact assert hs fun l _ => (hR.list_recount hs x).result _
  | stamp => exact assert hs fun _ _ => .pure hs _
  | parsed => exact assert hs fun l _ => hR.shownAll hs l.parsed
  | origin => exact assert hs fun _ _ => .pure hs _
  | slots => exact assert hs fun r _ => hR.shownAll hs r.slots
  | childCount => exact assert hs fun _ _ => .pure hs _
  | children => exact assert hs fun n _ => hR.shownAll hs n.2
  | errorCode => exact assert hs fun _ _ => .pure hs _
  | payload => exact assert hs fun _ _ => .pure hs _
  | payloadNumber => exact assert hs fun _ _ => .pure hs _
  | label => exact assert hs fun _ _ => .pure hs _
  | raw => exact askWord hs fun w hw => hR.rawText hs.settled hw
  | printable => exact askWord hs fun w hw => hR.rawText hs.settled hw
  | key => exact askWord hs fun w hw => hR.rawText hs.settled hw
  | number => exact askWord hs fun w hw => hR.numberOf hs.settled hw
  | isNumber => exact askWord hs fun w hw => hR.numberOf hs.settled hw
  | number? => exact askWord hs fun w hw => hR.numberOf hs.settled hw
  | isSpecial => exact assert hs fun _ _ => .pure hs _

end Operation

/-! ### Steps of commands -/

section Step

variable {s t : Session}

theorem step_on (hs : s.Synced R t) {op : Operation α}
    (hop : Lockstep (Synced R) op s.store t.store) :
    Lockstep (Session.Synced R) (Step.on op) s t :=
  ⟨hop.1, hop.2, hs.registers_eq, hs.trail_eq, hs.writing_eq⟩

theorem step_look (hs : s.Synced R t) (f : Heap → α) :
    Lockstep (Session.Synced R) (Step.on (.look f)) s t :=
  step_on hs (look hs.store (f := f) (g := pure) (.pure hs.store _))

/-- What follows may depend on the parts of the session that are the same. -/
theorem ofSession {f : Session → Step α} (hfs : f s = f t)
    (hf : Lockstep (Session.Synced R) (f s) s t) :
    Lockstep (Session.Synced R) (get >>= f) s t := by
  refine ⟨?_, ?_⟩
  · exact hf.1.trans (by rw [hfs]; rfl)
  · have hend := hf.2
    rw [show (f s).run t = ((get : Step Session) >>= f).run t by rw [hfs]; rfl] at hend
    exact hend

theorem setRegisters (hs : s.Synced R t) {f : Registers → Registers} :
    Lockstep (Session.Synced R)
      (modify fun s => { s with registers := f s.registers } : Step PUnit) s t :=
  ⟨rfl, hs.store, congrArg f hs.registers_eq, hs.trail_eq, hs.writing_eq⟩

theorem value?_eq (hs : s.Synced R t) : s.value? = t.value? := by
  funext name
  rw [Session.value?, Session.value?, hs.registers_eq]

theorem step_value (hs : s.Synced R t) (name : String) :
    Lockstep (Session.Synced R) (Step.value name) s t := by
  refine ofSession (by rw [value?_eq hs]) ?_
  split
  · exact .pure hs _
  · exact .throw hs _

theorem step_cursor (hs : s.Synced R t) (name : String) :
    Lockstep (Session.Synced R) (Step.cursor name) s t := by
  refine ofSession (by rw [Session.cursor?, Session.cursor?, hs.registers_eq]) ?_
  split
  · exact .pure hs _
  · exact .throw hs _

theorem step_holding (hR : Concord R) (a : Addr) {step : Step α}
    (hstep : Lockstep (Session.Synced R) step s t) :
    Lockstep (Session.Synced R) (Step.holding a step) s t := by
  obtain ⟨hend, hs⟩ := hstep
  have hrelease := hR.release hs.store a
  exact ⟨hend, hrelease.2, hs.registers_eq, hs.trail_eq, hs.writing_eq⟩

theorem step_put (hR : Concord R) (hs : s.Synced R t) (name : String) (x : Holding) :
    Lockstep (Session.Synced R) (Step.put name x) s t := by
  refine ofSession (by rw [hs.registers_eq]) ?_
  apply (setRegisters hs).bind
  intro _ s t hs
  split
  · exact step_on hs (hR.release hs.store _)
  · exact .pure hs _

theorem step_advance (hs : s.Synced R t) (name : String) (c : Cursor) :
    Lockstep (Session.Synced R) (Step.advance name c) s t :=
  setRegisters hs

theorem step_bound (hs : s.Synced R t) (names : List String) :
    Lockstep (Session.Synced R) (Step.bound names) s t := by
  refine ofSession (by rw [value?_eq hs]) ?_
  split
  · exact .throw hs _
  · exact .pure hs _

theorem step_eval (hR : Concord R) (hs : s.Synced R t) (e : Expr) :
    Lockstep (Session.Synced R) (Step.eval e) s t := by
  apply (step_bound hs e.registers).bind
  intro _ s t hs
  refine ofSession (by rw [value?_eq hs]) ?_
  exact step_on hs (hR.make hs.store (.eval _ e _))

theorem step_evalAll (hR : Concord R) (hs : s.Synced R t) (es : List Expr) :
    Lockstep (Session.Synced R) (Step.evalAll es) s t := by
  apply (step_bound hs _).bind
  intro _ s t hs
  refine ofSession (by rw [value?_eq hs]) ?_
  exact step_on hs (hR.make hs.store (.evalAll _ es _))

theorem step_promise (hs : s.Synced R t) (x : Addr) (expected : Option Kind) :
    Lockstep (Session.Synced R) (Step.promise x expected) s t := by
  apply (step_look hs _).bind
  intro found s t hs
  cases expected with
  | none => exact .pure hs _
  | some k =>
    dsimp only
    split
    · exact .throw hs _
    · exact .pure hs _

theorem step_withOperand (hR : Concord R) (hs : s.Synced R t) (y : Expr) {step : Addr → Step α}
    (hstep : ∀ a s t, s.Synced R t → Lockstep (Session.Synced R) (step a) s t) :
    Lockstep (Session.Synced R) (Step.withOperand y step) s t :=
  (hR.step_eval hs y).bind fun a s t hs => hR.step_holding a (hstep a s t hs)

theorem step_keep (hR : Concord R) (hs : s.Synced R t) (k : Keep) (a : Addr) :
    Lockstep (Session.Synced R) (Step.keep k a) s t := by
  apply (step_look hs _).bind
  intro kind s t hs
  -- the two ways to go on once the written form is there
  have hput : ∀ name (answer : Answer) (s t : Session), s.Synced R t →
      Lockstep (Session.Synced R) (do Step.put name (.value a); return answer) s t :=
    fun name answer s t hs => (hR.step_put hs name _).result _
  have hgive : ∀ (answer : Answer) (s t : Session), s.Synced R t →
      Lockstep (Session.Synced R) (do Step.on (.release a); return answer) s t :=
    fun answer s t hs =>
      (step_on hs (hR.release hs.store a)).result _
  have hshown := step_on hs (hR.keeping a
    (ask hs.store (q := (·.shown a)) (hR.shown hs.store.settled a)))
  dsimp only
  split
  · apply Lockstep.bind (.pure hs none)
    intro shown s t hs
    split
    · exact hput _ _ s t hs
    · exact hgive _ s t hs
  · apply (hshown.map some).bind
    intro shown s t hs
    split
    · exact hput _ _ s t hs
    · exact hgive _ s t hs

theorem step_keep? (hR : Concord R) (hs : s.Synced R t) (k : Keep) (a : Option Addr) :
    Lockstep (Session.Synced R) (Step.keep? k a) s t := by
  cases a with
  | none => exact .pure hs _
  | some a => exact hR.step_keep hs k a

theorem step_changed (hR : Concord R) (hs : s.Synced R t) (x : Addr) (quiet : Bool) :
    Lockstep (Session.Synced R) (Step.changed x quiet) s t := by
  unfold Step.changed
  split
  · exact .pure hs _
  · exact (step_on hs (ask hs.store (hR.shown hs.store.settled x))).result _

/-! ### Commands -/

theorem adjustment_run (hR : Concord R) (hs : s.Synced R t) (a : Adjustment) (x : Addr) :
    Lockstep (Session.Synced R) (a.run x) s t := by
  cases a with
  | clear => exact step_on hs (assert hs.store fun l _ => hR.list_clear hs.store x)
  | freeze => exact step_on hs (hR.alter hs.store (.freeze _ x))
  | decode kind mode =>
    refine step_on hs (look hs.store ?_)
    split
    · exact call (.throw hs.store _)
    · exact .pure hs.store _
  | setParsed stamp items =>
    apply (hR.step_evalAll hs items).bind
    intro parsed s t hs
    refine step_on hs (hR.holdingAll parsed ?_)
    exact assert hs.store fun l _ => hR.list_setParsed hs.store x stamp parsed

theorem step_collectWithin (hR : Concord R) (hs : s.Synced R t) (name : String) (n : ℕ)
    (written : List String) :
    Lockstep (Session.Synced R) (Step.collectWithin name n written) s t := by
  induction n generalizing s t written with
  | zero => exact .pure hs _
  | succ n ih =>
    apply (step_cursor hs name).bind
    intro c s t hs
    apply (step_on hs (hR.cursor_next hs.store c)).bind
    rintro ⟨item, c⟩ s t hs
    apply (step_advance hs name c).bind
    intro _ s t hs
    -- the cursor comes to its end in both sessions at the same time
    cases item with
    | none => exact .pure hs _
    | some a =>
      have hshown := step_on hs
        (ask hs.store (q := (·.shown a)) (hR.shown hs.store.settled a))
      exact (hR.step_holding a hshown).bind fun text _ _ hs => ih hs (text :: written)

theorem step_collect (hR : Concord R) (hs : s.Synced R t) (name : String) :
    Lockstep (Session.Synced R) (Step.collect name) s t := by
  apply (step_cursor hs name).bind
  intro c s t hs
  apply (step_on hs (ask hs.store (hR.sizeHint hs.store.settled c))).bind
  rintro ⟨low, high⟩ s t hs
  exact hR.step_collectWithin hs name _ _

theorem step_compareHere (hR : Concord R) (hs : s.Synced R t) (ignoreCase : Bool) (x y : Addr) :
    Lockstep (Session.Synced R) (Step.compareHere ignoreCase x y) s t := by
  obtain ⟨hend, hsettled⟩ := hR.equalOn hs.store.settled ignoreCase s.trail x y
  -- the trail is written after the comparison, the same in both sessions
  unfold Lockstep
  rw [Step.run_compareHere, Step.run_compareHere, Heap.run_compare, Heap.run_compare, ← hs.trail_eq,
    ← hs.store.heap_eq, ← hend]
  exact ⟨rfl, ⟨hs.store.heap_eq, hsettled⟩, hs.registers_eq, rfl, hs.writing_eq⟩

theorem step_renderHere (hR : Concord R) (hs : s.Synced R t) (style : Style) (o : PrintOptions)
    (x : Addr) : Lockstep (Session.Synced R) (Step.renderHere style o x) s t := by
  obtain ⟨hend, hsettled⟩ := hR.renderOn hs.store.settled s.writing style o x
  unfold Lockstep
  rw [Step.run_renderHere, Step.run_renderHere, Heap.run_renderFrom, Heap.run_renderFrom,
    ← hs.writing_eq, ← hs.store.heap_eq, ← hend]
  exact ⟨rfl, ⟨hs.store.heap_eq, hsettled⟩, hs.registers_eq, hs.trail_eq, rfl⟩

/-- **A command in lockstep**, unless it asks which words are settled. -/
theorem step_perform (hR : Concord R) (hs : s.Synced R t) (c : Command) (hc : ¬c.Reveals) :
    Lockstep (Session.Synced R) (Step.perform c) s t := by
  cases c with
  | make e k => exact (hR.step_eval hs e).bind fun a _ _ hs => hR.step_keep hs k a
  | build source k =>
    apply (step_on hs (hR.source_make hs.store source)).bind
    intro a _ _ hs
    exact hR.step_keep hs k a
  | derive x d k =>
    apply (step_value hs x).bind
    intro x s t hs
    apply (step_on hs (hR.derivation_run hs.store d x)).bind
    intro r _ _ hs
    exact hR.step_keep? hs k r
  -- the second value is made before the operation and given up after it
  | combine x c y k =>
    apply (step_value hs x).bind
    intro x s t hs
    apply (step_promise hs x c.expects).bind
    intro _ s t hs
    apply hR.step_withOperand hs y
    intro y s t hs
    apply (step_on hs (hR.combination_run hs.store c x y)).bind
    intro a _ _ hs
    exact hR.step_keep hs k a
  | change x c y quiet =>
    apply (step_value hs x).bind
    intro x s t hs
    apply (step_promise hs x c.expects).bind
    intro _ s t hs
    apply hR.step_withOperand hs y
    intro y s t hs
    apply (step_on hs (hR.change_run hs.store c x y)).bind
    intro _ _ _ hs
    exact hR.step_changed hs x quiet
  | adjust x a quiet =>
    apply (step_value hs x).bind
    intro x s t hs
    exact (hR.adjustment_run hs a x).bind fun _ _ _ hs => hR.step_changed hs x quiet
  | ask x q =>
    apply (step_value hs x).bind
    intro x s t hs
    have hq := hR.question_run hs.store q x (fun h => hc (Or.inl h)) fun h => hc (Or.inr h)
    exact (step_on hs hq).result _
  | compare x c y =>
    apply (step_value hs x).bind
    intro x s t hs
    apply (step_promise hs x c.expects).bind
    intro _ s t hs
    apply hR.step_withOperand hs y
    intro y s t hs
    exact (step_on hs (hR.comparison_run hs.store c x y)).result _
  | compareHere x ignoreCase y =>
    apply (step_value hs x).bind
    intro x s t hs
    apply hR.step_withOperand hs y
    intro y s t hs
    exact (hR.step_compareHere hs ignoreCase x y).result _
  | renderHere x style o =>
    apply (step_value hs x).bind
    intro x s t hs
    exact (hR.step_renderHere hs style o x).result _
  | openCursor x how target =>
    apply (step_value hs x).bind
    intro x s t hs
    apply (step_on hs (hR.opening_run hs.store how x)).bind
    intro c s t hs
    exact (hR.step_put hs target (.cursor c)).result _
  | hasMore x =>
    apply (step_cursor hs x).bind
    intro c s t hs
    exact (step_on hs (ask hs.store (hR.hasMore hs.store.settled c))).result _
  | next x k =>
    apply (step_cursor hs x).bind
    intro c s t hs
    apply (step_on hs (hR.cursor_next hs.store c)).bind
    rintro ⟨item, c⟩ s t hs
    exact (step_advance hs x c).bind fun _ _ _ hs => hR.step_keep? hs k item
  | takeNext x k =>
    apply (step_cursor hs x).bind
    intro c s t hs
    apply (step_on hs (hR.cursor_takeNext hs.store c)).bind
    rintro ⟨item, c⟩ s t hs
    exact (step_advance hs x c).bind fun _ _ _ hs => hR.step_keep hs k item
  | sizeHint x =>
    apply (step_cursor hs x).bind
    intro c s t hs
    exact (step_on hs (ask hs.store (hR.sizeHint hs.store.settled c))).result _
  | collect x => exact (hR.step_collect hs x).result _
  -- the registers are the same in both sessions, so the same handle is given up
  | drop x =>
    refine ofSession (by rw [hs.registers_eq]) ?_
    apply (setRegisters hs).bind
    intro _ s t hs
    split
    · exact (step_on hs (hR.release hs.store _)).result _
    · exact .pure hs _
  | dropAll =>
    refine ofSession (by rw [hs.registers_eq]) ?_
    apply (setRegisters hs (f := fun _ => [])).bind
    intro _ s t hs
    exact (step_on hs (hR.alter hs.store (.releaseAll _ _))).result _
  | usage =>
    apply (step_on hs (hR.make hs.store (.usage _))).bind
    rintro ⟨live, peak⟩ s t hs
    exact .pure hs _
  | isIdle => exact ofSession (by rw [hs.trail_eq]) (.pure hs _)
  | shapeName shape => exact .pure hs _

end Step

end Concord

/-! ### Runs -/

namespace Session

open Operation

variable {R : Heap → Settled → Settled → Prop} {s t : Session} {c : Command}

/-- Asking which words are settled changes nothing. -/
theorem step_of_reveals (hc : c.Reveals) (s : Session) : (s.step c).2 = s := by
  cases c with
  | ask name q =>
    have hread : ∀ x, Ensures (Question.run x q) s.store (fun _ t => t = s.store)
        fun _ t => t = s.store := by
      intro x
      rcases hc with rfl | rfl
      · refine ensures_bind.mpr (ensures_assert ?_ fun _ _ => rfl)
        intro w _
        refine ensures_bind.mpr (ensures_ask (fun b settled hb => ?_) fun f settled hf => ?_)
        · have hsame : s.store.settled = settled := (Prod.mk.inj hb).2
          exact ensures_pure.mpr (by rw [← hsame])
        · exact absurd (Prod.mk.inj hf).1 (by simp)
      · -- an outline reads the settled words, and writes none
        have hrun : (Question.run x .outline).run s.store =
            ((s.store.heap.outline s.store.settled x).map .outline, s.store) := by
          rw [Question.run]
          rfl
        unfold Ensures
        rw [hrun]
        cases (s.store.heap.outline s.store.settled x).map Reply.outline with
        | error f => rfl
        | ok reply => rfl
    refine step_of_ensures (P := fun t => t = s) (ensures_bind.mpr (ensures_value ?_ rfl))
    intro x _
    refine ensures_bind.mpr (ensures_on.mpr ((hread x).mono ?_ ?_))
    · rintro reply _ rfl
      exact ensures_pure.mpr rfl
    · rintro f _ rfl
      rfl
  | _ => exact hc.elim

/-- All other commands get the same answer from synced sessions. -/
theorem step_lockstep (hR : Concord R) (hs : s.Synced R t) (hc : ¬c.Reveals) :
    (s.step c).1 = (t.step c).1 ∧ (s.step c).2.Synced R (t.step c).2 := by
  obtain ⟨hend, hsynced⟩ := hR.step_perform hs c hc
  unfold Session.step
  rcases hs' : (Step.perform c).run s with ⟨r, s'⟩
  rcases ht' : (Step.perform c).run t with ⟨r', t'⟩
  rw [hs', ht'] at hend hsynced
  obtain rfl : r = r' := hend
  cases r with
  | error f => exact ⟨rfl, hsynced⟩
  | ok answer => exact ⟨rfl, hsynced⟩

/-- **Sessions stay synced** under all commands. -/
theorem step_synced (hR : Concord R) (hs : s.Synced R t) (c : Command) :
    (s.step c).2.Synced R (t.step c).2 := by
  by_cases hc : c.Reveals
  · rwa [step_of_reveals hc, step_of_reveals hc]
  · exact (step_lockstep hR hs hc).2

theorem run_synced (hR : Concord R) (hs : s.Synced R t) (cs : List Command) :
    (s.run cs).2.Synced R (t.run cs).2 := by
  induction cs generalizing s t with
  | nil => exact hs
  | cons c cs ih => exact ih (step_synced hR hs c)

end Session

/-! ### Settled words have numbers -/

/-- Settled words have numbers: they were settled when a number was read from them, or they are
numbers. -/
def Settled.Valid (σ : Settled) (h : Heap) : Prop :=
  ∀ a w, σ.contains a = true → h.body a = .word w → w.number?.isSome = true

/-- Settled words have numbers, and were there when they were settled.  Since no address is given
out twice, no other word will take the place of one of them. -/
structure Settled.Backed (σ : Settled) (h : Heap) : Prop where
  /-- They have numbers. -/
  valid : σ.Valid h
  /-- They were there. -/
  lt_size : ∀ a, σ.contains a = true → a < h.blocks.size

theorem concord_backed : Concord fun h σ τ => σ = τ ∧ σ.Backed h where
  steady := by
    rintro h h' σ _ hh ⟨rfl, hσ⟩
    refine ⟨rfl, ?_, fun a ha => (hσ.lt_size a ha).trans_le hh.size_le⟩
    intro a w ha hw
    exact hσ.valid a w ha (hh.word (hσ.lt_size a ha) hw)
  settle := by
    rintro h a w σ _ ha hw ⟨rfl, hσ⟩
    refine ⟨rfl, fun b v hb hv => ?_, fun b hb => ?_⟩
    all_goals
      rw [Settled.contains_insert, Bool.or_eq_true, decide_eq_true_eq] at hb
      rcases hb with hb | rfl
    · -- validity: the words settled before, and the one settled now
      exact hσ.valid b v hb hv
    · obtain rfl := Body.word.inj (ha.symm.trans hv)
      exact hw
    · -- addresses, likewise
      exact hσ.lt_size b hb
    · exact (Heap.live_of_body ha (by simp)).lt_size
  numeric := by
    rintro h a w σ _ - ⟨rfl, -⟩
    rfl

/-- **In every state of a session, settled words have numbers.** -/
theorem Session.backed_run (cs : List Command) :
    (Session.run cs {}).2.store.settled.Backed (Session.run cs {}).2.store.heap := by
  have hempty : Settled.Backed {} {} :=
    ⟨fun _ _ ha => absurd ha (by simp [Settled.contains]),
      fun _ ha => absurd ha (by simp [Settled.contains])⟩
  have hstart : Session.Synced (fun h σ τ => σ = τ ∧ σ.Backed h) {} {} :=
    ⟨⟨rfl, rfl, hempty⟩, rfl, rfl, rfl⟩
  exact (Session.run_synced concord_backed hstart cs).store.settled.2

end SharedValues
