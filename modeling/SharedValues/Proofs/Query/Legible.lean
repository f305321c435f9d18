import Mathlib.Data.Finset.Card
import Mathlib.Logic.Relation
import Mathlib.Tactic.Linarith
import SharedValues.Proofs.Chain.Basic
import SharedValues.Proofs.Heap.Move
import SharedValues.Query.Render

/-!
# Legible values

A rendering goes from a value to the parts that are written within it.  Errors and syntax nodes are
not recorded while they are written, so a rendering ends only if no error is within its own text and
no syntax node is a part of itself.  Sequences may contain themselves.

How many levels it takes is found by counting what the heap has.  On the way down an error is met
once; between two errors a sequence is entered once in delimited style, since it is recorded then,
and once in bare style right below the error; and between these come only syntax nodes, each of them
once.

## Main definitions

* `Heap.parts`, `Heap.Within` — what is written as a part of a value.
* `Heap.Legible` — what a value needs for its rendering to end.
* `Heap.Form` — the sorts of values that are written in different ways.
* `Heap.Room` — enough levels are left.

## Main results

* `room_start` — a rendering starts with enough levels.
* `Room.record`, `Room.element`, `Room.part`, `Room.text` — one level less is enough for the parts.
* `Room.induction` — from the parts of a value to the value.
-/

namespace SharedValues

namespace Heap

variable {h : Heap} {a b c x : Addr} {writing : List Addr} {n : ℕ} {style : Style}

/-! ### Parts -/

/-- A value is a list or an array. -/
def IsSequence (h : Heap) (a : Addr) : Prop := h.kind a = .list ∨ h.kind a = .array

instance (h : Heap) (a : Addr) : Decidable (h.IsSequence a) := inferInstanceAs (Decidable (_ ∨ _))

theorem IsSequence.kind_ne (ha : h.IsSequence a) : h.kind a ≠ .node ∧ h.kind a ≠ .error := by
  rcases ha with ha | ha <;> simp [ha]

/-- What is written as a part of a value: the elements of a sequence, the name and the children of a
syntax node, the text of an error. -/
def parts (h : Heap) (a : Addr) : List Addr :=
  match h.body a with
  | .node name children => name :: children
  | .error _ text _ => [text]
  | _ => (h.elements a).found

theorem parts_of_node {name : Addr} {children : List Addr} (ha : h.body a = .node name children) :
    h.parts a = name :: children := by
  rw [parts, ha]

theorem kind_of_node {name : Addr} {children : List Addr} (ha : h.body a = .node name children) :
    h.kind a = .node := by
  rw [kind, ha, Body.kind]

theorem kind_of_error {code : ℤ} {text tag : Addr} (ha : h.body a = .error code text tag) :
    h.kind a = .error := by
  rw [kind, ha, Body.kind]

theorem kind_of_word {w : Word} (ha : h.body a = .word w) : h.kind a = .word := by
  rw [kind, ha, Body.kind]

theorem exists_word_of_kind (ha : h.kind a = .word) : ∃ w, h.body a = .word w := by
  revert ha
  unfold kind
  cases h.body a <;> simp [Body.kind]

theorem exists_list_of_kind (ha : h.kind a = .list) : ∃ l, h.body a = .list l := by
  revert ha
  unfold kind
  cases h.body a <;> simp [Body.kind]

theorem exists_array_of_kind (ha : h.kind a = .array) :
    ∃ origin slots, h.body a = .array origin slots := by
  revert ha
  unfold kind
  cases h.body a <;> simp [Body.kind]

theorem parts_of_error {code : ℤ} {text tag : Addr} (ha : h.body a = .error code text tag) :
    h.parts a = [text] := by
  rw [parts, ha]

theorem parts_of_sequence (ha : h.IsSequence a) : h.parts a = (h.elements a).found := by
  unfold IsSequence kind at ha
  unfold parts
  revert ha
  cases h.body a <;> simp [Body.kind]

/-- A value is written within another one, or is that one. -/
def Within (h : Heap) : Addr → Addr → Prop := Relation.ReflTransGen fun a b => b ∈ h.parts a

theorem Within.part (hb : b ∈ h.parts a) (hc : h.Within b c) : h.Within a c := .head hb hc

/-- What is within a value is among some values that the parts do not leave. -/
theorem Within.mem {S : List Addr} (hS : ∀ a ∈ S, ∀ b ∈ h.parts a, b ∈ S) (ha : a ∈ S)
    (hc : h.Within a c) : c ∈ S := by
  induction hc with
  | refl => exact ha
  | tail _ hpart ih => exact hS _ ih _ hpart

/-- A value is the name or a child of a syntax node. -/
def SyntaxPart (h : Heap) (a b : Addr) : Prop := h.kind a = .node ∧ b ∈ h.parts a

/-- Within a value the chains are made of cells, no error is within its own text, and no syntax node
is a part of itself by way of syntax nodes alone. -/
structure Legible (h : Heap) (x : Addr) : Prop where
  /-- The chains of lists are made of cells. -/
  linked : ∀ a l, h.Within x a → h.body a = .list l → h.Linked l.head
  /-- No error is within its own text. -/
  error : ∀ a code text tag, h.Within x a → h.body a = .error code text tag → ¬h.Within text a
  /-- No syntax node is a part of itself by way of syntax nodes. -/
  node : ∀ a, h.Within x a → ¬Relation.TransGen h.SyntaxPart a a

/-- The parts of a legible value are legible. -/
theorem Legible.part (ha : h.Legible a) (hb : b ∈ h.parts a) : h.Legible b where
  linked c l hc := ha.linked c l (.part hb hc)
  error c code text tag hc := ha.error c code text tag (.part hb hc)
  node c hc := ha.node c (.part hb hc)

/-- No fault is met among the elements of a legible value. -/
theorem Legible.fault? (ha : h.Legible a) : (h.elements a).fault? = none :=
  fault?_elements fun l hl => ha.linked a l .refl hl

/-- A value is legible if it is among some values that the parts do not leave, the text of each
error is among some more that do not include the error, and syntax nodes are younger than their
parts. -/
theorem legible_of_closed {S : List Addr} (T : Addr → List Addr)
    (hlists : ∀ x l, h.body x = .list l → h.Linked l.head)
    (hS : ∀ a ∈ S, ∀ b ∈ h.parts a, b ∈ S)
    (hT : ∀ a ∈ S, ∀ e ∈ (h.body a).error?,
      e.2.1 ∈ T a ∧ a ∉ T a ∧ ∀ b ∈ T a, ∀ c ∈ h.parts b, c ∈ T a)
    (hnodes : ∀ a ∈ S, h.kind a = .node → ∀ b ∈ h.parts a, b < a) (hx : x ∈ S) : h.Legible x where
  linked a l _ hl := hlists a l hl
  error a code text tag ha hbody hself := by
    obtain ⟨htext, hnot, hclosed⟩ := hT a (ha.mem hS hx) (code, text, tag) (by rw [hbody]; rfl)
    exact hnot (hself.mem hclosed htext)
  node a ha hself := by
    -- the way from a node back to itself would lead to ever smaller addresses
    have hless : ∀ {b c}, Relation.TransGen h.SyntaxPart b c → b ∈ S → c < b ∧ c ∈ S := by
      intro b c hbc hb
      induction hbc with
      | single hstep => exact ⟨hnodes b hb hstep.1 _ hstep.2, hS b hb _ hstep.2⟩
      | tail _ hstep ih =>
        obtain ⟨hlt, hmem⟩ := ih
        exact ⟨(hnodes _ hmem hstep.1 _ hstep.2).trans hlt, hS _ hmem _ hstep.2⟩
    exact absurd (hless hself (ha.mem hS hx)).1 (Nat.lt_irrefl a)

/-- A value with parts is live. -/
theorem live_of_kind_ne (ha : h.kind a ≠ .nothing) : h.Live a :=
  live_of_body rfl fun hbody => ha (by rw [kind, hbody, Body.kind])

theorem IsSequence.live (ha : h.IsSequence a) : h.Live a := by
  refine live_of_kind_ne fun hkind => ?_
  rcases ha with ha | ha <;> rw [ha] at hkind <;> cases hkind

/-- A sequence has as many elements as it reports, if a list keeps the length of its chain. -/
theorem IsSequence.extent_eq (ha : h.IsSequence a)
    (hsize : ∀ l, h.body a = .list l → ∃ cs, h.Chain l.head cs ∧ l.size = cs.length) :
    h.extent a = (h.elements a).found.length := by
  unfold IsSequence kind at ha
  cases hbody : h.body a with
  | list l =>
    obtain ⟨cs, hcs, hlength⟩ := hsize l hbody
    simp [extent, elements, hbody, cells, hcs.chain_eq, hlength]
  | array origin slots => simp [extent, elements, hbody]
  | _ => simp [hbody, Body.kind] at ha

/-! ### Sorts of values -/

/-- A value has no other written form than the name of its kind. -/
def IsPlain (h : Heap) (a : Addr) : Prop :=
  h.kind a = .nothing ∨ h.kind a = .cell ∨ h.kind a = .procedure

theorem IsPlain.kind_ne (ha : h.IsPlain a) : ¬h.IsSequence a ∧ h.kind a ≠ .word := by
  unfold IsSequence
  rcases ha with ha | ha | ha <;> simp [ha]

/-- The sorts of values that are written in different ways. -/
inductive Form (h : Heap) (a : Addr) : Prop
  /-- A word is written as it is treated. -/
  | word {w : Word} : h.body a = .word w → Form h a
  /-- A list or an array is written by its elements. -/
  | sequence : h.IsSequence a → Form h a
  /-- A syntax node is written by its name and its children. -/
  | node {name : Addr} {children : List Addr} : h.body a = .node name children → Form h a
  /-- An error is written by its text. -/
  | error {code : ℤ} {text tag : Addr} : h.body a = .error code text tag → Form h a
  /-- Other values are written by the name of their kind. -/
  | plain : h.IsPlain a → Form h a

theorem form (h : Heap) (a : Addr) : h.Form a := by
  cases ha : h.body a with
  | word w => exact .word ha
  | list l => exact .sequence (by simp [IsSequence, kind, ha, Body.kind])
  | array origin slots => exact .sequence (by simp [IsSequence, kind, ha, Body.kind])
  | node name children => exact .node ha
  | error code text tag => exact .error ha
  | nothing | cell item next | procedure p =>
    exact .plain (by simp [IsPlain, kind, ha, Body.kind])

/-! ### Counting -/

open Classical in
/-- The number of places in the heap with a property. -/
noncomputable def places (h : Heap) (p : Addr → Prop) : ℕ :=
  ((Finset.range h.blocks.size).filter p).card

section Places

variable {p q r : Addr → Prop}

theorem places_mono (hpq : ∀ c, p c → q c) : h.places p ≤ h.places q := by
  classical
  exact Finset.card_le_card (Finset.monotone_filter_right _ fun c _ => hpq c)

/-- One place makes a difference. -/
theorem places_lt (hpq : ∀ c, p c → q c) (ha : h.Live a) (hq : q a) (hp : ¬p a) :
    h.places p < h.places q := by
  classical
  refine Finset.card_lt_card ((Finset.ssubset_iff_of_subset ?_).mpr ⟨a, ?_, ?_⟩)
  · exact Finset.monotone_filter_right _ fun c _ => hpq c
  · exact Finset.mem_filter.mpr ⟨Finset.mem_range.mpr ha.lt_size, hq⟩
  · exact fun hmem => hp (Finset.mem_filter.mp hmem).2

/-- Places of two sorts are no more than there are. -/
theorem places_add_le (hpq : ∀ c, p c → ¬q c) (hp : ∀ c, p c → r c) (hq : ∀ c, q c → r c) :
    h.places p + h.places q ≤ h.places r := by
  classical
  unfold places
  rw [← Finset.card_union_of_disjoint]
  · refine Finset.card_le_card (Finset.union_subset ?_ ?_)
    · exact Finset.monotone_filter_right _ fun c _ => hp c
    · exact Finset.monotone_filter_right _ fun c _ => hq c
  · exact Finset.disjoint_filter.mpr fun c _ => hpq c

theorem places_le_size (h : Heap) (p : Addr → Prop) : h.places p ≤ h.blocks.size := by
  classical
  exact (Finset.card_filter_le _ _).trans_eq (Finset.card_range _)

end Places

/-- The number of syntax nodes. -/
noncomputable def nodeCount (h : Heap) : ℕ := h.places (h.kind · = .node)

/-- The number of errors within a value. -/
noncomputable def errorsWithin (h : Heap) (a : Addr) : ℕ :=
  h.places fun e => h.kind e = .error ∧ h.Within a e

/-- The number of sequences that are not being written. -/
noncomputable def unopened (h : Heap) (writing : List Addr) : ℕ :=
  h.places fun c => h.IsSequence c ∧ c ∉ writing

/-- The number of syntax nodes that a value leads to by way of syntax nodes, itself included. -/
noncomputable def nodesBelow (h : Heap) (a : Addr) : ℕ :=
  h.places fun c => h.kind c = .node ∧ Relation.ReflTransGen h.SyntaxPart a c

theorem errorsWithin_le (hb : b ∈ h.parts a) : h.errorsWithin b ≤ h.errorsWithin a :=
  places_mono fun _ hc => ⟨hc.1, .part hb hc.2⟩

/-- An error is not within its own text. -/
theorem Legible.errorsWithin_lt (ha : h.Legible a) {code : ℤ} {text tag : Addr}
    (hbody : h.body a = .error code text tag) : h.errorsWithin text < h.errorsWithin a := by
  have hkind := kind_of_error hbody
  have htext : text ∈ h.parts a := by simp [parts_of_error hbody]
  refine places_lt (fun _ hc => ⟨hc.1, .part htext hc.2⟩) ?_ ⟨hkind, .refl⟩ ?_
  · exact live_of_kind_ne (by simp [hkind])
  · exact fun hin => ha.error a code text tag .refl hbody hin.2

theorem unopened_cons_lt (ha : h.IsSequence a) (hnew : a ∉ writing) :
    h.unopened (a :: writing) < h.unopened writing := by
  refine places_lt ?_ ha.live ⟨ha, hnew⟩ (by simp)
  exact fun c hc => ⟨hc.1, fun hmem => hc.2 (List.mem_cons_of_mem a hmem)⟩

theorem nodesBelow_le (h : Heap) (a : Addr) : h.nodesBelow a ≤ h.nodeCount :=
  places_mono fun _ => And.left

/-- A syntax node is not below its parts. -/
theorem Legible.nodesBelow_lt (ha : h.Legible a) (hkind : h.kind a = .node) (hb : b ∈ h.parts a) :
    h.nodesBelow b < h.nodesBelow a := by
  refine places_lt (fun _ hc => ⟨hc.1, .head ⟨hkind, hb⟩ hc.2⟩) ?_ ⟨hkind, .refl⟩ ?_
  · exact live_of_kind_ne (by simp [hkind])
  · exact fun hin => ha.node a .refl (Relation.TransGen.head'_iff.mpr ⟨b, ⟨hkind, hb⟩, hin.2⟩)

/-- Errors and sequences that are not being written, together with the syntax nodes, are no more
than the places of the heap. -/
theorem errors_add_unopened_add_nodes_le (h : Heap) (writing : List Addr) (x : Addr) :
    h.errorsWithin x + h.unopened writing + h.nodeCount ≤ h.blocks.size := by
  have hothers : h.errorsWithin x + h.unopened writing ≤ h.places (h.kind · ≠ .node) := by
    refine places_add_le ?_ ?_ ?_
    · rintro c ⟨hc, -⟩ ⟨hseq | hseq, -⟩ <;> rw [hc] at hseq <;> cases hseq
    · rintro c ⟨hc, -⟩
      simp [hc]
    · rintro c ⟨hc | hc, -⟩ <;> simp [hc]
  have hall : h.places (h.kind · ≠ .node) + h.nodeCount ≤ h.places fun _ => True :=
    places_add_le (fun _ => id) (fun _ _ => trivial) fun _ _ => trivial
  have hsize := h.places_le_size fun _ => True
  omega

/-! ### Enough levels -/

/-- How often a rendering can still come to an error or a sequence: twice for each error, since its
text may be a sequence that is not recorded, and once for each sequence that is not being written.
A sequence in bare style is entered without being recorded. -/
noncomputable def entries (h : Heap) (writing : List Addr) (style : Style) (a : Addr) : ℕ :=
  2 * h.errorsWithin a + (if style = .bare then 1 else 0) + h.unopened writing

/-- **Enough levels are left** to write a legible value: between two entries lie at most all syntax
nodes. -/
structure Room (h : Heap) (n : ℕ) (writing : List Addr) (style : Style) (a : Addr) : Prop where
  /-- The value is legible. -/
  legible : h.Legible a
  /-- There are more levels than a rendering can take. -/
  levels : h.entries writing style a * (h.nodeCount + 1) + h.nodesBelow a < n

theorem not_room_zero : ¬h.Room 0 writing style a := fun hroom => absurd hroom.levels (by simp)

/-- The levels of a rendering are enough at its start. -/
theorem room_start (hx : h.Legible x) (writing : List Addr) (style : Style) :
    h.Room ((h.blocks.size + 2) * (h.blocks.size + 2)) writing style x where
  legible := hx
  levels := by
    have htotal := h.errors_add_unopened_add_nodes_le writing x
    have hbelow := h.nodesBelow_le x
    have hallow : (if style = .bare then 1 else 0) ≤ 1 := by split <;> omega
    unfold entries
    generalize (if style = .bare then 1 else 0) = allowance at *
    nlinarith

/-- One entry less pays for all syntax nodes on the way to the next one. -/
private theorem levels_of_entries_lt {p q m v w n : ℕ} (hlevels : p * (m + 1) + v < n + 1)
    (hqp : q < p) (hw : w ≤ m) : q * (m + 1) + w < n := by
  have hmul : (q + 1) * (m + 1) ≤ p * (m + 1) := Nat.mul_le_mul_right _ hqp
  have hexpand : (q + 1) * (m + 1) = q * (m + 1) + (m + 1) := Nat.succ_mul q (m + 1)
  omega

/-- A sequence that is recorded may then be entered as if in bare style. -/
theorem Room.record (hroom : h.Room n writing .delimited a) (ha : h.IsSequence a)
    (hnew : a ∉ writing) : h.Room n (a :: writing) .bare a where
  legible := hroom.legible
  levels := by
    have hless := unopened_cons_lt ha hnew
    have hle : h.entries (a :: writing) .bare a ≤ h.entries writing .delimited a := by
      simp only [entries, reduceCtorEq, if_true, if_false]
      omega
    have hmul := Nat.mul_le_mul_right (h.nodeCount + 1) hle
    have hlevels := hroom.levels
    omega

theorem Room.element (hroom : h.Room (n + 1) writing .bare a) (ha : h.IsSequence a)
    (hb : b ∈ (h.elements a).found) : h.Room n writing .delimited b := by
  rw [← parts_of_sequence ha] at hb
  refine ⟨hroom.legible.part hb, levels_of_entries_lt hroom.levels ?_ (h.nodesBelow_le b)⟩
  have herrors := errorsWithin_le hb
  simp only [entries, reduceCtorEq, if_true, if_false]
  omega

theorem Room.part (hroom : h.Room (n + 1) writing style a) (hkind : h.kind a = .node)
    (hb : b ∈ h.parts a) : h.Room n writing .delimited b where
  legible := hroom.legible.part hb
  levels := by
    have hle : h.entries writing .delimited b ≤ h.entries writing style a := by
      have herrors := errorsWithin_le hb
      simp only [entries, reduceCtorEq, if_false]
      omega
    have hmul := Nat.mul_le_mul_right (h.nodeCount + 1) hle
    have hbelow := hroom.legible.nodesBelow_lt hkind hb
    have hlevels := hroom.levels
    omega

theorem Room.text (hroom : h.Room (n + 1) writing style a) {code : ℤ} {text tag : Addr}
    (hbody : h.body a = .error code text tag) : h.Room n writing .bare text := by
  refine ⟨hroom.legible.part (by simp [parts_of_error hbody]),
    levels_of_entries_lt hroom.levels ?_ (h.nodesBelow_le text)⟩
  have herrors := hroom.legible.errorsWithin_lt hbody
  simp only [entries, if_true]
  omega

/-- **Induction along a rendering** with enough levels: from the parts of a value to the value, where
a sequence in delimited style is either being written already, or recorded and then written as in
bare style. -/
@[elab_as_elim]
theorem Room.induction {motive : ∀ n writing style a, h.Room n writing style a → Prop}
    (word : ∀ {n writing style a w} (hroom : h.Room (n + 1) writing style a),
      h.body a = .word w → motive _ _ _ _ hroom)
    (bare : ∀ {n writing a} (hroom : h.Room (n + 1) writing .bare a) (ha : h.IsSequence a),
      (∀ e (he : e ∈ (h.elements a).found), motive _ _ _ _ (hroom.element ha he)) →
      motive _ _ _ _ hroom)
    (again : ∀ {n writing a} (hroom : h.Room (n + 1) writing .delimited a), h.IsSequence a →
      a ∈ writing → motive _ _ _ _ hroom)
    (first : ∀ {n writing a} (hroom : h.Room (n + 1) writing .delimited a) (ha : h.IsSequence a)
      (hnew : a ∉ writing), motive _ _ _ _ (hroom.record ha hnew) → motive _ _ _ _ hroom)
    (node : ∀ {n writing style a name children} (hroom : h.Room (n + 1) writing style a)
      (ha : h.body a = .node name children),
      (∀ e (he : e ∈ h.parts a), motive _ _ _ _ (hroom.part (kind_of_node ha) he)) →
      motive _ _ _ _ hroom)
    (error : ∀ {n writing style a code text tag} (hroom : h.Room (n + 1) writing style a)
      (ha : h.body a = .error code text tag), motive _ _ _ _ (hroom.text ha) →
      motive _ _ _ _ hroom)
    (plain : ∀ {n writing style a} (hroom : h.Room (n + 1) writing style a), h.IsPlain a →
      motive _ _ _ _ hroom)
    {n : ℕ} {writing : List Addr} {style : Style} {a : Addr} (hroom : h.Room n writing style a) :
    motive n writing style a hroom := by
  induction n generalizing writing style a with
  | zero => exact absurd hroom not_room_zero
  | succ n ih =>
    -- a sequence recorded just now is written bare next, with no level used up in between
    have hbare : ∀ {writing a} (hroom : h.Room (n + 1) writing .bare a), h.IsSequence a →
        motive _ _ _ _ hroom := fun hroom ha =>
      bare hroom ha fun e he => ih (hroom.element ha he)
    cases h.form a with
    | word ha => exact word hroom ha
    | sequence ha =>
      cases style with
      | bare => exact hbare hroom ha
      | delimited =>
        by_cases hmem : a ∈ writing
        · exact again hroom ha hmem
        · exact first hroom ha hmem (hbare (hroom.record ha hmem) ha)
    | node ha => exact node hroom ha fun e he => ih (hroom.part (kind_of_node ha) he)
    | error ha => exact error hroom ha (ih (hroom.text ha))
    | plain ha => exact plain hroom ha

end Heap

end SharedValues
