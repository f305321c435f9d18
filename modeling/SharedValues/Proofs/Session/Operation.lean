import SharedValues.Proofs.Sequence
import SharedValues.Session.Run

/-!
# What the commands do to the heap

The operations behind the commands of a session, and the acts that each of them needs.  Questions
and comparisons leave the heap alone, save that a size may be counted anew.

## Main definitions

* `Source.acts`, `Change.acts`, `Adjustment.acts`, `Question.acts` — the acts of an operation.
* `Command.acts` — the acts of a command.

## Main results

* `Kept.source_make`, `Kept.derivation_run`, `Kept.combination_run` — new values.
* `Kept.change_run` — changes in place.
* `Question.reads`, `Comparison.reads` — questions.
-/

namespace SharedValues

open Heap Operation

/-! ### Acts -/

/-- The acts that a source needs. -/
def Source.acts : Source → Set Act
  | .selfContaining _ => {.header, .extend}
  | .circular _ => {.extend}
  | _ => ∅

/-- The acts that a change needs. -/
def Change.acts : Change → Set Act
  | .setItem .. => {.fill, .item, .header}
  | .setFirst _ => {.fill, .item, .header}
  | .setButFirst _ => {.fill, .tail}
  | .append _ => {.fill, .header, .extend}
  | .prepend => {.header}
  | .addChild => {.fill}
  | .setCellItem => {.item}
  | .setCellNext => {.link}

/-- The acts that an adjustment needs. -/
def Adjustment.acts : Adjustment → Set Act
  | .clear => {.header}
  | .freeze => ∅
  | .decode .. => ∅
  | .setParsed .. => {.parse}

/-- The acts that a question needs. -/
def Question.acts : Question → Set Act
  | .recount => {.recount}
  | _ => ∅

/-- The acts that a command needs. -/
def Command.acts : Command → Set Act
  | .build s _ => s.acts
  | .change _ c _ _ => c.acts
  | .adjust _ a _ => a.acts
  | .ask _ q => q.acts
  | _ => ∅

namespace Heap

variable {h : Heap} {x : Addr}

theorem body_of_node {name : Addr} {children : List Addr} (hr : h.node x = .ok (name, children)) :
    h.body x = .node name children := by
  have hs := expect_eq_ok hr
  revert hs
  cases h.body x <;> simp [Body.node?]

theorem body_of_error {code : ℤ} {text tag : Addr} (hr : h.error x = .ok (code, text, tag)) :
    h.body x = .error code text tag := by
  have hs := expect_eq_ok hr
  revert hs
  cases h.body x <;> simp [Body.error?]

end Heap

/-! ### Questions -/

namespace Operation

theorem Reads.call {α : Type} {op : Operation α} (hop : Reads op) (m : Mode) :
    Reads (m.call op) := by
  cases m
  · exact hop
  · exact hop.promised
  · exact hop.promised

theorem Yields.call {F : Multiset Addr → Heap → Prop} {held : Multiset Addr} {s : Store}
    {op : Operation Addr} (hop : Yields F held op s) (m : Mode) : Yields F held (m.call op) s := by
  cases m
  · exact hop
  · exact hop.promised
  · exact hop.promised

theorem Keeps.call {F : Multiset Addr → Heap → Prop} {held : Multiset Addr} {s : Store} {α : Type}
    {op : Operation α} (hop : Keeps F held op s) (m : Mode) : Keeps F held (m.call op) s := by
  cases m
  · exact hop
  · exact hop.promised
  · exact hop.promised

/-- Reading something, with an answer made of what was read. -/
theorem Reads.answer {α β : Type} {op : Operation α} (hop : Reads op) (f : α → β) :
    Reads (op >>= fun a => pure (f a)) :=
  hop.bind fun _ => reads_pure _

end Operation

theorem Question.reads_shownAll (as : List Addr) : Reads (Question.shownAll as) := by
  refine Reads.answer (?_ : Reads (as.mapM _)) _
  induction as with
  | nil => exact reads_pure _
  | cons a as ih =>
    rw [List.mapM_cons]
    exact (reads_ask _).bind fun _ => ih.bind fun _ => reads_pure _

/-- **Questions leave the heap alone**, unless a size is counted anew. -/
theorem Question.reads (x : Addr) {q : Question} (hq : q ≠ .recount) :
    Reads (Question.run x q) := by
  cases q
  case recount => exact absurd rfl hq
  case kind | kinds | isKind | count | isDestroyable | isMutable =>
    exact (reads_look _).answer _
  case isEmpty | shown | inspected | render => exact (reads_ask _).answer _
  case size | inRange => exact ((reads_ask _).call _).answer _
  case outline => exact fun _ => rfl
  case stamp | origin | childCount | errorCode | payload | isSpecial =>
    exact (reads_assert _).answer _
  case parsed | slots | children => exact (reads_assert _).bind fun _ => reads_shownAll _
  case payloadNumber | label => exact (reads_assert _).bind fun _ => reads_pure _
  case renderWord | raw | number | freshness =>
    exact (reads_assert _).bind fun _ => (reads_ask _).answer _
  case printable | key | isNumber | number? =>
    exact (reads_assert _).bind fun _ => (reads_ask _).bind fun _ => reads_pure _

/-- Comparisons leave the heap alone. -/
theorem Comparison.reads (x y : Addr) (c : Comparison) : Reads (Comparison.run x y c) := by
  cases c
  case same => exact reads_pure _
  case equal => exact reads_ask _
  case wordEqual => exact (reads_assert _).bind fun _ => (reads_assert _).bind fun _ => reads_ask _
  case wordContains =>
    exact (reads_assert _).bind fun _ => (reads_assert _).bind fun _ => (reads_ask _).answer _
  case contains | isMember => exact (reads_ask _).call _
  case samePayload => exact (reads_assert _).bind fun _ => (reads_assert _).answer _

/-! ### New values -/

/-- The first cell of a fresh list is held by the list alone. -/
theorem Heap.count_head_listOf {h : Heap} {held : Multiset Addr} {items : List Addr}
    {l : ListHeader} (hh : h.Exact (held + (items : Multiset Addr)))
    (hl : (h.listOf items).2.body (h.listOf items).1 = .list l)
    (hkind : (h.listOf items).2.kind l.head = .cell) : (h.listOf items).2.count l.head = 1 := by
  rw [listOf_eq] at hl hkind ⊢
  obtain rfl : _ = l := Body.list.inj (((body_alloc ..).trans (if_pos rfl)).symm.trans hl)
  have hlive := (kept_exact.chainOf hh).live_of_held (a := (h.chainOf items).1) (by simp)
  cases items with
  | nil =>
    rw [Heap.kind, body_alloc, if_neg hlive.ne_size] at hkind
    exact absurd (hkind.symm.trans hh.kind_nothing) (by decide)
  | cons item items =>
    rw [count, block?_alloc, if_neg hlive.ne_size, chainOf_cons, block?_alloc]
    exact congrArg (fun b : Option Block => b.elim 0 Block.count) (if_pos rfl)

namespace Kept

variable {A : Set Act} {F : Multiset Addr → Heap → Prop} {held : Multiset Addr} {s : Store}
  {x y : Addr}

/-- Making something that comes with a handle. -/
theorem make_yields {f : Heap → Addr × Heap} (hf : F (held + {(f s.heap).1}) (f s.heap).2) :
    Yields F held (.make f) s :=
  ensures_make.mpr hf

theorem source_make (hF : Kept A F) (hh : F held s.heap) (source : Source)
    (hA : source.acts ⊆ A) : Yields F held source.make s := by
  cases source with
  | emptyList => exact make_yields (f := (·.listOf [])) (hF.listOf [] (by simpa using hh))
  | emptyArray origin size =>
    exact make_yields (f := (·.emptyArray origin size)) (hF.emptyArray hh origin size)
  | words raws => exact make_yields (f := (·.words raws)) (hF.words hh raws)
  | numbers values => exact make_yields (f := (·.numbers values)) (hF.numbers hh values)
  | wordArray origin raws =>
    exact make_yields (f := (·.wordArray origin raws)) (hF.wordArray hh origin raws)
  | nested raw depth => exact make_yields (f := (·.nested raw depth)) (hF.nested hh raw depth)
  -- the list is appended to itself while its handle is kept
  | selfContaining raws =>
    have hwords := hF.words hh raws
    have hheld : (s.heap.words raws).1 ∈ held + {(s.heap.words raws).1} := by simp
    refine ensures_bind.mpr (ensures_make.mpr (ensures_bind.mpr (ensures_keeping.mpr ?_)))
    refine ensures_bind.mpr (ensures_assert ?_ fun _ _ => hF.release hwords)
    intro l hl
    have happend := hF.list_append (s := ⟨(s.heap.words raws).2, s.settled⟩)
      (hA (by simp [Source.acts])) (hA (by simp [Source.acts])) hwords (body_of_list hl) hheld
      (hF.live hwords hheld)
    exact happend.promised.mono (fun _ _ ht => ensures_pure.mpr ht) fun _ _ ht => hF.release ht
  -- nobody else has a handle to the first cell of a new list
  | circular raws =>
    have hwords := hF.words hh raws
    have hheld : (s.heap.words raws).1 ∈ held + {(s.heap.words raws).1} := by simp
    refine ensures_bind.mpr (ensures_make.mpr (ensures_bind.mpr (ensures_keeping.mpr ?_)))
    refine ensures_bind.mpr (ensures_assert ?_ fun _ _ => hF.release hwords)
    intro l hl
    have hset := hF.list_setButFirst (s := ⟨(s.heap.words raws).2, s.settled⟩)
      (x := (s.heap.words raws).1)
      (hA (by simp [Source.acts])) hwords (body_of_list hl) hheld
      (Or.inr ⟨rfl, rfl, count_head_listOf (hF.exact (hF.texts hh raws)) (body_of_list hl)⟩)
    exact hset.promised.mono (fun _ _ ht => ensures_pure.mpr ht) fun _ _ ht => hF.release ht
  | shape sh size =>
    cases sh with
    | flat => exact make_yields (f := (·.numbers (Source.counting size))) (hF.numbers hh _)
    | nested => exact make_yields (f := (·.nested "leaf" size)) (hF.nested hh _ size)
    | array =>
      exact make_yields (f := (·.numberArray 1 (Source.counting size))) (hF.numberArray hh 1 _)
  | usage =>
    have husage : F held s.heap.usage.2 := hF.move hF.hold .usage hh
    exact make_yields (f := fun h => h.usage.2.numbers [.ofNat h.live, .ofNat h.peak])
      (hF.numbers husage _)

theorem piece_take (hF : Kept A F) (hh : F held s.heap) (p : Piece) :
    Yields F held (p.take x) s := by
  cases p with
  | item index => exact hF.sequence_item hh index
  | first => exact hF.sequence_first hh
  | last => exact hF.sequence_last hh
  | butFirst => exact hF.sequence_butFirst hh
  | butLast => exact hF.sequence_butLast hh

/-- An operation with a value, as one that may have a value. -/
theorem some_yields {op : Operation Addr} (hop : Yields F held op s) :
    Ensures (some <$> op) s (fun r t => F (held + (r.toList : Multiset Addr)) t.heap)
      fun _ t => F held t.heap :=
  ensures_map.mpr hop

/-- A handle to one of some values. -/
theorem share_get? (hF : Kept A F) (hh : F held s.heap) {as : List Addr}
    (hlive : ∀ a ∈ as, s.heap.Live a) (n : ℕ) :
    Ensures (as[n]?.mapM Operation.share) s
      (fun r t => F (held + (r.toList : Multiset Addr)) t.heap) fun _ t => F held t.heap := by
  cases hn : as[n]? with
  | none => exact ensures_pure.mpr (by simpa using hh)
  | some a => exact some_yields (hF.share hh (hlive a (List.mem_of_getElem? hn)))

theorem derivation_run (hF : Kept A F) (hh : F held s.heap) (hheld : x ∈ held) (d : Derivation) :
    Ensures (d.run x) s (fun r t => F (held + (r.toList : Multiset Addr)) t.heap)
      fun _ t => F held t.heap := by
  have hstored : ∀ {body : Body} {a : Addr}, s.heap.body x = body → a ∈ body.handles →
      s.heap.Live a := fun hx ha => (hF.exact hh).live_of_mem hx ha
  -- what is derived is made anew, or lives because it is stored in the value
  cases d with
  | same => exact some_yields (hF.share hh (hF.live hh hheld))
  | piece p mode =>
    refine ensures_bind.mpr (ensures_look.mpr ?_)
    exact some_yields ((hF.piece_take hh p).call _)
  | head =>
    refine ensures_bind.mpr (ensures_assert ?_ fun _ _ => hh)
    intro l hl
    exact some_yields (hF.share hh (hF.live_head hh (body_of_list hl)))
  | shared =>
    refine ensures_bind.mpr (ensures_assert ?_ fun _ _ => hh)
    intro l hl
    exact some_yields (hF.list_shared hh (body_of_list hl))
  | listOfSlots =>
    refine ensures_bind.mpr (ensures_assert ?_ fun _ _ => hh)
    intro r hr
    exact some_yields (hF.list_ofSlots hh fun _ ha => hstored (Row.body_of_at? hr) ha)
  | arrayOfElements origin =>
    refine ensures_bind.mpr (ensures_assert (fun _ _ => ?_) fun _ _ => hh)
    exact some_yields (hF.row_ofElements hh origin)
  | part start stop =>
    refine ensures_bind.mpr (ensures_assert ?_ fun _ _ => hh)
    intro r hr
    exact some_yields (hF.row_part hh (Row.body_of_at? hr) start stop)
  | slot n =>
    refine ensures_bind.mpr (ensures_assert ?_ fun _ _ => hh)
    intro r hr
    exact hF.share_get? hh (fun _ ha => hstored (Row.body_of_at? hr) ha) n
  | nodeName =>
    refine ensures_bind.mpr (ensures_assert ?_ fun _ _ => hh)
    rintro ⟨name, children⟩ hn
    exact some_yields (hF.share hh (hstored (body_of_node hn) (by simp [Body.handles])))
  | child n =>
    refine ensures_bind.mpr (ensures_assert ?_ fun _ _ => hh)
    rintro ⟨name, children⟩ hn
    exact hF.share_get? hh
      (fun _ ha => hstored (body_of_node hn) (List.mem_cons_of_mem name ha)) n
  | errorText =>
    refine ensures_bind.mpr (ensures_assert ?_ fun _ _ => hh)
    rintro ⟨code, text, tag⟩ he
    exact some_yields (hF.share hh (hstored (body_of_error he) (by simp [Body.handles])))
  | errorTag =>
    refine ensures_bind.mpr (ensures_assert ?_ fun _ _ => hh)
    rintro ⟨code, text, tag⟩ he
    exact some_yields (hF.share hh (hstored (body_of_error he) (by simp [Body.handles])))
  | cellItem =>
    refine ensures_bind.mpr (ensures_assert ?_ fun _ _ => hh)
    rintro ⟨item, next⟩ hc
    exact some_yields (hF.share hh (hstored (body_of_cell hc) (by simp [Body.handles])))
  | cellNext =>
    refine ensures_bind.mpr (ensures_assert ?_ fun _ _ => hh)
    rintro ⟨item, next⟩ hc
    exact some_yields (hF.share hh (hstored (body_of_cell hc) (by simp [Body.handles])))
  | procedureCopy =>
    refine ensures_bind.mpr (ensures_assert ?_ fun _ _ => hh)
    intro p _
    exact some_yields (ensures_make.mpr
      (hF.leaf hh rfl (by simp [Body.kind]) (by simp [Body.kind])))

theorem combination_run (hF : Kept A F) (hh : F held s.heap) (hy : y ∈ held) (c : Combination) :
    Yields F held (c.run x y) s := by
  cases c with
  | fromMember ignoreCase mode => exact (hF.sequence_fromMember hh ignoreCase).call mode
  | cons =>
    refine ensures_bind.mpr (ensures_assert ?_ fun _ _ => hh)
    intro l hl
    exact hF.list_cons hh (body_of_list hl) (hF.live hh hy)

/-- **A change in place** needs a list or an array that is held, and a value that is. -/
theorem change_run (hF : Kept A F) (hh : F held s.heap) (hx : x ∈ held) (hy : y ∈ held)
    (c : Change) (hA : c.acts ⊆ A) : Keeps F held (c.run x y) s := by
  have hlive := hF.live hh hy
  cases c with
  | setItem index mode =>
    exact (hF.sequence_setItem (hA (by simp [Change.acts])) (hA (by simp [Change.acts]))
      (hA (by simp [Change.acts])) hh hx hlive index).call mode
  | setFirst mode =>
    exact (hF.sequence_setFirst (hA (by simp [Change.acts])) (hA (by simp [Change.acts]))
      (hA (by simp [Change.acts])) hh hx hlive).call mode
  | setButFirst mode =>
    exact (hF.sequence_setButFirst (hA (by simp [Change.acts])) (hA (by simp [Change.acts]))
      hh hx).call mode
  -- an array or a list; nothing else has a place for the value
  | append mode =>
    refine ensures_bind.mpr (ensures_look.mpr ?_)
    split
    · next hbody => exact hF.row_append (hA (by simp [Change.acts])) hh hbody hlive
    · next hbody =>
      exact (hF.list_append (hA (by simp [Change.acts])) (hA (by simp [Change.acts])) hh hbody hx
        hlive).call mode
    · exact ensures_throw.mpr hh
  | prepend =>
    refine ensures_bind.mpr (ensures_assert ?_ fun _ _ => hh)
    intro l hl
    exact hF.list_prepend (hA (by simp [Change.acts])) hh (body_of_list hl) hlive
  | addChild =>
    refine ensures_bind.mpr (ensures_assert ?_ fun _ _ => hh)
    rintro ⟨name, children⟩ hn
    refine ensures_alter.mpr (hF.move (hA (by simp [Change.acts]))
      (.children ((body_retain ..).trans (body_of_node hn)) ?_) (hF.retain hh hlive))
    rw [← Multiset.coe_add, Multiset.coe_singleton]
    abel
  | setCellItem =>
    exact (hF.setCellItem (hA (by simp [Change.acts])) hh hlive).mono (fun _ _ ht => ht.1)
      fun _ _ => id
  | setCellNext => exact hF.setCellNext (hA (by simp [Change.acts])) hh hlive

/-- A cursor put on a value that is held owns a handle. -/
theorem opening_run (hF : Kept A F) (hh : F held s.heap) (hx : x ∈ held) (o : Opening) :
    Ensures (o.run x) s (fun c t => F (held + {c.handle}) t.heap) fun _ t => F held t.heap := by
  have hstart := hF.cursor_start hh hx
  cases o with
  | sequence mode =>
    cases mode with
    | checked => exact hstart
    | asserted => exact ensures_promised.mpr hstart
    | typed =>
      refine ensures_bind.mpr (ensures_assert ?_ fun _ _ => hh)
      intro l hl
      exact hF.cursor_share hh (hF.live_head hh (body_of_list hl)) fun _ => rfl
  | array => exact hF.cursor_share hh (hF.live hh hx) fun _ => rfl
  | word => exact hF.cursor_share hh (hF.live hh hx) fun _ => rfl

/-- A question keeps what it needs to keep, a size counted anew included. -/
theorem question_run (hF : Kept A F) (hh : F held s.heap) (q : Question) (hA : q.acts ⊆ A) :
    Keeps F held (q.run x) s := by
  by_cases hq : q = .recount
  · subst hq
    refine ensures_bind.mpr (ensures_assert ?_ fun _ _ => hh)
    intro l hl
    exact ensures_bind.mpr ((hF.list_recount (hA (by simp [Question.acts])) hh
      (body_of_list hl)).mono (fun _ _ ht => ensures_pure.mpr ht) fun _ _ => id)
  · exact (Question.reads x hq).keeps hh

end Kept

end SharedValues
