import SharedValues.Cursor
import SharedValues.Proofs.Query.Lockstep
import SharedValues.Proofs.Sequence.List

/-!
# Operations on sequences in lockstep

The operations on words, lists and arrays, and those of cursors, end alike on stores that differ
only in words that no reading tells apart.

## Main results

* `Concord.list_append`, `Concord.list_setButFirst`, … — operations on lists.
* `Concord.row_setItem`, … — operations on arrays.
* `Concord.sequence_item`, `Concord.sequence_setItem`, … — operations on all sequences.
* `Concord.cursor_next` — the step of a cursor.
-/

namespace SharedValues.Concord

open Heap (Steady body_of_word)

variable {R : Heap → Settled → Settled → Prop} {s t : Store} {α : Type} {x : Addr}

/-! ### Lists -/

section List

variable {l : ListHeader}

theorem list_item (hR : Concord R) (hs : Synced R s t) (index : ℤ) :
    Lockstep (Synced R) (l.item index) s t :=
  check hs fun _ _ => look hs (hR.share hs _)

theorem list_first (hR : Concord R) (hs : Synced R s t) : Lockstep (Synced R) l.first s t :=
  check hs fun _ _ => hR.share hs _

theorem list_last (hR : Concord R) (hs : Synced R s t) : Lockstep (Synced R) l.last s t :=
  check hs fun _ _ => assert hs fun _ _ => hR.share hs _

theorem list_butFirst (hR : Concord R) (hs : Synced R s t) :
    Lockstep (Synced R) l.butFirst s t :=
  check hs fun _ _ => hR.create hs _

theorem list_butLast (hR : Concord R) (hs : Synced R s t) :
    Lockstep (Synced R) l.butLast s t := by
  refine check hs fun _ _ => look hs ?_
  split
  · exact .throw hs _
  · refine look hs ((hR.alter hs (.retainAll _ _)).bind ?_)
    intro _ _ _ hs
    exact hR.make hs (.listOf _ _)

theorem list_fromMember (hR : Concord R) (hs : Synced R s t) (ignoreCase : Bool) (x : Addr)
    (value : Addr) : Lockstep (Synced R) (l.fromMember ignoreCase x value) s t := by
  apply (ask hs (hR.memberAt hs.settled ignoreCase x value)).bind
  intro r s t hs
  cases r with
  | none => exact hR.make hs (.listOf _ _)
  | some i => exact look hs (check hs fun _ _ => hR.create hs _)

theorem list_shared (hR : Concord R) (hs : Synced R s t) : Lockstep (Synced R) l.shared s t :=
  hR.create hs _

theorem list_cons (hR : Concord R) (hs : Synced R s t) (item : Addr) :
    Lockstep (Synced R) (l.cons item) s t :=
  (hR.create hs _).bind fun _ _ _ hs => hR.make hs (.alloc _ _ _)

theorem list_replace (hR : Concord R) (hs : Synced R s t) (x : Addr) (head : Addr) (size : ℕ) :
    Lockstep (Synced R) (l.replace x head size) s t :=
  hR.alter hs ((Steady.setBody _ _ (by simp)).trans (.releaseAll _ _))

theorem setCellItem (hR : Concord R) (hs : Synced R s t) (c value : Addr) :
    Lockstep (Synced R) (ListHeader.setCellItem c value) s t := by
  apply assert hs
  rintro ⟨item, next⟩ -
  refine hR.alter hs ((Steady.retain _ value).trans ?_)
  exact (Steady.setBody _ _ (by simp)).trans (.release _ _)

theorem setCellNext (hR : Concord R) (hs : Synced R s t) (c value : Addr) :
    Lockstep (Synced R) (ListHeader.setCellNext c value) s t := by
  apply assert hs
  rintro ⟨item, next⟩ -
  refine hR.alter hs ((Steady.retain _ value).trans ?_)
  exact (Steady.setBody _ _ (by simp)).trans (.release _ _)

theorem list_prepend (hR : Concord R) (hs : Synced R s t) (x item : Addr) :
    Lockstep (Synced R) (l.prepend x item) s t := by
  apply (hR.share hs item).bind
  intro item s t hs
  exact (hR.make hs (.alloc _ _ _)).bind fun _ _ _ hs => hR.list_replace hs x _ _

theorem list_append (hR : Concord R) (hs : Synced R s t) (x item : Addr) :
    Lockstep (Synced R) (l.append x item) s t := by
  apply (hR.share hs item).bind
  intro item s t hs
  apply (hR.make hs (.nothing _)).bind
  intro nothing s t hs
  refine (hR.make hs (.alloc _ _ _)).bind fun c s t hs => look hs ?_
  split
  · exact (hR.list_replace hs x c _).bind fun _ _ _ hs => hR.release hs _
  · apply (hR.keeping c (checked hs _)).bind
    intro last s t hs
    apply (hR.holding c (hR.setCellNext hs last c)).bind
    intro _ _ _ hs
    exact hR.list_replace hs x _ _

theorem list_setItem (hR : Concord R) (hs : Synced R s t) (x : Addr) (index : ℤ) (value : Addr) :
    Lockstep (Synced R) (l.setItem x index value) s t :=
  check hs fun c _ =>
    (hR.setCellItem hs c value).bind fun _ _ _ hs => hR.list_replace hs x _ _

theorem list_setFirst (hR : Concord R) (hs : Synced R s t) (x value : Addr) :
    Lockstep (Synced R) (l.setFirst x value) s t := by
  apply check hs
  rintro ⟨c, item, next⟩ -
  exact (hR.setCellItem hs c value).bind fun _ _ _ hs => hR.list_replace hs x _ _

theorem list_setButFirst (hR : Concord R) (hs : Synced R s t) (x value : Addr) :
    Lockstep (Synced R) (l.setButFirst x value) s t := by
  refine demand hs fun rest _ => check hs ?_
  rintro ⟨c, item, next⟩ -
  exact (hR.setCellNext hs c rest.head).bind fun _ _ _ hs => hR.list_replace hs x _ _

theorem list_clear (hR : Concord R) (hs : Synced R s t) (x : Addr) :
    Lockstep (Synced R) (l.clear x) s t := by
  apply (hR.make hs (.nothing _)).bind
  intro nothing s t hs
  exact (hR.list_replace hs x nothing 0).bind fun _ _ _ hs => hR.release hs _

theorem list_recount (hR : Concord R) (hs : Synced R s t) (x : Addr) :
    Lockstep (Synced R) (l.recount x) s t :=
  check hs fun size _ =>
    (hR.alter hs (.setBody _ _ (by simp))).result _

theorem list_setParsed (hR : Concord R) (hs : Synced R s t) (x : Addr) (stamp : ℕ)
    (parsed : List Addr) : Lockstep (Synced R) (l.setParsed x stamp parsed) s t := by
  refine hR.alter hs ((Steady.retainAll _ parsed).trans ?_)
  exact (Steady.setBody _ _ (by simp)).trans (.releaseAll _ _)

theorem list_ofSlots (hR : Concord R) (hs : Synced R s t) (slots : List Addr) :
    Lockstep (Synced R) (ListHeader.ofSlots slots) s t :=
  (hR.alter hs (.retainAll _ slots)).bind fun _ _ _ hs => hR.make hs (.listOf _ slots)

end List

/-! ### Arrays -/

section Array

variable {r : Row}

theorem row_item (hR : Concord R) (hs : Synced R s t) (index : ℤ) :
    Lockstep (Synced R) (r.item index) s t :=
  check hs fun _ _ => hR.share hs _

theorem row_first (hR : Concord R) (hs : Synced R s t) : Lockstep (Synced R) r.first s t :=
  hR.make hs (.alloc _ _ _)

theorem row_last (hR : Concord R) (hs : Synced R s t) : Lockstep (Synced R) r.last s t :=
  check hs fun _ _ => hR.share hs _

theorem row_part (hR : Concord R) (hs : Synced R s t) (start stop : ℕ) :
    Lockstep (Synced R) (r.part start stop) s t := by
  unfold Row.part
  split
  · exact hR.create hs _
  · exact .throw hs _

theorem row_butFirst (hR : Concord R) (hs : Synced R s t) :
    Lockstep (Synced R) r.butFirst s t :=
  check hs fun _ _ => hR.row_part hs 1 _

theorem row_butLast (hR : Concord R) (hs : Synced R s t) : Lockstep (Synced R) r.butLast s t :=
  check hs fun _ _ => hR.row_part hs 0 _

theorem row_fromMember (hR : Concord R) (hs : Synced R s t) (ignoreCase : Bool) (x : Addr)
    (value : Addr) : Lockstep (Synced R) (Row.fromMember ignoreCase x r value) s t :=
  (ask hs (hR.memberAt hs.settled ignoreCase x value)).bind fun _ _ _ hs => hR.create hs _

theorem row_setSlot (hR : Concord R) (hs : Synced R s t) (x : Addr) (slot : ℕ)
    (value old : Addr) : Lockstep (Synced R) (r.setSlot x slot value old) s t := by
  refine hR.alter hs ((Steady.retain _ value).trans ?_)
  exact (Steady.setBody _ _ (by simp [Row.body])).trans (.release _ _)

theorem row_setItem (hR : Concord R) (hs : Synced R s t) (x : Addr) (index : ℤ) (value : Addr) :
    Lockstep (Synced R) (r.setItem x index value) s t := by
  apply check hs
  rintro ⟨slot, old⟩ -
  exact hR.row_setSlot hs x slot value old

theorem row_setFirst (hR : Concord R) (hs : Synced R s t) (x value : Addr) :
    Lockstep (Synced R) (r.setFirst x value) s t :=
  check hs fun _ _ => hR.row_setSlot hs x 0 value _

theorem row_setButFirst (hR : Concord R) (hs : Synced R s t) (x value : Addr) :
    Lockstep (Synced R) (r.setButFirst x value) s t := by
  refine demand hs fun rest _ => check hs fun slots _ => ?_
  refine hR.alter hs ((Steady.retainAll _ rest.slots).trans ?_)
  exact (Steady.setBody _ _ (by simp [Row.body])).trans (.releaseAll _ _)

theorem row_append (hR : Concord R) (hs : Synced R s t) (x value : Addr) :
    Lockstep (Synced R) (r.append x value) s t :=
  hR.alter hs ((Steady.retain _ value).trans (Steady.setBody _ _ (by simp [Row.body])))

theorem row_ofElements (hR : Concord R) (hs : Synced R s t) (origin : ℤ) (x : Addr) :
    Lockstep (Synced R) (Row.ofElements origin x) s t := by
  refine look hs ?_
  split
  · exact .throw hs _
  · exact hR.create hs _

end Array

/-! ### Words -/

section Word

variable {w : Word}

theorem word_ofCharacters (hR : Concord R) (hs : Synced R s t) (cs : List Char) :
    Lockstep (Synced R) (Word.ofCharacters cs) s t :=
  hR.make hs (.alloc _ _ _)

theorem word_characters (hR : Concord R) (hs : Synced R s t) (hx : s.heap.body x = .word w) :
    Lockstep (Synced R) (Operation.ask fun _ => w.characters x) s t :=
  ask hs (hR.characters hs.settled hx)

theorem word_someCharacters (hR : Concord R) (hs : Synced R s t) (hx : s.heap.body x = .word w)
    (op : Op) : Lockstep (Synced R) (w.someCharacters op x) s t := by
  apply (hR.word_characters hs hx).bind
  intro cs s t hs
  dsimp only
  split
  · exact ⟨rfl, hs⟩
  · exact .pure hs cs

theorem word_item (hR : Concord R) (hs : Synced R s t) (hx : s.heap.body x = .word w)
    (index : ℤ) : Lockstep (Synced R) (w.item x index) s t := by
  apply (hR.word_characters hs hx).bind
  intro cs s t hs
  split
  · exact hR.word_ofCharacters hs _
  · exact .throw hs _

theorem word_first (hR : Concord R) (hs : Synced R s t) (hx : s.heap.body x = .word w) :
    Lockstep (Synced R) (w.first x) s t :=
  (hR.word_someCharacters hs hx _).bind fun _ _ _ hs => hR.word_ofCharacters hs _

theorem word_last (hR : Concord R) (hs : Synced R s t) (hx : s.heap.body x = .word w) :
    Lockstep (Synced R) (w.last x) s t :=
  (hR.word_someCharacters hs hx _).bind fun _ _ _ hs => hR.word_ofCharacters hs _

theorem word_butFirst (hR : Concord R) (hs : Synced R s t) (hx : s.heap.body x = .word w) :
    Lockstep (Synced R) (w.butFirst x) s t :=
  (hR.word_someCharacters hs hx _).bind fun _ _ _ hs => hR.word_ofCharacters hs _

theorem word_butLast (hR : Concord R) (hs : Synced R s t) (hx : s.heap.body x = .word w) :
    Lockstep (Synced R) (w.butLast x) s t :=
  (hR.word_someCharacters hs hx _).bind fun _ _ _ hs => hR.word_ofCharacters hs _

theorem word_fromMember (hR : Concord R) (hs : Synced R s t) (hx : s.heap.body x = .word w)
    {y : Addr} {v : Word} (hy : s.heap.body y = .word v) (ignoreCase : Bool) :
    Lockstep (Synced R) (w.fromMember ignoreCase x y v) s t :=
  (ask hs (hR.wordSeek? hs.settled hx hy ignoreCase)).bind fun _ _ _ hs =>
    hR.make hs (.alloc _ _ _)

end Word

/-! ### Sequences of any kind -/

theorem sequence_item (hR : Concord R) (hs : Synced R s t) (x : Addr) (index : ℤ) :
    Lockstep (Synced R) (Sequence.item x index) s t := by
  refine look hs ?_
  split
  · next w hw => exact hR.word_item hs hw index
  · exact hR.list_item hs index
  · exact hR.row_item hs index
  · exact .throw hs _

theorem sequence_first (hR : Concord R) (hs : Synced R s t) (x : Addr) :
    Lockstep (Synced R) (Sequence.first x) s t := by
  refine look hs ?_
  split
  · next w hw => exact hR.word_first hs hw
  · exact hR.list_first hs
  · exact hR.row_first hs
  · exact hR.make hs (.nothing _)
  · exact .throw hs _

theorem sequence_last (hR : Concord R) (hs : Synced R s t) (x : Addr) :
    Lockstep (Synced R) (Sequence.last x) s t := by
  refine look hs ?_
  split
  · next w hw => exact hR.word_last hs hw
  · exact hR.list_last hs
  · exact hR.row_last hs
  · exact .throw hs _

theorem sequence_butFirst (hR : Concord R) (hs : Synced R s t) (x : Addr) :
    Lockstep (Synced R) (Sequence.butFirst x) s t := by
  refine look hs ?_
  split
  · next w hw => exact hR.word_butFirst hs hw
  · exact hR.list_butFirst hs
  · exact hR.row_butFirst hs
  · exact .throw hs _

theorem sequence_butLast (hR : Concord R) (hs : Synced R s t) (x : Addr) :
    Lockstep (Synced R) (Sequence.butLast x) s t := by
  refine look hs ?_
  split
  · next w hw => exact hR.word_butLast hs hw
  · exact hR.list_butLast hs
  · exact hR.row_butLast hs
  · exact .throw hs _

theorem sequence_fromMember (hR : Concord R) (hs : Synced R s t) (ignoreCase : Bool)
    (x value : Addr) : Lockstep (Synced R) (Sequence.fromMember ignoreCase x value) s t := by
  refine look hs ?_
  split
  · next w hw =>
    exact demand hs fun v hv => hR.word_fromMember hs hw (body_of_word hv) ignoreCase
  · exact hR.list_fromMember hs ignoreCase x value
  · exact hR.row_fromMember hs ignoreCase x value
  · exact .throw hs _

theorem sequence_setItem (hR : Concord R) (hs : Synced R s t) (x : Addr) (index : ℤ)
    (value : Addr) : Lockstep (Synced R) (Sequence.setItem x index value) s t := by
  refine look hs ?_
  split
  · exact hR.list_setItem hs x index value
  · exact hR.row_setItem hs x index value
  · exact .throw hs _

theorem sequence_setFirst (hR : Concord R) (hs : Synced R s t) (x value : Addr) :
    Lockstep (Synced R) (Sequence.setFirst x value) s t := by
  refine look hs ?_
  split
  · exact hR.list_setFirst hs x value
  · exact hR.row_setFirst hs x value
  · exact .throw hs _

theorem sequence_setButFirst (hR : Concord R) (hs : Synced R s t) (x value : Addr) :
    Lockstep (Synced R) (Sequence.setButFirst x value) s t := by
  refine look hs ?_
  split
  · exact hR.list_setButFirst hs x value
  · exact hR.row_setButFirst hs x value
  · exact .throw hs _

/-! ### Cursors -/

section Cursor

variable {h : Heap} {σ τ : Settled}

theorem charactersOf (hR : Concord R) (hσ : R h σ τ) (base : Addr) :
    Lockstep (R h) (Cursor.charactersOf h base) σ τ := by
  unfold Cursor.charactersOf
  split
  · next w hw => exact hR.characters hσ (body_of_word hw)
  · exact .throw hσ _

theorem slotsOf (hσ : R h σ τ) (base : Addr) : Lockstep (R h) (Cursor.slotsOf h base) σ τ := by
  unfold Cursor.slotsOf
  split
  · exact .pure hσ _
  · exact .throw hσ _

theorem hasMore (hR : Concord R) (hσ : R h σ τ) (c : Cursor) :
    Lockstep (R h) (c.hasMore h) σ τ := by
  cases c with
  | list link remaining => exact .pure hσ _
  | array base slot => exact (slotsOf hσ base).result _
  | word base taken => exact (hR.charactersOf hσ base).result _

theorem sizeHint (hR : Concord R) (hσ : R h σ τ) (c : Cursor) :
    Lockstep (R h) (c.sizeHint h) σ τ := by
  cases c with
  | list link remaining =>
    exact (hR.hasMore hσ (.list link remaining)).result _
  | array base slot => exact (slotsOf hσ base).result _
  | word base taken => exact (hR.charactersOf hσ base).result _

theorem cursor_ofList (hR : Concord R) (hs : Synced R s t) (l : ListHeader) :
    Lockstep (Synced R) (Cursor.ofList l) s t :=
  (hR.share hs _).result _

theorem cursor_ofArray (hR : Concord R) (hs : Synced R s t) (x : Addr) :
    Lockstep (Synced R) (Cursor.ofArray x) s t :=
  (hR.share hs _).result _

theorem cursor_ofWord (hR : Concord R) (hs : Synced R s t) (x : Addr) :
    Lockstep (Synced R) (Cursor.ofWord x) s t :=
  (hR.share hs _).result _

theorem cursor_start (hR : Concord R) (hs : Synced R s t) (x : Addr) :
    Lockstep (Synced R) (Cursor.start x) s t := by
  refine look hs ?_
  split
  · exact hR.cursor_ofWord hs x
  · exact hR.cursor_ofList hs _
  · exact hR.cursor_ofArray hs x
  · exact .throw hs _

theorem cursor_next (hR : Concord R) (hs : Synced R s t) (c : Cursor) :
    Lockstep (Synced R) c.next s t := by
  apply (ask hs (hR.hasMore hs.settled c)).bind
  intro more s t hs
  split
  · exact .pure hs _
  cases c with
  | list link remaining =>
    apply assert hs
    rintro ⟨item, rest⟩ -
    refine (hR.alter hs ?_).result _
    -- a cursor on a list only moves handles, which both runs do in the same way
    exact (Steady.retain _ rest).trans ((Steady.retain _ item).trans (.release _ link))
  | array base slot =>
    apply (ask hs (slotsOf hs.settled base)).bind
    intro slots s t hs
    split
    · exact (hR.share hs _).result _
    · exact .pure hs _
  | word base taken =>
    apply (ask hs (hR.charactersOf hs.settled base)).bind
    intro cs s t hs
    split
    · exact (hR.word_ofCharacters hs _).result _
    · exact .pure hs _

theorem cursor_takeNext (hR : Concord R) (hs : Synced R s t) (c : Cursor) :
    Lockstep (Synced R) c.takeNext s t := by
  apply (hR.cursor_next hs c).bind
  rintro ⟨item, c⟩ s t hs
  cases item with
  | none => exact look hs (.throw hs _)
  | some item => exact .pure hs _

end Cursor

end SharedValues.Concord
