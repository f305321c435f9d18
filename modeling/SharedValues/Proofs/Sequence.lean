import SharedValues.Cursor
import SharedValues.Proofs.Sequence.List

/-!
# Sequences and cursors keep what moves keep

Parts of words are new words, and the operations that sequences have in common are those of words,
lists and arrays.  A cursor owns one handle, which it exchanges for another when it advances along
a list.

## Main results

* `Kept.sequence_item`, `Kept.sequence_setItem`, … — the operations on sequences.
* `Kept.cursor_start`, `Kept.cursor_next` — what a cursor owns and hands out.
-/

namespace SharedValues

open Heap Operation

/-- The slots that a cursor walks over are those of an array. -/
theorem Cursor.body_of_slotsOf {h : Heap} {base : Addr} {slots : List Addr}
    {settled settled' : Settled}
    (hs : (Cursor.slotsOf h base).run settled = (.ok slots, settled')) :
    ∃ origin, h.body base = .array origin slots := by
  unfold Cursor.slotsOf at hs
  split at hs
  · next origin slots' hr =>
    obtain ⟨hslots, -⟩ := Prod.mk.inj hs
    obtain rfl := Except.ok.inj hslots
    exact ⟨origin, body_of_array hr⟩
  · exact absurd (Prod.mk.inj hs).1 (by simp)

/-! ### Words -/

theorem Word.reads_someCharacters (op : Op) (x : Addr) (w : Word) :
    Reads (Word.someCharacters op x w) := by
  apply (reads_ask _).bind
  intro cs
  split
  · exact (reads_throw _).bind fun _ => reads_pure _
  · exact reads_pure _

namespace Kept

variable {A : Set Act} {F : Multiset Addr → Heap → Prop} {held : Multiset Addr} {s : Store}
  {x value : Addr}

/-- A new word, the text of which is read off the store. -/
theorem word_of_reads (hF : Kept A F) {α : Type} {op : Operation α} (hop : Reads op)
    {text : α → String} (hh : F held s.heap) :
    Yields F held (op >>= fun a => .make (·.text (text a))) s :=
  ensures_bind.mpr (hop.ensures (fun a _ ht => ensures_make.mpr (hF.text (ht ▸ hh) (text a) false))
    fun _ _ ht => ht ▸ hh)

theorem word_item (hF : Kept A F) (hh : F held s.heap) (w : Word) (index : ℤ) :
    Yields F held (w.item x index) s := by
  refine ensures_bind.mpr ((reads_ask _).ensures ?_ fun _ t ht => ht ▸ hh)
  intro cs t ht
  have hh' : F held t.heap := ht ▸ hh
  split
  · exact ensures_make.mpr (hF.text hh' _ false)
  · exact ensures_throw.mpr hh'

theorem word_first (hF : Kept A F) (hh : F held s.heap) (w : Word) :
    Yields F held (w.first x) s :=
  hF.word_of_reads (Word.reads_someCharacters .first x w) hh

theorem word_last (hF : Kept A F) (hh : F held s.heap) (w : Word) :
    Yields F held (w.last x) s :=
  hF.word_of_reads (Word.reads_someCharacters .last x w) hh

theorem word_butFirst (hF : Kept A F) (hh : F held s.heap) (w : Word) :
    Yields F held (w.butFirst x) s :=
  hF.word_of_reads (Word.reads_someCharacters .butFirst x w) hh

theorem word_butLast (hF : Kept A F) (hh : F held s.heap) (w : Word) :
    Yields F held (w.butLast x) s :=
  hF.word_of_reads (Word.reads_someCharacters .butLast x w) hh

theorem word_fromMember (hF : Kept A F) (hh : F held s.heap) (ignoreCase : Bool) (w v : Word) :
    Yields F held (w.fromMember ignoreCase x value v) s :=
  hF.word_of_reads (reads_ask _) hh

/-! ### Parts of sequences -/

theorem unsupported {α : Type} {Q : α → Store → Prop} (hh : F held s.heap) (op : Op)
    (kind : Kind) : Ensures (Operation.unsupported op kind) s Q fun _ t => F held t.heap :=
  ensures_throw.mpr hh

theorem sequence_item (hF : Kept A F) (hh : F held s.heap) (index : ℤ) :
    Yields F held (Sequence.item x index) s := by
  refine ensures_bind.mpr (ensures_look.mpr ?_)
  split
  · exact hF.word_item hh _ index
  · exact hF.list_item hh index
  · next hx => exact hF.row_item hh hx index
  · exact unsupported hh _ _

theorem sequence_first (hF : Kept A F) (hh : F held s.heap) :
    Yields F held (Sequence.first x) s := by
  refine ensures_bind.mpr (ensures_look.mpr ?_)
  split
  · exact hF.word_first hh _
  · exact hF.list_first hh
  · exact hF.row_first hh
  · exact ensures_make.mpr (hF.nothing hh)
  · exact unsupported hh _ _

theorem sequence_last (hF : Kept A F) (hh : F held s.heap) :
    Yields F held (Sequence.last x) s := by
  refine ensures_bind.mpr (ensures_look.mpr ?_)
  split
  · exact hF.word_last hh _
  · exact hF.list_last hh
  · next hx => exact hF.row_last hh hx
  · exact unsupported hh _ _

theorem sequence_butFirst (hF : Kept A F) (hh : F held s.heap) :
    Yields F held (Sequence.butFirst x) s := by
  refine ensures_bind.mpr (ensures_look.mpr ?_)
  split
  · exact hF.word_butFirst hh _
  · next hx => exact hF.list_butFirst hh hx
  · next hx => exact hF.row_butFirst hh hx
  · exact unsupported hh _ _

theorem sequence_butLast (hF : Kept A F) (hh : F held s.heap) :
    Yields F held (Sequence.butLast x) s := by
  refine ensures_bind.mpr (ensures_look.mpr ?_)
  split
  · exact hF.word_butLast hh _
  · exact hF.list_butLast hh
  · next hx => exact hF.row_butLast hh hx
  · exact unsupported hh _ _

theorem sequence_fromMember (hF : Kept A F) (hh : F held s.heap) (ignoreCase : Bool) :
    Yields F held (Sequence.fromMember ignoreCase x value) s := by
  refine ensures_bind.mpr (ensures_look.mpr ?_)
  split
  · refine ensures_bind.mpr (ensures_demand ?_ fun _ _ => hh)
    intro v _
    exact hF.word_fromMember hh ignoreCase _ v
  · next hx => exact hF.list_fromMember hh hx ignoreCase
  · next hx => exact hF.row_fromMember hh hx ignoreCase
  · exact unsupported hh _ _

/-! ### Changes of sequences -/

theorem sequence_setItem (hF : Kept A F) (hfill : .fill ∈ A) (hitem : .item ∈ A)
    (hheader : .header ∈ A) (hh : F held s.heap) (hheld : x ∈ held) (hvalue : s.heap.Live value)
    (index : ℤ) : Keeps F held (Sequence.setItem x index value) s := by
  refine ensures_bind.mpr (ensures_look.mpr ?_)
  split
  · next hx => exact hF.list_setItem hitem hheader hh hx hheld hvalue index
  · next hx => exact hF.row_setItem hfill hh hx hvalue index
  · exact unsupported hh _ _

theorem sequence_setFirst (hF : Kept A F) (hfill : .fill ∈ A) (hitem : .item ∈ A)
    (hheader : .header ∈ A) (hh : F held s.heap) (hheld : x ∈ held)
    (hvalue : s.heap.Live value) : Keeps F held (Sequence.setFirst x value) s := by
  refine ensures_bind.mpr (ensures_look.mpr ?_)
  split
  · next hx => exact hF.list_setFirst hitem hheader hh hx hheld hvalue
  · next hx => exact hF.row_setFirst hfill hh hx hvalue
  · exact unsupported hh _ _

theorem sequence_setButFirst (hF : Kept A F) (hfill : .fill ∈ A) (htail : .tail ∈ A)
    (hh : F held s.heap) (hheld : x ∈ held) :
    Keeps F held (Sequence.setButFirst x value) s := by
  refine ensures_bind.mpr (ensures_look.mpr ?_)
  split
  · next hx => exact hF.list_setButFirst htail hh hx hheld (Or.inl rfl)
  · next hx => exact hF.row_setButFirst hfill hh hx
  · exact unsupported hh _ _

/-! ### Cursors -/

/-- A new cursor owns a handle. -/
theorem cursor_share (hF : Kept A F) (hh : F held s.heap) (hx : s.heap.Live x)
    {cursor : Addr → Cursor} (hcursor : ∀ a, (cursor a).handle = a) :
    Ensures (do return cursor (← Operation.share x)) s
      (fun c t => F (held + {c.handle}) t.heap) fun _ t => F held t.heap := by
  refine ensures_bind.mpr (ensures_share.mpr (ensures_pure.mpr ?_))
  rw [hcursor]
  exact hF.retain hh hx

theorem cursor_start (hF : Kept A F) (hh : F held s.heap) (hheld : x ∈ held) :
    Ensures (Cursor.start x) s (fun c t => F (held + {c.handle}) t.heap)
      fun _ t => F held t.heap := by
  refine ensures_bind.mpr (ensures_look.mpr ?_)
  split
  · exact hF.cursor_share hh (hF.live hh hheld) fun _ => rfl
  · next hx => exact hF.cursor_share hh (hF.live_head hh hx) fun _ => rfl
  · exact hF.cursor_share hh (hF.live hh hheld) fun _ => rfl
  · exact unsupported hh _ _

/-- **A cursor that advances** exchanges its handle for the one to the place behind the element,
and hands out the element; otherwise it stays as it is. -/
theorem cursor_next (hF : Kept A F) {c : Cursor} (hh : F (held + {c.handle}) s.heap) :
    Ensures c.next s
      (fun r t => F (held + {r.2.handle} + (r.1.toList : Multiset Addr)) t.heap ∧
        (r.1 = none → r.2 = c))
      fun _ t => F (held + {c.handle}) t.heap := by
  have hstay : ∀ {t : Store}, F (held + {c.handle}) t.heap →
      F (held + {c.handle} + ((none : Option Addr).toList : Multiset Addr)) t.heap ∧
        ((none : Option Addr) = none → c = c) := by
    simp
  refine ensures_bind.mpr ((reads_ask _).ensures ?_ fun _ t ht => ht ▸ hh)
  intro more t ht
  have hh' : F (held + {c.handle}) t.heap := ht ▸ hh
  split
  · exact ensures_pure.mpr (hstay hh')
  · cases c with
    | list link remaining =>
      refine ensures_bind.mpr (ensures_assert ?_ fun _ _ => hh')
      rintro ⟨item, rest⟩ hcell
      refine ensures_bind.mpr (ensures_alter.mpr (ensures_pure.mpr ⟨?_, by simp⟩))
      have hbody := body_of_cell hcell
      -- the handles to the rest and to the item are taken before the one to the cell is given up
      have hrest := hF.retain hh' ((hF.exact hh').live_of_mem hbody (a := rest) (by
        simp [Body.handles]))
      have hitem := hF.retain hrest (live_retain.mpr ((hF.exact hh').live_of_mem hbody
        (a := item) (by simp [Body.handles])))
      refine hF.release (a := link) ?_
      simpa only [Cursor.handle, Option.toList_some, Multiset.coe_singleton,
        add_right_comm _ {link}] using hitem
    | array base slot =>
      refine ensures_bind.mpr (ensures_ask ?_ fun _ _ _ => hh')
      intro slots _ hslots
      obtain ⟨origin, hbody⟩ := Cursor.body_of_slotsOf hslots
      split
      · next item hitem =>
        refine ensures_bind.mpr (ensures_share.mpr (ensures_pure.mpr ⟨?_, by simp⟩))
        exact hF.retain hh' ((hF.exact hh').live_of_mem hbody (List.mem_of_getElem? hitem))
      · exact ensures_pure.mpr (hstay hh')
    | word base taken =>
      refine ensures_bind.mpr ((reads_ask _).ensures ?_
        fun _ u hu => hu ▸ hh')
      intro cs u hu
      have hh'' : F (held + {base}) u.heap := hu ▸ hh'
      split
      · refine ensures_bind.mpr (ensures_make.mpr (ensures_pure.mpr ⟨?_, by simp⟩))
        exact hF.text hh'' _ false
      · exact ensures_pure.mpr (hstay hh'')

/-- A cursor advances over the element that was promised, or stays as it is. -/
theorem cursor_takeNext (hF : Kept A F) {c : Cursor} (hh : F (held + {c.handle}) s.heap) :
    Ensures c.takeNext s (fun r t => F (held + {r.2.handle} + {r.1}) t.heap)
      fun _ t => F (held + {c.handle}) t.heap := by
  refine ensures_bind.mpr ((hF.cursor_next hh).mono ?_ fun _ _ => id)
  rintro ⟨_ | item, c'⟩ t ⟨ht, hnone⟩
  · obtain rfl := hnone rfl
    refine ensures_bind.mpr (ensures_look.mpr (ensures_throw.mpr ?_))
    simpa using ht
  · exact ensures_pure.mpr (by simpa using ht)

end Kept

end SharedValues
