import SharedValues.Proofs.Query.Legible
import SharedValues.Proofs.Word.Characters

/-!
# What a cursor foretells

Between two advances of a cursor anything may happen to what it walks over.  What a cursor says is
said of the cells, slots or characters that are there then; and an advance along a list takes one
of the steps that the cursor was given in the beginning, wherever the links lead to.  So the number
of elements that it goes over in all is bounded, and what it says of the elements ahead is right
for as long as nothing is changed any more.

## Main definitions

* `Cursor.Leads` — advances over some elements lead from one place to another.
* `Heap.Remains` — the cells that a cursor on a list goes over.
* `Heap.HasLeft` — how many elements are left for a cursor.
* `Store.Foretells` — what a cursor says of the elements ahead is right.

## Main results

* `Leads.list` — every advance along a list takes one of the steps.
* `foretells_list`, `foretells_array`, `foretells_word` — what cursors say is right.
-/

namespace SharedValues

open Heap Operation

/-! ### Advances -/

namespace Cursor

variable {c d e : Cursor} {link base slot taken remaining j k : ℕ}

/-- **Advances over some elements**, as many as the number says, lead from one place to another.
Each of them is made in a state of its own. -/
inductive Leads : Cursor → Cursor → ℕ → Prop
  /-- No advance is made. -/
  | refl (c : Cursor) : Leads c c 0
  /-- One more element is gone over. -/
  | next {c d e : Cursor} {k : ℕ} {s t : Store} {a : Addr} :
    Leads c d k → d.next.run s = (.ok (some a, e), t) → Leads c e (k + 1)

theorem Leads.trans (hc : Leads c d j) (hd : Leads d e k) : Leads c e (j + k) := by
  induction hd with
  | refl => exact hc
  | next _ hrun ih => exact ih.next hrun

/-- The place behind an element. -/
inductive Moves : Cursor → Cursor → Prop
  /-- Some link of a chain, with one step less. -/
  | list (link rest remaining : ℕ) : Moves (.list link (remaining + 1)) (.list rest remaining)
  /-- The next slot. -/
  | array (base slot : ℕ) : Moves (.array base slot) (.array base (slot + 1))
  /-- Behind one more character. -/
  | word (base taken : ℕ) : Moves (.word base taken) (.word base (taken + 1))

/-- **An advance** goes over one element, or stays where it is. -/
theorem ensures_next (c : Cursor) (s : Store) :
    Ensures c.next s (fun r _ => r = (none, c) ∨ ∃ a d, r = (some a, d) ∧ c.Moves d)
      fun _ _ => True := by
  refine ensures_bind.mpr (ensures_ask ?_ fun _ _ _ => trivial)
  intro more τ hmore
  cases more with
  | false => exact ensures_pure.mpr (.inl rfl)
  | true =>
    cases c with
    | list link remaining =>
      -- a list cursor that has more has a number of items left, and one less behind its cell
      have hpos : 0 < remaining := by
        have hflag : (0 < remaining && !s.heap.isNothing link) = true :=
          Except.ok.inj (Prod.mk.inj hmore).1
        exact of_decide_eq_true (Bool.and_eq_true_iff.mp hflag).1
      obtain ⟨n, rfl⟩ := Nat.exists_eq_succ_of_ne_zero hpos.ne'
      refine ensures_bind.mpr (ensures_assert ?_ fun _ _ => trivial)
      rintro ⟨item, rest⟩ -
      exact ensures_bind.mpr (ensures_alter.mpr (ensures_pure.mpr
        (.inr ⟨item, _, rfl, .list link rest n⟩)))
    | array base slot =>
      refine ensures_bind.mpr (ensures_ask ?_ fun _ _ _ => trivial)
      intro slots _ _
      split
      · exact ensures_bind.mpr (ensures_share.mpr (ensures_pure.mpr
          (.inr ⟨_, _, rfl, .array base slot⟩)))
      · exact ensures_pure.mpr (.inl rfl)
    | word base taken =>
      refine ensures_bind.mpr (ensures_ask ?_ fun _ _ _ => trivial)
      intro cs _ _
      split
      · exact ensures_bind.mpr (ensures_make.mpr (ensures_pure.mpr
          (.inr ⟨_, _, rfl, .word base taken⟩)))
      · exact ensures_pure.mpr (.inl rfl)

theorem moves_of_run {s t : Store} {a : Addr} (hrun : c.next.run s = (.ok (some a, d), t)) :
    c.Moves d := by
  rcases (ensures_of_ok hrun).mp (ensures_next c s) with hstay | ⟨_, _, hmoved, hmoves⟩
  · exact absurd (Prod.mk.inj hstay).1 (by simp)
  · obtain ⟨-, rfl⟩ := Prod.mk.inj hmoved
    exact hmoves

/-- An advance leads over the element that it takes, if it takes one. -/
theorem ensures_leads (c : Cursor) (s : Store) :
    Ensures c.next s (fun r _ => c.Leads r.2 r.1.toList.length) fun _ _ => True := by
  rcases hrun : c.next.run s with ⟨f | ⟨item, d⟩, t⟩
  · exact (ensures_of_error hrun).mpr trivial
  · refine (ensures_of_ok hrun).mpr ?_
    cases item with
    | some a => exact (Leads.refl c).next hrun
    | none =>
      rcases (ensures_of_ok hrun).mp (ensures_next c s) with hstay | ⟨_, _, hmoved, -⟩
      · obtain rfl := (Prod.mk.inj hstay).2
        exact .refl _
      · exact absurd (Prod.mk.inj hmoved).1 (by simp)

/-- An advance over an element that was promised to be there takes one. -/
theorem ensures_takeNext_leads (c : Cursor) (s : Store) :
    Ensures c.takeNext s (fun r _ => c.Leads r.2 1) fun _ _ => True := by
  refine ensures_bind.mpr ((ensures_leads c s).mono ?_ fun _ _ => id)
  rintro ⟨item, d⟩ t hd
  cases item with
  | none => exact ensures_bind.mpr (ensures_look.mpr (ensures_throw.mpr trivial))
  | some a => exact ensures_pure.mpr hd

/-- **Every advance along a list takes one of the steps** that the cursor was given. -/
theorem Leads.list (hd : Leads (.list link remaining) d k) :
    ∃ rest left, d = .list rest left ∧ k + left = remaining := by
  induction hd with
  | refl => exact ⟨link, remaining, rfl, Nat.zero_add _⟩
  | next _ hrun ih =>
    obtain ⟨rest, left, rfl, hleft⟩ := ih
    cases moves_of_run hrun with
    | list _ rest left => exact ⟨rest, left, rfl, by omega⟩

theorem Leads.array (hd : Leads (.array base slot) d k) : d = .array base (slot + k) := by
  induction hd with
  | refl => rfl
  | next _ hrun ih =>
    obtain rfl := ih
    cases moves_of_run hrun with
    | array => rfl

theorem Leads.word (hd : Leads (.word base taken) d k) : d = .word base (taken + k) := by
  induction hd with
  | refl => rfl
  | next _ hrun ih =>
    obtain rfl := ih
    cases moves_of_run hrun with
    | word => rfl

end Cursor

/-! ### What is said of the elements ahead -/

namespace Heap

/-- **The cells that a cursor on a list goes over**: as many as it has steps for, or all that there
are up to the end of the chain. -/
inductive Remains (h : Heap) : Addr → ℕ → List Addr → Prop
  /-- There is no step left. -/
  | stop {a : Addr} : Remains h a 0 []
  /-- The chain ends. -/
  | ended {a : Addr} {m : ℕ} : h.kind a = .nothing → Remains h a m []
  /-- One step goes over a cell. -/
  | cons {a n : Addr} {m : ℕ} {cs : List Addr} :
    h.next? a = some n → Remains h n m cs → Remains h a (m + 1) (a :: cs)

/-- **The elements that are left** for a cursor, as many as the number says. -/
inductive HasLeft (h : Heap) : Cursor → ℕ → Prop
  /-- The cells of a chain. -/
  | list {link remaining : ℕ} {cs : List Addr} :
    h.Remains link remaining cs → HasLeft h (.list link remaining) cs.length
  /-- The slots of an array from one on. -/
  | array {base : Addr} {origin : ℤ} {slots : List Addr} (slot : ℕ) :
    h.body base = .array origin slots → HasLeft h (.array base slot) (slots.length - slot)
  /-- The characters of a word behind the first of them. -/
  | word {base : Addr} {w : Word} (taken : ℕ) :
    h.body base = .word w → HasLeft h (.word base taken) (w.raw.toList.length - taken)

end Heap

/-- **What a cursor says of the elements ahead is right** while nothing is changed: whether there is
one, and the bounds on their number.  A walk goes over all of them and ends. -/
structure Store.Foretells (s : Store) (c : Cursor) : Prop where
  /-- Whether an element is ahead is whether an advance goes over one. -/
  hasMore : ∃ more r t, ((ask c.hasMore).run s).1 = .ok more ∧ c.next.run s = (.ok r, t) ∧
    r.1.isSome = more
  /-- There are as many elements ahead as the bounds allow, and no more are gone over. -/
  bounds : ∃ low high n, ((ask c.sizeHint).run s).1 = .ok (low, high) ∧ s.heap.HasLeft c n ∧
    low ≤ n ∧ n ≤ high ∧ ∀ k, ∃ as t, (c.drain k).run s = (.ok as, t) ∧ as.length = min k n

/-- Whether an advance goes over an element is known from a walk over one at most. -/
theorem foretells_of_drain {s : Store} {c : Cursor} {n low high : ℕ} {σ τ : Settled}
    (hleft : s.heap.HasLeft c n)
    (hmore : (c.hasMore s.heap).run s.settled = (.ok (decide (0 < n)), σ))
    (hbounds : (c.sizeHint s.heap).run s.settled = (.ok (low, high), τ)) (hlow : low ≤ n)
    (hhigh : n ≤ high)
    (hdrain : ∀ k, Ensures (c.drain k) s (fun as _ => as.length = min k n) fun _ _ => False) :
    s.Foretells c where
  hasMore := by
    obtain ⟨r, t, hrun, hrest⟩ := (ensures_bind.mp (hdrain 1)).exists_ok
    refine ⟨_, r, t, by rw [run_ask hmore], hrun, ?_⟩
    obtain ⟨item, d⟩ := r
    cases item with
    | none =>
      have hzero : 0 = min 1 n := hrest
      exact (decide_eq_false (by omega)).symm
    | some a =>
      have hone : 1 = min 1 n := hrest
      exact (decide_eq_true (by omega)).symm
  bounds := ⟨low, high, n, by rw [run_ask hbounds], hleft, hlow, hhigh,
    fun k => (hdrain k).exists_ok⟩

/-! ### Lists -/

namespace Heap

variable {h h' : Heap} {held : Multiset Addr} {S : Set Addr} {a : Addr} {m : ℕ} {cs : List Addr}

/-- If all links lead to cells, then every step finds one or the end of the chain. -/
theorem exists_remains (ha : h.Linked a) (m : ℕ) : ∃ cs, h.Remains a m cs := by
  induction m generalizing a with
  | zero => exact ⟨[], .stop⟩
  | succ m ih =>
    rcases ha.kind with hcell | hnothing
    · obtain ⟨n, hn⟩ := exists_next?_of_kind hcell
      obtain ⟨cs, hcs⟩ := ih (ha.next hn)
      exact ⟨a :: cs, .cons hn hcs⟩
    · exact ⟨[], .ended hnothing⟩

theorem Remains.length_le (hcs : h.Remains a m cs) : cs.length ≤ m := by
  induction hcs with
  | stop => exact Nat.le_refl _
  | ended => exact Nat.zero_le _
  | cons _ _ ih => exact Nat.succ_le_succ ih

theorem AgreeOn.remains (hh : AgreeOn S h h') (ha : a ∈ S) (hcs : h.Remains a m cs) :
    h'.Remains a m cs := by
  induction hcs with
  | stop => exact .stop
  | ended hk => exact .ended ((hh.kind_eq _ ha).trans hk)
  | cons hn _ ih => exact .cons ((hh.next_eq _ ha).trans hn) (ih (hh.closed _ ha _ hn))

/-- Whether an element is ahead. -/
theorem Remains.hasMore_eq (hcs : h.Remains a m cs) :
    Cursor.hasMore (.list a m) h = pure (decide (0 < cs.length)) := by
  cases hcs with
  | stop => rfl
  | ended hk =>
    rw [Cursor.hasMore, isNothing, hk, beq_self_eq_true, Bool.not_true, Bool.and_false]
    rfl
  | cons hn _ =>
    rw [Cursor.hasMore, isNothing, kind_of_next? hn]
    rfl

/-- **A cursor on a list goes over the cells** that it has steps for. -/
theorem ensures_drain_remains {s : Store} (hh : s.heap.Exact (held + {a}))
    (hcs : s.heap.Remains a m cs) (k : ℕ) :
    Ensures (Cursor.drain k (.list a m)) s (fun as _ => as.length = min k cs.length)
      fun _ _ => False := by
  induction k generalizing s a m cs held with
  | zero => exact ensures_pure.mpr (Nat.zero_min _).symm
  | succ k ih =>
    rw [Cursor.drain]
    have hmore := hcs.hasMore_eq
    cases hcs with
    | stop => exact ensures_bind.mpr (ensures_next_nil.mpr (ensures_pure.mpr rfl))
    | ended hk =>
      refine ensures_bind.mpr (ensures_bind.mpr ((ensures_ask_of_pure hmore).mpr ?_))
      exact ensures_pure.mpr (ensures_pure.mpr rfl)
    | @cons _ n m cs hn hrest =>
      obtain ⟨item, hbody⟩ := next?_eq_some_iff.mp hn
      -- nothing is written, so the cells are linked as before
      have hmoved := (ensures_next_cons hbody m).mp
        ((kept_spares s.heap).cursor_next (c := .list a (m + 1)) ⟨hh, .refl _⟩)
      obtain ⟨hexact, hspares⟩ := hmoved.1
      refine ensures_bind.mpr ((ensures_next_cons hbody m).mpr (ensures_bind.mpr ?_))
      have hlive := (hh.live_next hn).lt_size
      have hcs := (hspares.agreeOn hh hexact).remains
        ⟨hlive, hexact.live_of_held (by simp [Cursor.handle])⟩ hrest
      rw [Cursor.handle, add_right_comm] at hexact
      refine (ih hexact hcs).mono ?_ fun _ _ => False.elim
      intro as _ hlength
      refine ensures_pure.mpr ?_
      rw [List.length_cons, hlength, List.length_cons, Nat.add_min_add_right]

end Heap

section Cursors

variable {s : Store} {held : Multiset Addr} {link base remaining slot taken : ℕ} {origin : ℤ}
  {slots : List Addr} {w : Word}

/-- **What a cursor on a list says is right** if the links lead to cells, in a circle or not. -/
theorem foretells_list (hh : s.heap.Exact (held + {link})) (hl : s.heap.Linked link)
    (remaining : ℕ) : s.Foretells (.list link remaining) := by
  obtain ⟨cs, hcs⟩ := exists_remains hl remaining
  have hmore := hcs.hasMore_eq
  have hbounds : (Cursor.sizeHint (.list link remaining) s.heap).run s.settled =
      (.ok (0, if decide (0 < cs.length) then remaining else 0), s.settled) := by
    rw [Cursor.sizeHint, hmore]
    rfl
  have hrun : (Cursor.hasMore (.list link remaining) s.heap).run s.settled =
      (.ok (decide (0 < cs.length)), s.settled) := by
    rw [hmore]
    rfl
  -- what is foretold is checked against draining the cursor
  refine foretells_of_drain (.list hcs) hrun hbounds (Nat.zero_le _) ?_
    fun k => ensures_drain_remains hh hcs k
  split
  · exact hcs.length_le
  · next hnone => simpa using hnone

/-! ### Arrays -/

theorem slotsOf_eq {h : Heap} (hb : h.body base = .array origin slots) :
    Cursor.slotsOf h base = pure slots := by
  have harray : h.array base = .ok (origin, slots) := by
    simp [Heap.array, expect, hb, Body.array?]
  rw [Cursor.slotsOf, harray]

theorem hasMore_array {h : Heap} (hb : h.body base = .array origin slots) (slot : ℕ) :
    Cursor.hasMore (.array base slot) h = pure (decide (slot < slots.length)) := by
  rw [Cursor.hasMore, slotsOf_eq hb]
  rfl

/-- A cursor on an array goes over the slots that it has not come to yet. -/
theorem ensures_drain_array (hb : s.heap.body base = .array origin slots) (slot k : ℕ) :
    Ensures (Cursor.drain k (.array base slot)) s (fun as _ => as = (slots.drop slot).take k)
      fun _ _ => False := by
  induction k generalizing s slot with
  | zero => exact ensures_pure.mpr rfl
  | succ k ih =>
    rw [Cursor.drain]
    refine ensures_bind.mpr (ensures_bind.mpr ?_)
    -- the slots are read again at each step, so the array must stay as it is
    refine (ensures_ask_of_pure (hasMore_array hb slot)).mpr ?_
    by_cases hlt : slot < slots.length
    · rw [decide_eq_true hlt]
      refine ensures_bind.mpr ((ensures_ask_of_pure (slotsOf_eq hb)).mpr ?_)
      rw [List.getElem?_eq_getElem hlt]
      refine ensures_bind.mpr (ensures_share.mpr (ensures_pure.mpr (ensures_bind.mpr ?_)))
      have hshared : (s.heap.retain slots[slot]).body base = .array origin slots :=
        (body_retain ..).trans hb
      refine (ih (s := { s with heap := _ }) hshared (slot + 1)).mono ?_ fun _ _ => id
      rintro as _ rfl
      rw [List.drop_eq_getElem_cons hlt]
      exact ensures_pure.mpr rfl
    · rw [decide_eq_false hlt]
      refine ensures_pure.mpr (ensures_pure.mpr ?_)
      rw [List.drop_eq_nil_of_le (Nat.le_of_not_lt hlt), List.take_nil]

/-- **What a cursor on an array says is right.** -/
theorem foretells_array (hb : s.heap.body base = .array origin slots) (slot : ℕ) :
    s.Foretells (.array base slot) := by
  have hmore : (Cursor.hasMore (.array base slot) s.heap).run s.settled =
      (.ok (decide (0 < slots.length - slot)), s.settled) := by
    rw [hasMore_array hb, decide_eq_decide.mpr (Nat.sub_pos_iff_lt (m := slot)).symm]
    rfl
  have hbounds : (Cursor.sizeHint (.array base slot) s.heap).run s.settled =
      (.ok (slots.length - slot, slots.length - slot), s.settled) := by
    rw [Cursor.sizeHint, slotsOf_eq hb]
    rfl
  refine foretells_of_drain (.array slot hb) hmore hbounds (Nat.le_refl _) (Nat.le_refl _)
    fun k => ?_
  refine (ensures_drain_array hb slot k).mono ?_ fun _ _ => id
  rintro as _ rfl
  rw [List.length_take, List.length_drop]

/-! ### Words -/

/-- The sizes of characters in UTF-8 are added up from the left. -/
theorem foldl_utf8Size (cs : List Char) (n : ℕ) :
    cs.foldl (fun n c => n + c.utf8Size) n = n + (String.ofList cs).utf8ByteSize := by
  induction cs generalizing n with
  | nil => rfl
  | cons c cs ih => rw [List.foldl_cons, ih, Text.utf8ByteSize_ofList_cons, Nat.add_assoc]

/-- A character takes one to four bytes. -/
theorem length_le_utf8ByteSize (cs : List Char) : cs.length ≤ (String.ofList cs).utf8ByteSize ∧
    (String.ofList cs).utf8ByteSize ≤ 4 * cs.length := by
  induction cs with
  | nil => exact ⟨Nat.le_refl _, Nat.le_refl _⟩
  | cons c cs ih =>
    have hpos := c.utf8Size_pos
    have hle := c.utf8Size_le_four
    rw [Text.utf8ByteSize_ofList_cons, List.length_cons]
    omega

/-- **What a cursor on a word says is right.** -/
theorem foretells_word (hb : s.heap.body base = .word w) (taken : ℕ) :
    s.Foretells (.word base taken) := by
  have hmore := Query.run_hasMore_word hb taken s.settled
  rw [decide_eq_decide.mpr (Nat.sub_pos_iff_lt (m := taken)).symm] at hmore
  have hbounds : (Cursor.sizeHint (.word base taken) s.heap).run s.settled =
      (.ok (((String.ofList (w.raw.toList.drop taken)).utf8ByteSize + 3) / 4,
        (String.ofList (w.raw.toList.drop taken)).utf8ByteSize), s.settled.told base w) := by
    rw [Cursor.sizeHint, run_bind, Query.run_charactersOf hb]
    dsimp only
    rw [foldl_utf8Size, Nat.zero_add]
    rfl
  -- a character has one to four bytes, which gives the two bounds
  obtain ⟨hlow, hhigh⟩ := length_le_utf8ByteSize (w.raw.toList.drop taken)
  rw [List.length_drop] at hlow hhigh
  refine foretells_of_drain (.word taken hb) hmore hbounds (by omega) hlow fun k => ?_
  refine (ensures_drain_word hb k taken).mono ?_ fun _ _ => id
  rintro ys t ⟨-, hys⟩
  rw [hys.length_eq, List.length_take, List.length_drop]

end Cursors

end SharedValues
