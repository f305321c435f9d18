import SharedValues.Proofs.Chain.Shared
import SharedValues.Proofs.Session.Run

/-!
# Indices of an array

An index is counted from the origin before it is compared with the number of slots.  The difference
of two integers of 64 bits need not be one of 64 bits, and if it is not then the index is out of
range.  No index that means a slot is lost by that, however far from zero the origin is, because no
array has more than `2 ^ 63` slots.

The arrays that are made from one are copies of some of its slots and keep its origin, so an index
means another slot in all the slots but the first.

## Main definitions

* `Store.Indexes` — the indices of an array mean its slots, in order.

## Main results

* `Row.slotOf?_of_inRange`, `Row.slotOf?_of_not_inRange` — the conversion is exact.
* `array_indexing` — what can be asked of an array by its indices, and how it is changed.
-/

namespace SharedValues

open Heap Operation

/-! ### The conversion of an index -/

namespace Row

variable {r : Row} {index : ℤ}

/-- The index is that of a slot, by integers of any size. -/
def Holds (r : Row) (index : ℤ) : Prop := r.origin ≤ index ∧ index < r.origin + r.slots.length

instance (r : Row) (index : ℤ) : Decidable (r.Holds index) := inferInstanceAs (Decidable (_ ∧ _))

/-- **No slot is out of reach**: the difference of its index and the origin is one of 64 bits. -/
theorem slotOf?_of_holds (hsize : r.slots.length ≤ 2 ^ 63) (hindex : r.Holds index) :
    r.slotOf? index = some (index - r.origin).toNat := by
  obtain ⟨hlow, hhigh⟩ := hindex
  refine slotOf?_eq_some_iff.mpr ⟨?_, ?_, ?_⟩ <;> omega

/-- No other index means a slot, whether the difference is one of 64 bits or not. -/
theorem slotOf?_of_not_holds (hindex : ¬r.Holds index) : r.slotOf? index = none := by
  cases hslot : r.slotOf? index with
  | none => rfl
  | some n =>
    obtain ⟨hdiff, hlt, -⟩ := slotOf?_eq_some_iff.mp hslot
    exact absurd ⟨by omega, by omega⟩ hindex

theorem inRange_eq (hsize : r.slots.length ≤ 2 ^ 63) (index : ℤ) :
    r.inRange index = decide (r.Holds index) := by
  unfold inRange
  by_cases hindex : r.Holds index
  · rw [slotOf?_of_holds hsize hindex, decide_eq_true hindex, Option.isSome_some]
  · rw [slotOf?_of_not_holds hindex, decide_eq_false hindex, Option.isSome_none]

theorem getElem?_of_holds (hindex : r.Holds index) :
    r.slots[(index - r.origin).toNat]? = some (r.slots.getD (index - r.origin).toNat 0) := by
  obtain ⟨hlow, hhigh⟩ := hindex
  have hlt : (index - r.origin).toNat < r.slots.length := by omega
  rw [List.getD_eq_getElem?_getD, List.getElem?_eq_getElem hlt, Option.getD_some]

theorem slotAt_of_holds (hsize : r.slots.length ≤ 2 ^ 63) (hindex : r.Holds index) :
    r.slotAt index = .ok ((index - r.origin).toNat, r.slots.getD (index - r.origin).toNat 0) := by
  rw [slotAt, slotOf?_of_holds hsize hindex]

theorem slotAt_of_not_holds (hindex : ¬r.Holds index) :
    r.slotAt index = .error (.refused (.outOfRange .array index r.slots.length)) := by
  rw [slotAt, slotOf?_of_not_holds hindex]

end Row

/-! ### Elements -/

variable {s : Store} {held : Multiset Addr} {x y value : Addr} {r r' : Row} {index : ℤ}

/-- **The indices of an array mean its slots**, in order, and all others are refused. -/
structure Store.Indexes (s : Store) (x : Addr) (r : Row) : Prop where
  /-- Which indices mean a slot. -/
  inRange : ∀ index, Sequence.inRange x index s.heap = pure (decide (r.Holds index))
  /-- The element at an index is in the slot that it means. -/
  item : ∀ index, r.Holds index → ∃ a, r.slots[(index - r.origin).toNat]? = some a ∧
    ((Sequence.item x index).run s).1 = .ok a
  /-- There is no element at another index. -/
  refused : ∀ index, ¬r.Holds index → (Sequence.item x index).run s =
    (.error (.refused (.outOfRange .array index r.slots.length)), s)

theorem run_row_item (hx : s.heap.body x = r.body) (index : ℤ) :
    (Sequence.item x index).run s = (r.item index).run s := by
  rw [Sequence.item, run_look_bind, hx]
  rfl

theorem Row.run_item_of_holds (hsize : r.slots.length ≤ 2 ^ 63) (hindex : r.Holds index) :
    ((r.item index).run s).1 = .ok (r.slots.getD (index - r.origin).toNat 0) := by
  rw [Row.item, run_bind, run_check, r.slotAt_of_holds hsize hindex]
  rfl

theorem Row.run_item_of_not_holds (hindex : ¬r.Holds index) : (r.item index).run s =
    (.error (.refused (.outOfRange .array index r.slots.length)), s) := by
  rw [Row.item, run_bind, run_check, r.slotAt_of_not_holds hindex]

theorem indexes_of_body (hx : s.heap.body x = r.body) (hsize : r.slots.length ≤ 2 ^ 63) :
    s.Indexes x r where
  inRange index := by
    rw [Sequence.inRange, hx, ← r.inRange_eq hsize index]
    rfl
  item index hindex := by
    rw [run_row_item hx]
    exact ⟨_, r.getElem?_of_holds hindex, r.run_item_of_holds hsize hindex⟩
  refused index hindex := by
    rw [run_row_item hx]
    exact r.run_item_of_not_holds hindex

/-! ### Changes -/

/-- **An array has other slots**, and no other block has another content. -/
structure Heap.Refilled (h g : Heap) (x : Addr) (r : Row) : Prop where
  /-- The array as it is now. -/
  body : g.body x = r.body
  /-- Nothing else has been written. -/
  rewritten : h.Rewritten g x none

namespace Heap

variable {h : Heap}

theorem Rewritten.slots (hx : h.kind x = .array) (r : Row) :
    h.Rewritten (h.setBody x r.body) x none where
  size_le := (size_blocks_modify ..).ge
  live _ := live_modify.mp
  marks := marks_modify fun _ => ⟨rfl, rfl⟩
  list _ _ hlist := by
    rw [hx] at hlist
    exact absurd hlist (by decide)
  body_eq _ _ hax := body_setBody_of_ne hax _

/-- Handles are taken, the slots are written, and handles are given up. -/
theorem refilled_of_live (hx : h.body x = r.body) (taken given : List Addr)
    (hlive : (((h.retainAll taken).setBody x r'.body).releaseAll given).Live x) :
    h.Refilled (((h.retainAll taken).setBody x r'.body).releaseAll given) x r' where
  body := by
    rw [(releaseAll_thins _ given).body_eq hlive, body_setBody]
    exact live_of_body ((body_retainAll ..).trans hx) (by simp [Row.body])
  rewritten := by
    have hretained : (h.retainAll taken).body x = r.body := (body_retainAll ..).trans hx
    have hkind : (h.retainAll taken).kind x = .array := by rw [kind, hretained]; rfl
    have htaken : h.Rewritten (h.retainAll taken) x none :=
      ((Grown.refl h).retainAll taken).rewritten x
    exact (htaken.also (.slots hkind r')).also (.of_thins (releaseAll_thins ..))

end Heap

theorem run_row_setItem (hx : s.heap.body x = r.body) (index : ℤ) :
    (Sequence.setItem x index value).run s = (r.setItem x index value).run s := by
  rw [Sequence.setItem, run_look_bind, hx]
  rfl

/-- **One slot gets another value.** -/
theorem Heap.Exact.refilled_setItem (hh : s.heap.Exact held) (hheld : x ∈ held)
    (hx : s.heap.body x = r.body) (hsize : r.slots.length ≤ 2 ^ 63) (hvalue : s.heap.Live value)
    (hindex : r.Holds index) :
    ∃ t, (r.setItem x index value).run s = (.ok (), t) ∧
      s.heap.Refilled t.heap x { r with slots := r.slots.set (index - r.origin).toNat value } := by
  have hslot := r.slotAt_of_holds hsize hindex
  have hexact : Ensures (r.setItem x index value) s (fun _ t => t.heap.Exact held) _ :=
    kept_exact.row_setItem (Set.mem_univ _) hh hx hvalue index
  have hends : Ensures (r.setItem x index value) s (fun _ t => s.heap.Refilled t.heap x
      { r with slots := r.slots.set (index - r.origin).toNat value }) fun _ _ => False := by
    rw [Row.setItem, ensures_bind, ensures_check_of_ok hslot] at hexact ⊢
    exact ensures_alter.mpr (refilled_of_live hx [value] [_]
      ((ensures_alter.mp hexact).live_of_held hheld))
  obtain ⟨_, t, hrun, ht⟩ := hends.exists_ok
  exact ⟨t, hrun, ht⟩

theorem Row.run_setItem_of_not_holds (hindex : ¬r.Holds index) :
    (r.setItem x index value).run s =
      (.error (.refused (.outOfRange .array index r.slots.length)), s) := by
  rw [Row.setItem, run_bind, run_check, r.slotAt_of_not_holds hindex]

theorem Row.someSlots_of_ne_nil (hne : r.slots ≠ []) (op : Op) : r.someSlots op = .ok r.slots := by
  rw [someSlots, if_neg (by simpa using hne)]

/-- **The first slot is followed by the slots of another array**, which are read before any of them
is given up. -/
theorem Heap.Exact.refilled_setButFirst (hh : s.heap.Exact held) (hheld : x ∈ held)
    (hx : s.heap.body x = r.body) (hy : s.heap.body y = r'.body) (hne : r.slots ≠ []) :
    ∃ t, (Sequence.setButFirst x y).run s = (.ok (), t) ∧
      s.heap.Refilled t.heap x { r with slots := r.slots.head hne :: r'.slots } := by
  have hslots : r.slots.take 1 ++ r'.slots = r.slots.head hne :: r'.slots := by
    rw [List.take_one, List.head?_eq_some_head hne]
    rfl
  have hrun : (Sequence.setButFirst x y).run s = (r.setButFirst x y).run s := by
    rw [Sequence.setButFirst, run_look_bind, hx]
    rfl
  have hexact : Ensures (r.setButFirst x y) s (fun _ t => t.heap.Exact held) _ :=
    kept_exact.row_setButFirst (Set.mem_univ _) hh hx
  have hends : Ensures (r.setButFirst x y) s (fun _ t => s.heap.Refilled t.heap x
      { r with slots := r.slots.head hne :: r'.slots }) fun _ _ => False := by
    -- the counts after the change tell that the array itself is still held
    rw [Row.setButFirst, ensures_bind, ensures_demand_of_ok (Row.at?_of_body hy), ensures_bind,
      ensures_check_of_ok (r.someSlots_of_ne_nil hne _), hslots] at hexact ⊢
    exact ensures_alter.mpr (refilled_of_live hx r'.slots r.slots.tail
      ((ensures_alter.mp hexact).live_of_held hheld))
  obtain ⟨_, t, hend, ht⟩ := hends.exists_ok
  exact ⟨t, hrun.trans hend, ht⟩

/-! ### Copies of some slots -/

/-- **The array `y` is a copy** of slots of the array `x`, with the same origin, and an index means
in it what the index that is larger by `shift` means in `x`.  Indices are integers of any size here:
if the origin is above zero, the larger one may be `2 ^ 63`, the first that is none of 64 bits and so
cannot be asked for, though it means a slot of `x`. -/
structure Store.Copied (s t : Store) (x y : Addr) (r : Row) (shift : ℤ) : Prop where
  /-- The copy is the one new block, and no block has changed. -/
  grown : s.heap.Grown t.heap [y]
  /-- The slots of the copy. -/
  body : t.heap.body y = r.body
  /-- The same element is at both indices. -/
  item : ∀ index, r.Holds index → ∃ a, ((Sequence.item y index).run t).1 = .ok a ∧
    ((Sequence.item x (index + shift)).run t).1 = .ok a

/-- A part of an array, by the numbers of its slots. -/
theorem copied_part (hx : s.heap.body x = r.body) (hsize : r.slots.length ≤ 2 ^ 63) {start stop : ℕ}
    (hle : start ≤ stop) (hstop : stop ≤ r.slots.length) :
    ∃ y t, (r.part start stop).run s = (.ok y, t) ∧
      s.Copied t x y { r with slots := (r.slots.take stop).drop start } start := by
  set r' : Row := { r with slots := (r.slots.take stop).drop start }
  have hends : Ensures (r.part start stop) s (fun y t => s.heap.Grown t.heap [y] ∧
      t.heap.body y = r'.body) fun _ _ => False := by
    rw [Row.part, if_pos ⟨hle, hstop⟩]
    exact ensures_create.mpr
      ⟨((Grown.refl s.heap).retainAll _).alloc _, (body_alloc ..).trans (if_pos rfl)⟩
  obtain ⟨y, t, hrun, hgrown, hy⟩ := hends.exists_ok
  refine ⟨y, t, hrun, hgrown, hy, ?_⟩
  intro index hindex
  have hslots : r'.slots = (r.slots.take stop).drop start := rfl
  have hlength : r'.slots.length = stop - start := by
    rw [hslots, List.length_drop, List.length_take, Nat.min_eq_left hstop]
  obtain ⟨hlow, hhigh⟩ := hindex
  have hx' : t.heap.body x = r.body :=
    (hgrown.body_eq (live_of_body hx (by simp [Row.body]))).trans hx
  have hfit : r'.slots.length ≤ 2 ^ 63 := by omega
  have horigin : r'.origin = r.origin := rfl
  -- the slots of the copy are those of the array from `start` on
  obtain ⟨a, ha, hitem⟩ := (indexes_of_body hy hfit).item index ⟨hlow, hhigh⟩
  obtain ⟨b, hb, hitem'⟩ := (indexes_of_body hx' hsize).item (index + start)
    ⟨by omega, by omega⟩
  have hsame : r'.slots[(index - r'.origin).toNat]?
      = r.slots[(index + start - r.origin).toNat]? := by
    have hslot : start + (index - r'.origin).toNat = (index + start - r.origin).toNat := by omega
    have hlt : (index + start - r.origin).toNat < stop := by omega
    rw [hslots, List.getElem?_drop, hslot, List.getElem?_take_of_lt hlt]
  rw [← hsame, ha] at hb
  obtain rfl := Option.some.inj hb
  exact ⟨a, hitem, hitem'⟩

theorem copied_butFirst (hx : s.heap.body x = r.body) (hsize : r.slots.length ≤ 2 ^ 63)
    (hne : r.slots ≠ []) : ∃ y t, (Sequence.butFirst x).run s = (.ok y, t) ∧
      s.Copied t x y { r with slots := r.slots.tail } 1 := by
  have hrun : (Sequence.butFirst x).run s = (r.part 1 r.slots.length).run s := by
    rw [Sequence.butFirst, run_look_bind, hx]
    show (r.butFirst).run s = _
    rw [Row.butFirst, run_bind, run_check, r.someSlots_of_ne_nil hne]
  obtain ⟨y, t, hpart, hcopied⟩ := copied_part hx hsize
    (Nat.one_le_iff_ne_zero.mpr fun hzero => hne (List.eq_nil_of_length_eq_zero hzero)) le_rfl
  rw [List.take_length, List.drop_one] at hcopied
  exact ⟨y, t, hrun.trans hpart, hcopied⟩

theorem copied_butLast (hx : s.heap.body x = r.body) (hsize : r.slots.length ≤ 2 ^ 63)
    (hne : r.slots ≠ []) : ∃ y t, (Sequence.butLast x).run s = (.ok y, t) ∧
      s.Copied t x y { r with slots := r.slots.dropLast } 0 := by
  have hrun : (Sequence.butLast x).run s = (r.part 0 (r.slots.length - 1)).run s := by
    rw [Sequence.butLast, run_look_bind, hx]
    show (r.butLast).run s = _
    rw [Row.butLast, run_bind, run_check, r.someSlots_of_ne_nil hne]
  obtain ⟨y, t, hpart, hcopied⟩ := copied_part hx hsize (Nat.zero_le _) (Nat.sub_le _ 1)
  rw [List.drop_zero, ← List.dropLast_eq_take] at hcopied
  exact ⟨y, t, hrun.trans hpart, hcopied⟩

/-- **The indices of an array are exact**, wherever its origin is.  An index means a slot exactly if
it is, in the integers, the origin or above it, by less than there are slots.  Then the value in
that slot is read, or replaced and no other; any other index is refused, and nothing happens.  If
there are slots, all but the first and all but the last can be copied, with the same origin, and the
slots behind the first can be replaced by those of any array, even by its own.  No array has more
than `2 ^ 63` slots.  Indices are integers of any size here, so all of this holds of those of 64 bits
in particular; only the index in `x` that is larger by one than an index in a copy may be `2 ^ 63`,
which no client can ask for. -/
theorem array_indexing (hh : s.heap.Exact held) (hheld : x ∈ held) (hx : s.heap.body x = r.body)
    (hsize : r.slots.length ≤ 2 ^ 63) :
    s.Indexes x r ∧
    (∀ value, s.heap.Live value → ∀ index,
      (r.Holds index → ∃ t, (Sequence.setItem x index value).run s = (.ok (), t) ∧
        s.heap.Refilled t.heap x
          { r with slots := r.slots.set (index - r.origin).toNat value }) ∧
      (¬r.Holds index → (Sequence.setItem x index value).run s =
        (.error (.refused (.outOfRange .array index r.slots.length)), s))) ∧
    ∀ hne : r.slots ≠ [],
      (∃ y t, (Sequence.butFirst x).run s = (.ok y, t) ∧
        s.Copied t x y { r with slots := r.slots.tail } 1) ∧
      (∃ y t, (Sequence.butLast x).run s = (.ok y, t) ∧
        s.Copied t x y { r with slots := r.slots.dropLast } 0) ∧
      ∀ y r', s.heap.body y = Row.body r' →
        ∃ t, (Sequence.setButFirst x y).run s = (.ok (), t) ∧
          s.heap.Refilled t.heap x { r with slots := r.slots.head hne :: r'.slots } := by
  refine ⟨indexes_of_body hx hsize, ?_, ?_⟩
  · intro value hvalue index
    rw [run_row_setItem hx]
    exact ⟨hh.refilled_setItem hheld hx hsize hvalue, r.run_setItem_of_not_holds⟩
  · intro hne
    refine ⟨copied_butFirst hx hsize hne, copied_butLast hx hsize hne, ?_⟩
    intro y r' hy
    exact hh.refilled_setButFirst hheld hx hy hne

/-- An array at the lower end of the integers of 64 bits.  Its second slot is the one above the end,
the index at the upper end is refused although the difference is none of 64 bits, and the array may
be put behind its own first slot. -/
theorem array_at_lower_end :
    let u := (Session.run [
      .make (.array (-2 ^ 63) [.text "a" false, .text "b" false]) ⟨some "x", true⟩] {}).2
    let s := u.store
    s.heap.Live 1 ∧
      ((Sequence.item 2 (-2 ^ 63 + 1)).run s).1 = .ok 1 ∧
      (Sequence.item 2 (2 ^ 63 - 1)).run s =
        (.error (.refused (.outOfRange .array (2 ^ 63 - 1) 2)), s) ∧
      (∃ t, (Sequence.setItem 2 (-2 ^ 63) 1).run s = (.ok (), t) ∧
        t.heap.body 2 = .array (-2 ^ 63) [1, 1]) ∧
      (∃ y t, (Sequence.butFirst 2).run s = (.ok y, t) ∧
        t.heap.body y = .array (-2 ^ 63) [1]) ∧
      ∃ t, (Sequence.setButFirst 2 2).run s = (.ok (), t) ∧
        t.heap.body 2 = .array (-2 ^ 63) [0, 0, 1] := by
  intro u s
  have hname : u.value? "x" = some 2 := by decide +kernel
  have hbody : s.heap.body 2 = Row.body ⟨-2 ^ 63, [0, 1]⟩ ∧
      s.heap.body 1 = .word (.text "b" false) := by decide +kernel
  obtain ⟨hbody, hb⟩ := hbody
  have hlive : s.heap.Live 1 := live_of_body hb (by simp)
  have hheld : ∃ held, s.heap.Exact held ∧ 2 ∈ held :=
    ⟨u.held, Session.exact_run _, Session.mem_held_of_value? hname⟩
  clear_value s
  obtain ⟨held, hexact, hheld⟩ := hheld
  obtain ⟨hindexes, hset, hparts⟩ := array_indexing hexact hheld hbody (by decide)
  obtain ⟨⟨y, t, hrest, hcopied⟩, -, hfill⟩ := hparts (by decide)
  have hitem := hindexes.item (-2 ^ 63 + 1) (by decide)
  have hput := (hset 1 hlive (-2 ^ 63)).1 (by decide)
  -- an array can be put behind its own first slot: its slots are read before they change
  have hbehind := hfill 2 _ hbody
  refine ⟨hlive, ?_, hindexes.refused _ (by decide), ?_, ⟨y, t, hrest, hcopied.body⟩, ?_⟩
  · obtain ⟨a, ha, hrun⟩ := hitem
    obtain rfl : 1 = a := Option.some.inj ha
    exact hrun
  · obtain ⟨t, hrun, ht⟩ := hput
    exact ⟨t, hrun, ht.body⟩
  · obtain ⟨t, hrun, ht⟩ := hbehind
    exact ⟨t, hrun, ht.body⟩

end SharedValues
