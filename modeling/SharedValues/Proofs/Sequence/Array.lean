import Mathlib.Data.List.Perm.Basic
import SharedValues.Proofs.Heap.Build
import SharedValues.Proofs.Store
import SharedValues.Sequence.Array

/-!
# Arrays keep what moves keep

The parts of an array are values in its slots or copies of some of the slots, and a change of an
array replaces its slots.

## Main results

* `Kept.row_item`, `Kept.row_copy`, … — the parts of an array.
* `Kept.row_setItem`, `Kept.row_append`, … — the changes.
-/

namespace SharedValues

open Heap Operation

/-! ### Readers -/

theorem Heap.expect_eq_ok {α : Type} {h : Heap} {kind : Kind} {select : Body → Option α} {a : Addr}
    {r : α} (hr : h.expect kind select a = .ok r) : select (h.body a) = some r := by
  unfold Heap.expect at hr
  split at hr
  · next hs => rw [hs, Except.ok.inj hr]
  · exact absurd hr (by simp)

theorem Heap.body_of_array {h : Heap} {x : Addr} {origin : ℤ} {slots : List Addr}
    (hr : h.array x = .ok (origin, slots)) : h.body x = .array origin slots := by
  have hs := expect_eq_ok hr
  revert hs
  cases h.body x <;> simp [Body.array?]

/-- The elements of a list or an array are live. -/
theorem Heap.Exact.live_of_elements {h : Heap} {held : Multiset Addr} (hh : h.Exact held)
    {x a : Addr} (ha : a ∈ (h.elements x).found) : h.Live a := by
  unfold Heap.elements at ha
  split at ha
  · obtain ⟨c, hc, rfl⟩ := List.mem_map.mp ha
    obtain ⟨i, hi⟩ := List.mem_iff_getElem?.mp hc
    obtain ⟨n, hn⟩ := exists_next?_of_kind (nth_of_chain_found hi).2
    obtain ⟨item, hbody⟩ := next?_eq_some_iff.mp hn
    rw [itemOf, hbody]
    exact hh.live_of_mem hbody (by simp [Body.handles, Body.cell?])
  · next hbody => exact hh.live_of_mem hbody ha
  · simp at ha

/-! ### Slots -/

namespace Row

theorem body_of_at? {h : Heap} {x : Addr} {r : Row} (hr : Row.at? h x = .ok r) :
    h.body x = r.body := by
  unfold Row.at? at hr
  cases ha : h.array x with
  | error e =>
    rw [ha] at hr
    exact absurd hr (by simp [bind, Except.bind])
  | ok p =>
    rw [ha] at hr
    obtain rfl := Except.ok.inj hr
    exact body_of_array ha

theorem at?_of_body {h : Heap} {x : Addr} {r : Row} (hx : h.body x = r.body) :
    Row.at? h x = .ok r := by
  rw [Row.at?, array, expect, hx]
  rfl

/-- The difference is right if there is one. -/
theorem checkedSub_eq_some_iff {a b d : ℤ} :
    checkedSub a b = some d ↔ d = a - b ∧ -2 ^ 63 ≤ d ∧ d < 2 ^ 63 := by
  have hbound : ((1 <<< 63 : ℕ) : ℤ) = 2 ^ 63 := by decide
  unfold checkedSub
  dsimp only
  rw [hbound]
  split
  · next hbounds =>
    rw [Option.some_inj]
    constructor
    · rintro rfl
      exact ⟨rfl, hbounds⟩
    · exact fun hd => hd.1.symm
  · next hbounds =>
    constructor
    · exact fun hnone => absurd hnone (by simp)
    · rintro ⟨rfl, hd⟩
      exact absurd hd hbounds

/-- An index means a slot if the difference to the origin does. -/
theorem slotOf?_eq_some_iff {r : Row} {index : ℤ} {n : ℕ} :
    r.slotOf? index = some n ↔ index - r.origin = n ∧ n < r.slots.length ∧ (n : ℤ) < 2 ^ 63 := by
  unfold slotOf?
  rw [Option.bind_eq_bind, Option.bind_eq_some_iff]
  constructor
  · rintro ⟨d, hd, hn⟩
    obtain ⟨rfl, -, hlt⟩ := checkedSub_eq_some_iff.mp hd
    split at hn
    · next hrange =>
      obtain rfl := Option.some.inj hn
      omega
    · exact absurd hn (by simp)
  -- a slot is no less than zero, so only the upper end of the difference is left to check
  · rintro ⟨hd, hlt, hmax⟩
    refine ⟨n, checkedSub_eq_some_iff.mpr ⟨hd.symm, ?_, hmax⟩, ?_⟩
    · omega
    · rw [if_pos (by omega), Int.toNat_natCast]

theorem slotAt_eq_ok {r : Row} {index : ℤ} {slot : ℕ} {value : Addr}
    (hs : r.slotAt index = .ok (slot, value)) : r.slots[slot]? = some value := by
  unfold slotAt at hs
  split at hs
  · next n hn =>
    obtain ⟨rfl, rfl⟩ := Prod.mk.inj (Except.ok.inj hs)
    obtain ⟨-, hlt, -⟩ := slotOf?_eq_some_iff.mp hn
    simp [hlt]
  · exact absurd hs (by simp)

theorem someSlots_eq_ok {op : Op} {r : Row} {slots : List Addr}
    (hs : r.someSlots op = .ok slots) : slots = r.slots ∧ slots ≠ [] := by
  unfold someSlots at hs
  split at hs
  · exact absurd hs (by simp)
  · next hne =>
    obtain rfl := Except.ok.inj hs
    exact ⟨rfl, by simpa using hne⟩

end Row

/-! ### Parts and changes -/

namespace Kept

variable {A : Set Act} {F : Multiset Addr → Heap → Prop} {held : Multiset Addr} {s : Store}
  {x value : Addr} {r : Row}

theorem share (hF : Kept A F) (hh : F held s.heap) (hx : s.heap.Live x) :
    Yields F held (Operation.share x) s :=
  ensures_share.mpr (hF.retain hh hx)

theorem create_yields (hF : Kept A F) {body : Body} (hh : F held s.heap)
    (hlive : ∀ a ∈ body.handles, s.heap.Live a) (hfresh : s.heap.Fresh body) :
    Yields F held (Operation.create body) s :=
  ensures_create.mpr (hF.create hh hlive hfresh)

/-- A copy of some slots. -/
theorem row_copy (hF : Kept A F) (hh : F held s.heap) (hx : s.heap.body x = r.body)
    {slots : List Addr} (hslots : slots ⊆ r.slots) : Yields F held (r.copy slots) s :=
  hF.create_yields hh (fun _ ha => (hF.exact hh).live_of_mem hx (hslots ha))
    (.of_kind (by simp [Row.body, Body.kind]) (by simp [Row.body, Body.kind]))

theorem row_item (hF : Kept A F) (hh : F held s.heap) (hx : s.heap.body x = r.body) (index : ℤ) :
    Yields F held (r.item index) s := by
  refine ensures_bind.mpr (ensures_check ?_ fun _ _ => hh)
  rintro ⟨slot, value⟩ hslot
  exact hF.share hh ((hF.exact hh).live_of_mem hx (List.mem_of_getElem? (Row.slotAt_eq_ok hslot)))

theorem row_first (hF : Kept A F) (hh : F held s.heap) : Yields F held r.first s :=
  ensures_make.mpr (hF.number hh _)

theorem row_last (hF : Kept A F) (hh : F held s.heap) (hx : s.heap.body x = r.body) :
    Yields F held r.last s := by
  refine ensures_bind.mpr (ensures_check ?_ fun _ _ => hh)
  intro slots hslots
  obtain ⟨rfl, hne⟩ := Row.someSlots_eq_ok hslots
  refine hF.share hh ((hF.exact hh).live_of_mem hx ?_)
  rw [List.getLastD_eq_getLast?, List.getLast?_eq_some_getLast hne]
  exact List.getLast_mem hne

theorem row_part (hF : Kept A F) (hh : F held s.heap) (hx : s.heap.body x = r.body)
    (start stop : ℕ) : Yields F held (r.part start stop) s := by
  unfold Row.part
  split
  · exact hF.row_copy hh hx fun _ ha => List.take_subset _ _ (List.drop_subset _ _ ha)
  · exact ensures_throw.mpr hh

theorem row_butFirst (hF : Kept A F) (hh : F held s.heap) (hx : s.heap.body x = r.body) :
    Yields F held r.butFirst s :=
  ensures_bind.mpr (ensures_check (fun _ _ => hF.row_part hh hx 1 _) fun _ _ => hh)

theorem row_butLast (hF : Kept A F) (hh : F held s.heap) (hx : s.heap.body x = r.body) :
    Yields F held r.butLast s :=
  ensures_bind.mpr (ensures_check (fun _ _ => hF.row_part hh hx 0 _) fun _ _ => hh)

theorem row_fromMember (hF : Kept A F) (hh : F held s.heap) (hx : s.heap.body x = r.body)
    (ignoreCase : Bool) : Yields F held (r.fromMember ignoreCase x value) s := by
  refine ensures_bind.mpr ((reads_ask _).ensures ?_ fun _ t ht => ht ▸ hh)
  intro i t ht
  exact hF.row_copy (ht ▸ hh) (ht ▸ hx) (List.drop_subset _ _)

/-- Another value in a slot: the array's handle to the old one is given up. -/
theorem row_setSlot (hF : Kept A F) (hfill : .fill ∈ A) (hh : F held s.heap)
    (hx : s.heap.body x = r.body) (hvalue : s.heap.Live value) {slot : ℕ} {old : Addr}
    (hold : r.slots[slot]? = some old) : Keeps F held (r.setSlot x slot value old) s := by
  have hperm : (r.slots.set slot value : Multiset Addr) + {old}
      = (r.slots : Multiset Addr) + {value} := by
    have hset := List.getD_set_perm_cons r.slots slot value
    rw [hold, Option.getD_some] at hset
    rw [← Multiset.coe_eq_coe, ← Multiset.cons_coe, ← Multiset.cons_coe,
      ← Multiset.singleton_add, ← Multiset.singleton_add] at hset
    rw [add_comm, hset, add_comm]
  refine ensures_alter.mpr (hF.release ?_)
  refine hF.move hfill (.slots ((body_retain ..).trans hx) ?_)
    (hF.retain hh hvalue)
  calc held + {old} + (r.slots.set slot value : Multiset Addr)
      = held + ((r.slots.set slot value : Multiset Addr) + {old}) := by abel
    _ = held + {value} + (r.slots : Multiset Addr) := by rw [hperm]; abel

theorem row_setItem (hF : Kept A F) (hfill : .fill ∈ A) (hh : F held s.heap)
    (hx : s.heap.body x = r.body) (hvalue : s.heap.Live value) (index : ℤ) :
    Keeps F held (r.setItem x index value) s := by
  refine ensures_bind.mpr (ensures_check ?_ fun _ _ => hh)
  rintro ⟨slot, old⟩ hslot
  exact hF.row_setSlot hfill hh hx hvalue (Row.slotAt_eq_ok hslot)

theorem row_setFirst (hF : Kept A F) (hfill : .fill ∈ A) (hh : F held s.heap)
    (hx : s.heap.body x = r.body) (hvalue : s.heap.Live value) :
    Keeps F held (r.setFirst x value) s := by
  refine ensures_bind.mpr (ensures_check ?_ fun _ _ => hh)
  intro slots hslots
  obtain ⟨rfl, hne⟩ := Row.someSlots_eq_ok hslots
  obtain ⟨old, rest, hcons⟩ := List.exists_cons_of_ne_nil hne
  refine hF.row_setSlot hfill hh hx hvalue ?_
  rw [hcons]
  rfl

theorem row_setButFirst (hF : Kept A F) (hfill : .fill ∈ A) (hh : F held s.heap)
    (hx : s.heap.body x = r.body) : Keeps F held (r.setButFirst x value) s := by
  refine ensures_bind.mpr (ensures_demand ?_ fun _ _ => hh)
  intro rest hrest
  refine ensures_bind.mpr (ensures_check ?_ fun _ _ => hh)
  intro slots hslots
  obtain ⟨rfl, hne⟩ := Row.someSlots_eq_ok hslots
  refine ensures_alter.mpr (hF.releaseAll _ ?_)
  -- the slots of the other array are live as long as it holds them
  have hretained := hF.retainAll hh fun a ha =>
    (hF.exact hh).live_of_mem (Row.body_of_at? hrest) ha
  refine hF.move hfill (.slots ((body_retainAll ..).trans hx) ?_) hretained
  -- the first slot stays in front, so the counts change behind it only
  obtain ⟨old, slots, hcons⟩ := List.exists_cons_of_ne_nil hne
  rw [hcons]
  simp only [List.take_succ_cons, List.take_zero, List.tail_cons, List.cons_append,
    List.nil_append, ← Multiset.cons_coe, ← Multiset.singleton_add]
  abel

theorem row_append (hF : Kept A F) (hfill : .fill ∈ A) (hh : F held s.heap)
    (hx : s.heap.body x = r.body) (hvalue : s.heap.Live value) :
    Keeps F held (r.append x value) s := by
  refine ensures_alter.mpr (hF.move hfill (.slots
    ((body_retain ..).trans hx) ?_) (hF.retain hh hvalue))
  rw [← Multiset.coe_add, Multiset.coe_singleton]
  abel

theorem row_ofElements (hF : Kept A F) (hh : F held s.heap) (origin : ℤ) :
    Yields F held (Row.ofElements origin x) s := by
  refine ensures_bind.mpr (ensures_look.mpr ?_)
  split
  · exact ensures_throw.mpr hh
  · exact hF.create_yields hh (fun _ ha => (hF.exact hh).live_of_elements ha)
      (.of_kind (by simp [Row.body, Body.kind]) (by simp [Row.body, Body.kind]))

end Kept

end SharedValues
