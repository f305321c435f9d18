import Mathlib.Algebra.BigOperators.Group.Multiset.Basic
import Mathlib.Tactic.Abel
import SharedValues.Heap.Release

/-!
# Exact reference counts

The count of a block is meant to be the number of handles to it.  The handles stored in blocks can
be read off the heap; the ones held outside of it cannot, so every statement about counts names
them, as a multiset.

While a release is under way, blocks that have been taken out of the heap are not yet counted out
of its number of live blocks.  `Balanced` takes their number as an argument; between two operations
it is zero.

## Main definitions

* `Heap.total w` — a weight summed over all blocks.
* `Heap.stored`, `Heap.occupied` — the handles stored in blocks, the number of blocks.
* `Heap.Balanced` — the counts are exact, with handles held outside and blocks not yet counted out.
* `Heap.Grounded` — the permanent blocks are where the heap says they are.
* `Heap.Exact` — the counts are exact and nothing is under way.

## Main results

* `Balanced.alloc`, `Balanced.retain`, `Balanced.uncount`, `Balanced.remove`, `Balanced.setBody` —
  what each elementary step does to the handles held outside.
-/

namespace SharedValues.Heap

/-! ### Sums over the blocks -/

/-- A weight summed over all blocks that have not been freed. -/
def total {M : Type} [AddCommMonoid M] (w : Block → M) (h : Heap) : M :=
  (h.blocks.toList.map (·.elim 0 w)).sum

/-- The handles stored in blocks, each as often as it is stored. -/
def stored (h : Heap) : Multiset Addr := h.total fun b => (b.body.handles : Multiset Addr)

/-- The number of blocks that have not been freed. -/
def occupied (h : Heap) : ℕ := h.total fun _ => 1

theorem coe_pair (a b : Addr) : (([a, b] : List Addr) : Multiset Addr) = {a} + {b} := rfl

/-- The handles in a list are the one to its first cell and those of its parsed form. -/
theorem coe_handles_list (l : ListHeader) :
    ((Body.list l).handles : Multiset Addr) = {l.head} + (l.parsed : Multiset Addr) := rfl

/-- The handles in a cell are the one to the element and the one to the next link. -/
theorem coe_handles_cell (item next : Addr) :
    ((Body.cell item next).handles : Multiset Addr) = {item} + {next} := rfl

/-- Changing one entry of a list changes a sum over the list by the difference of its weights. -/
private theorem sum_map_modify_add {α M : Type} [AddCommMonoid M] (w : α → M) (f : α → α) :
    ∀ (l : List α) (i : ℕ) {x : α}, l[i]? = some x →
      ((l.modify i f).map w).sum + w x = (l.map w).sum + w (f x)
  | [], _, _, hx => by simp at hx
  | y :: l, 0, x, hx => by
    obtain rfl : y = x := by simpa using hx
    simp only [List.modify_zero_cons, List.map_cons, List.sum_cons]
    abel
  | y :: l, i + 1, x, hx => by
    have ih := sum_map_modify_add w f l i (x := x) (by simpa using hx)
    simp only [List.modify_succ_cons, List.map_cons, List.sum_cons, add_assoc, ih]

section Total

variable {M : Type} [AddCommMonoid M] (w : Block → M) {h : Heap} {a : Addr} {b : Block}

theorem total_modify (f : Block → Block) (hb : h.block? a = some b) :
    (h.modify a f).total w + w b = h.total w + w (f b) := by
  have := sum_map_modify_add (fun o : Option Block => o.elim 0 w) (Option.map f)
    h.blocks.toList a (getElem?_blocks hb)
  simpa [total, modify, Array.toList_modify] using this

theorem total_remove (hb : h.block? a = some b) : (h.remove a).total w + w b = h.total w := by
  have := sum_map_modify_add (fun o : Option Block => o.elim 0 w) (fun _ => none)
    h.blocks.toList a (getElem?_blocks hb)
  simpa [total, remove, Array.toList_modify] using this

theorem total_alloc (h : Heap) (body : Body) (permanent : Bool) :
    (h.alloc body permanent).2.total w = h.total w + w { body, permanent } := by
  simp [total, alloc]

end Total

/-- Changing a block that is not there changes nothing. -/
theorem modify_of_none {h : Heap} {a : Addr} (hb : h.block? a = none) (f : Block → Block) :
    h.modify a f = h := by
  have hblocks : h.blocks.modify a (·.map f) = h.blocks := by
    apply Array.ext_getElem?
    intro i
    rw [Array.getElem?_modify]
    split
    · next hi =>
      subst hi
      cases ho : h.blocks[a]? with
      | none => rfl
      | some o => cases o <;> simp_all [block?]
    · rfl
  simp only [modify, hblocks]

/-- A change that keeps the weight of every block keeps their sum. -/
theorem total_modify_of_eq {M : Type} [AddCommMonoid M] [IsCancelAdd M] (w : Block → M)
    (h : Heap) (a : Addr) (f : Block → Block) (hf : ∀ b, w (f b) = w b) :
    (h.modify a f).total w = h.total w := by
  cases hb : h.block? a with
  | none => rw [modify_of_none hb]
  | some b =>
    have := total_modify w f hb
    rw [hf b] at this
    exact add_right_cancel this

@[simp] theorem stored_retain (h : Heap) (a : Addr) : (h.retain a).stored = h.stored :=
  total_modify_of_eq _ h a _ fun _ => rfl

@[simp] theorem stored_uncount (h : Heap) (a : Addr) : (h.uncount a).stored = h.stored :=
  total_modify_of_eq _ h a _ fun _ => rfl

@[simp] theorem stored_freeze (h : Heap) (a : Addr) : (h.freeze a).stored = h.stored :=
  total_modify_of_eq _ h a _ fun _ => rfl

@[simp] theorem stored_countOut (h : Heap) : h.countOut.stored = h.stored := rfl

@[simp] theorem stored_alloc (h : Heap) (body : Body) (permanent : Bool) :
    (h.alloc body permanent).2.stored = h.stored + (body.handles : Multiset Addr) :=
  total_alloc _ h body permanent

theorem stored_setBody {h : Heap} {a : Addr} {b : Block} (hb : h.block? a = some b)
    (body : Body) :
    (h.setBody a body).stored + (b.body.handles : Multiset Addr)
      = h.stored + (body.handles : Multiset Addr) :=
  total_modify _ _ hb

theorem stored_remove {h : Heap} {a : Addr} {b : Block} (hb : h.block? a = some b) :
    (h.remove a).stored + (b.body.handles : Multiset Addr) = h.stored :=
  total_remove _ hb

@[simp] theorem occupied_modify (h : Heap) (a : Addr) (f : Block → Block) :
    (h.modify a f).occupied = h.occupied :=
  total_modify_of_eq _ h a f fun _ => rfl

@[simp] theorem occupied_alloc (h : Heap) (body : Body) (permanent : Bool) :
    (h.alloc body permanent).2.occupied = h.occupied + 1 :=
  total_alloc _ h body permanent

theorem occupied_remove {h : Heap} {a : Addr} {b : Block} (hb : h.block? a = some b) :
    (h.remove a).occupied + 1 = h.occupied :=
  total_remove _ hb

/-! ### Blocks under the elementary steps -/

@[simp] theorem block?_uncount (h : Heap) (a b : Addr) :
    (h.uncount a).block? b =
      if a = b then (h.block? b).map fun k => { k with count := k.count - 1 } else h.block? b :=
  block?_modify ..

@[simp] theorem block?_freeze (h : Heap) (a b : Addr) :
    (h.freeze a).block? b =
      if a = b then (h.block? b).map fun k => { k with frozen := true } else h.block? b :=
  block?_modify ..

@[simp] theorem block?_countOut (h : Heap) (a : Addr) : h.countOut.block? a = h.block? a := rfl

@[simp] theorem block?_remove (h : Heap) (a b : Addr) :
    (h.remove a).block? b = if a = b then none else h.block? b := by
  by_cases hab : a = b
  · subst hab
    cases hb : h.blocks[a]? <;> simp [remove, block?, Array.getElem?_modify, hb]
  · simp [remove, block?, Array.getElem?_modify, hab]

/-- There is a block at an address. -/
def Live (h : Heap) (a : Addr) : Prop := ∃ b, h.block? a = some b

theorem Live.lt_size {h : Heap} {a : Addr} (ha : h.Live a) : a < h.blocks.size := by
  obtain ⟨b, hb⟩ := ha
  by_contra hle
  simp [block?, Array.getElem?_eq_none (Nat.le_of_not_lt hle)] at hb

theorem Live.ne_size {h : Heap} {a : Addr} (ha : h.Live a) : a ≠ h.blocks.size :=
  Nat.ne_of_lt ha.lt_size

theorem body_of_block? {h : Heap} {a : Addr} {b : Block} (hb : h.block? a = some b) :
    h.body a = b.body := by
  simp [body, hb]

/-- An address at which something other than nothing is read has a block. -/
theorem exists_block?_of_body {h : Heap} {a : Addr} (ha : h.body a ≠ .nothing) :
    ∃ b, h.block? a = some b ∧ b.body = h.body a := by
  cases hb : h.block? a with
  | none => simp [body, hb] at ha
  | some b => exact ⟨b, rfl, (body_of_block? hb).symm⟩

theorem live_modify {h : Heap} {a c : Addr} {f : Block → Block} :
    (h.modify a f).Live c ↔ h.Live c := by
  simp only [Live, block?_modify]
  split
  · cases h.block? c <;> simp
  · rfl

@[simp] theorem live_retain {h : Heap} {a c : Addr} : (h.retain a).Live c ↔ h.Live c :=
  live_modify

@[simp] theorem live_uncount {h : Heap} {a c : Addr} : (h.uncount a).Live c ↔ h.Live c :=
  live_modify

@[simp] theorem live_setBody {h : Heap} {a c : Addr} {body : Body} :
    (h.setBody a body).Live c ↔ h.Live c :=
  live_modify

@[simp] theorem live_freeze {h : Heap} {a c : Addr} : (h.freeze a).Live c ↔ h.Live c :=
  live_modify

@[simp] theorem live_alloc {h : Heap} {body : Body} {permanent : Bool} {c : Addr} :
    (h.alloc body permanent).2.Live c ↔ c = h.blocks.size ∨ h.Live c := by
  simp only [Live, block?_alloc]
  split
  · next hc => simp [hc]
  · next hc => simp [hc]

/-- The handles stored in a block are among the handles stored in the heap. -/
theorem mem_stored {h : Heap} {a c : Addr} {b : Block} (hb : h.block? a = some b)
    (hc : c ∈ b.body.handles) : c ∈ h.stored := by
  rw [← stored_remove hb]
  exact Multiset.mem_add.mpr (Or.inr hc)

/-- A content that stores something is in a block. -/
theorem exists_block?_of_mem {h : Heap} {a c : Addr} (hc : c ∈ (h.body a).handles) :
    ∃ b, h.block? a = some b ∧ b.body = h.body a := by
  refine exists_block?_of_body fun hnothing => ?_
  simp [hnothing, Body.handles] at hc

/-- What a value stores is stored in the heap. -/
theorem count_stored_pos {h : Heap} {a c : Addr} (hc : c ∈ (h.body a).handles) :
    0 < h.stored.count c := by
  obtain ⟨b, hb, hbody⟩ := exists_block?_of_mem hc
  exact Multiset.count_pos.mpr (mem_stored hb (hbody ▸ hc))

/-! ### Exact counts -/

/-- The counts of a heap are exact, where the handles in `held` are held outside of the heap and
`dying` blocks have been taken out of it but are not yet counted out. -/
structure Balanced (h : Heap) (held : Multiset Addr) (dying : ℕ) : Prop where
  /-- A block counts the handles to it, and a permanent one counts one more. -/
  count_eq : ∀ {a b}, h.block? a = some b →
    b.count = (held + h.stored).count a + if b.permanent then 1 else 0
  /-- No handle leads to a block that was freed. -/
  live : ∀ {a}, a ∈ held + h.stored → h.Live a
  /-- A block that is not permanent has handles to it. -/
  used : ∀ {a b}, h.block? a = some b → b.permanent = true ∨ 0 < b.count
  /-- The number of live blocks is kept, the dying ones included. -/
  live_eq : h.live = h.occupied + dying

namespace Balanced

variable {h : Heap} {held : Multiset Addr} {dying : ℕ} {a : Addr} {b : Block}

theorem live_of_held (hh : h.Balanced held dying) (ha : a ∈ held) : h.Live a :=
  hh.live (Multiset.mem_add.mpr (Or.inl ha))

theorem live_of_stored (hh : h.Balanced held dying) (hb : h.block? a = some b) {c : Addr}
    (hc : c ∈ b.body.handles) : h.Live c :=
  hh.live (Multiset.mem_add.mpr (Or.inr (mem_stored hb hc)))

/-- No handle leads to the address that is given out next. -/
theorem count_size (hh : h.Balanced held dying) :
    (held + h.stored).count h.blocks.size = 0 :=
  Multiset.count_eq_zero.mpr fun hmem => (hh.live hmem).ne_size rfl

/-- Exactness is a matter of the counts and of the handles, wherever these are. -/
theorem congr {h' : Heap} {held' : Multiset Addr} (hh : h.Balanced held dying)
    (hblock : ∀ {c k'}, h'.block? c = some k' →
      ∃ k, h.block? c = some k ∧ k.count = k'.count ∧ k.permanent = k'.permanent)
    (hlive : ∀ {c}, h.Live c → h'.Live c) (hheld : held' + h'.stored = held + h.stored)
    (hoccupied : h'.occupied = h.occupied) (hkept : h'.live = h.live) :
    h'.Balanced held' dying where
  count_eq {c k'} hk' := by
    obtain ⟨k, hk, hcount, hperm⟩ := hblock hk'
    rw [← hcount, ← hperm, hheld]
    exact hh.count_eq hk
  live {c} hc := hlive (hh.live (hheld ▸ hc))
  used {c k'} hk' := by
    obtain ⟨k, hk, hcount, hperm⟩ := hblock hk'
    rw [← hcount, ← hperm]
    exact hh.used hk
  live_eq := by rw [hkept, hoccupied, hh.live_eq]

/-- A step that makes one block, with one handle, keeps the counts exact if it accounts for that
handle. -/
theorem grow {h' : Heap} {held' : Multiset Addr} (hh : h.Balanced held dying)
    (hblock : ∀ {c k'}, h'.block? c = some k' →
      (∃ k, h.block? c = some k ∧ k.count = k'.count ∧ k.permanent = k'.permanent)
        ∨ (c = h.blocks.size ∧ k'.count = 1 ∧ k'.permanent = false))
    (hlive : ∀ {c}, c = h.blocks.size ∨ h.Live c → h'.Live c)
    (hheld : held' + h'.stored = held + h.stored + {h.blocks.size})
    (hoccupied : h'.occupied = h.occupied + 1) (hkept : h'.live = h.live + 1) :
    h'.Balanced held' dying where
  count_eq {c k'} hk' := by
    rw [hheld, Multiset.count_add]
    rcases hblock hk' with ⟨k, hk, hcount, hperm⟩ | ⟨rfl, hcount, hperm⟩
    · -- an old block: the new handle is not to it
      have hne : Multiset.count c {h.blocks.size} = 0 := by
        rw [Multiset.count_singleton, if_neg (Live.ne_size ⟨k, hk⟩)]
      rw [← hcount, ← hperm, hh.count_eq hk, hne, add_zero]
    · -- the new block: the handle accounted for is the only one
      rw [hh.count_size, Multiset.count_singleton_self, hcount, hperm]
      rfl
  live {c} hc := by
    rw [hheld, Multiset.mem_add, Multiset.mem_singleton] at hc
    exact hlive (hc.symm.imp_right hh.live)
  used {c k'} hk' := by
    rcases hblock hk' with ⟨k, hk, hcount, hperm⟩ | ⟨-, hcount, -⟩
    · rw [← hcount, ← hperm]
      exact hh.used hk
    · exact Or.inr (by omega)
  live_eq := by rw [hkept, hoccupied, hh.live_eq, add_right_comm]

/-- A new block takes over the handles in its body; its own handle goes to the caller. -/
theorem alloc {body : Body} (hh : h.Balanced (held + (body.handles : Multiset Addr)) dying) :
    (h.alloc body).2.Balanced (held + {h.blocks.size}) dying := by
  refine hh.grow (fun {c k'} hk' => ?_) live_alloc.mpr ?_ (occupied_alloc ..) rfl
  · rw [block?_alloc] at hk'
    split at hk'
    · next hc =>
      obtain rfl := Option.some.inj hk'
      exact Or.inr ⟨hc, rfl, rfl⟩
    · exact Or.inl ⟨k', hk', rfl, rfl⟩
  · -- the handles of the body were held and are now stored
    rw [stored_alloc]
    abel

/-- A new cell in front of a list: the cell takes over the list's handle to its head, and the list
is given the handle to the cell. -/
theorem prepend {item x : Addr} {l : ListHeader} (hh : h.Balanced (held + {item}) dying)
    (hb : h.block? x = some b) (hbody : b.body = .list l) (size : ℕ) :
    ((h.alloc (.cell item l.head)).2.setBody x (.list { head := h.blocks.size, size })).Balanced
      (held + (l.parsed : Multiset Addr)) dying := by
  have hb' : (h.alloc (.cell item l.head)).2.block? x = some b := by
    rw [block?_alloc, if_neg (Live.ne_size ⟨b, hb⟩), hb]
  refine hh.grow (fun {c k'} hk' => ?_) (fun hc => live_setBody.mpr (live_alloc.mpr hc)) ?_
    ((occupied_modify ..).trans (occupied_alloc ..)) rfl
  · rw [block?_setBody] at hk'
    split at hk'
    · next hxc =>
      subst hxc
      rw [hb', Option.map_some, Option.some_inj] at hk'
      subst hk'
      exact Or.inl ⟨b, hb, rfl, rfl⟩
    · rw [block?_alloc] at hk'
      split at hk'
      · next hc =>
        obtain rfl := Option.some.inj hk'
        exact Or.inr ⟨hc, rfl, rfl⟩
      · exact Or.inl ⟨k', hk', rfl, rfl⟩
  · -- the handle to the old head is counted on both sides
    have hstored := stored_setBody hb' (.list { head := h.blocks.size, size })
    rw [hbody, stored_alloc] at hstored
    refine add_right_cancel (b := {l.head}) ?_
    rw [coe_handles_list, coe_handles_list, Multiset.coe_nil, add_zero,
      coe_handles_cell] at hstored
    calc _ = held + (((h.alloc (.cell item l.head)).2.setBody x
            (.list { head := h.blocks.size, size })).stored + ({l.head} + ↑l.parsed)) := by abel
      _ = _ := by rw [hstored]; abel

/-- A permanent block is made with the one handle that is never given up. -/
theorem allocPermanent {body : Body} (hbody : body.handles = [])
    (hh : h.Balanced held dying) : (h.alloc body true).2.Balanced held dying where
  count_eq {c b} hb := by
    have hsize := hh.count_size
    rw [block?_alloc] at hb
    split at hb
    · next hc =>
      -- no handle leads to the new block, whose count is one for being permanent
      subst hc
      obtain rfl := Option.some.inj hb
      simp only [stored_alloc, hbody, Multiset.coe_nil, add_zero, hsize, ite_true, zero_add]
    · simpa only [stored_alloc, hbody, Multiset.coe_nil, add_zero] using hh.count_eq hb
  live {c} hc := by
    simp only [stored_alloc, hbody, Multiset.coe_nil, add_zero] at hc
    exact live_alloc.mpr (Or.inr (hh.live hc))
  used {c b} hb := by
    rw [block?_alloc] at hb
    split at hb
    · obtain rfl := Option.some.inj hb
      exact Or.inl rfl
    · exact hh.used hb
  live_eq := by
    rw [occupied_alloc]
    have := hh.live_eq
    change h.live + 1 = _
    omega

/-- Taking a handle to a live block. -/
theorem retain (hh : h.Balanced held dying) (ha : h.Live a) :
    (h.retain a).Balanced (held + {a}) dying where
  count_eq {c b} hb := by
    rw [block?_retain] at hb
    split at hb
    · next hc =>
      -- the block itself: one more on both sides
      subst hc
      obtain ⟨k, hk, rfl⟩ := Option.map_eq_some_iff.mp hb
      have := hh.count_eq hk
      simp only [stored_retain, Multiset.count_add, Multiset.count_singleton_self] at this ⊢
      omega
    · next hc =>
      have := hh.count_eq hb
      simp only [stored_retain, Multiset.count_add, Multiset.count_singleton,
        if_neg (Ne.symm hc)] at this ⊢
      omega
  live {c} hc := by
    rw [live_retain]
    by_cases hca : c = a
    · exact hca ▸ ha
    · refine hh.live ?_
      simp only [stored_retain, Multiset.mem_add, Multiset.mem_singleton, hca, or_false] at hc ⊢
      exact hc
  used {c b} hb := by
    rw [block?_retain] at hb
    split at hb
    · obtain ⟨k, -, rfl⟩ := Option.map_eq_some_iff.mp hb
      exact Or.inr (Nat.succ_pos _)
    · exact hh.used hb
  live_eq := hh.live_eq.trans (by rw [Heap.retain, occupied_modify])

/-- Giving up a handle to a block that stays. -/
theorem uncount (hh : h.Balanced (held + {a}) dying) (hb : h.block? a = some b)
    (hstay : b.permanent = true ∨ 1 < b.count) : (h.uncount a).Balanced held dying where
  count_eq {c k} hk := by
    rw [block?_uncount] at hk
    split at hk
    · next hc =>
      subst hc
      rw [hb, Option.map_some, Option.some_inj] at hk
      subst hk
      have := hh.count_eq hb
      simp only [stored_uncount, Multiset.count_add, Multiset.count_singleton_self] at this ⊢
      omega
    · next hc =>
      have := hh.count_eq hk
      simp only [stored_uncount, Multiset.count_add, Multiset.count_singleton,
        if_neg (Ne.symm hc)] at this ⊢
      omega
  live {c} hc := by
    refine live_uncount.mpr (hh.live ?_)
    simp only [stored_uncount, Multiset.mem_add] at hc ⊢
    tauto
  used {c k} hk := by
    rw [block?_uncount] at hk
    split at hk
    · next hc =>
      subst hc
      rw [hb, Option.map_some, Option.some_inj] at hk
      subst hk
      -- a count above one stays positive
      exact hstay.imp id fun hcount => Nat.sub_pos_of_lt hcount
    · exact hh.used hk
  live_eq := hh.live_eq.trans (by rw [Heap.uncount, occupied_modify])

/-- Taking out a block whose last handle is given up: the handles stored in it are held by those
who release it. -/
theorem remove (hh : h.Balanced (held + {a}) dying) (hb : h.block? a = some b)
    (hlast : ¬(b.permanent = true ∨ 1 < b.count)) :
    (h.remove a).Balanced (held + (b.body.handles : Multiset Addr)) (dying + 1) := by
  have hstored := stored_remove hb
  -- the handle given up is the only one, so nothing that stays leads to the block
  have hnone : (held + h.stored).count a = 0 := by
    have := hh.count_eq hb
    simp only [Multiset.count_add, Multiset.count_singleton_self] at this ⊢
    simp only [not_or, Bool.not_eq_true] at hlast
    omega
  have hcount : ∀ c, (held + (b.body.handles : Multiset Addr) + (h.remove a).stored).count c
      = (held + h.stored).count c := by
    intro c
    rw [← hstored]
    simp only [Multiset.count_add]
    omega
  refine ⟨fun {c k} hk => ?_, fun {c} hc => ?_, fun {c k} hk => ?_, ?_⟩
  · rw [block?_remove] at hk
    split at hk
    · exact absurd hk (by simp)
    · next hc =>
      have := hh.count_eq hk
      rw [hcount]
      simp only [Multiset.count_add, Multiset.count_singleton, if_neg (Ne.symm hc)] at this ⊢
      omega
  · -- what is still referred to lived before, and is not the block taken out
    have hpos : 0 < (held + h.stored).count c := by
      rw [← hcount]
      exact Multiset.count_pos.mpr hc
    have hca : a ≠ c := fun hac => by rw [hac] at hnone; omega
    obtain ⟨k, hk⟩ := hh.live (a := c) (by
      have := Multiset.count_pos.mp hpos
      simp only [Multiset.mem_add] at this ⊢
      tauto)
    exact ⟨k, by rw [block?_remove, if_neg hca, hk]⟩
  · rw [block?_remove] at hk
    split at hk
    · exact absurd hk (by simp)
    · exact hh.used hk
  · have := occupied_remove hb
    have := hh.live_eq
    change h.live = _
    omega

/-- Counting out a block that was taken out. -/
theorem countOut (hh : h.Balanced held (dying + 1)) : h.countOut.Balanced held dying where
  count_eq := hh.count_eq
  live := hh.live
  used := hh.used
  live_eq := by
    have := hh.live_eq
    change h.live - 1 = h.occupied + dying
    omega

/-- A new content takes over the handles that only it has, and leaves to the caller the ones that
only the old content had. -/
theorem setBody {body : Body} {held' : Multiset Addr} (hh : h.Balanced held dying)
    (hb : h.block? a = some b)
    (hheld : held' + (body.handles : Multiset Addr) = held + (b.body.handles : Multiset Addr)) :
    (h.setBody a body).Balanced held' dying := by
  refine hh.congr (fun {c k'} hk' => ?_) live_setBody.mpr ?_ (occupied_modify ..) rfl
  · rw [block?_setBody] at hk'
    split at hk'
    · obtain ⟨k, hk, rfl⟩ := Option.map_eq_some_iff.mp hk'
      exact ⟨k, hk, rfl, rfl⟩
    · exact ⟨k', hk', rfl, rfl⟩
  · -- both sides with the handles of the old content
    refine add_right_cancel (b := (b.body.handles : Multiset Addr)) ?_
    rw [add_assoc, stored_setBody hb, add_right_comm, ← hheld]
    abel

/-- Declaring a value immutable is of no concern to the counts. -/
theorem freeze (hh : h.Balanced held dying) : (h.freeze a).Balanced held dying := by
  refine hh.congr (fun {c k'} hk' => ?_) live_freeze.mpr (by rw [stored_freeze])
    (occupied_modify ..) rfl
  rw [block?_freeze] at hk'
  split at hk'
  · obtain ⟨k, hk, rfl⟩ := Option.map_eq_some_iff.mp hk'
    exact ⟨k, hk, rfl, rfl⟩
  · exact ⟨k', hk', rfl, rfl⟩

end Balanced

/-! ### Permanent blocks -/

/-- The permanent blocks are the ones the heap knows: nothing, which is the only block of its kind,
and the two words for truth values. -/
structure Grounded (h : Heap) : Prop where
  /-- The place kept for nothing holds nothing. -/
  nothing_at : ∀ {a}, h.nothingAt = some a →
    ∃ b, h.block? a = some b ∧ b.permanent = true ∧ b.body = .nothing
  /-- No other place does. -/
  nothing_only : ∀ {a b}, h.block? a = some b → b.body = .nothing → h.nothingAt = some a
  /-- The places kept for truth values have permanent blocks. -/
  truth_at : ∀ {a}, h.trueAt = some a ∨ h.falseAt = some a →
    ∃ b, h.block? a = some b ∧ b.permanent = true
  /-- Only nothing and words are permanent. -/
  plain : ∀ {a b}, h.block? a = some b → b.permanent = true →
    b.body = .nothing ∨ ∃ w, b.body = .word w

namespace Grounded

variable {h : Heap} {a : Addr} {b : Block}

/-- A step that keeps the permanent blocks, and makes no other one, keeps the heap grounded. -/
theorem congr {h' : Heap} (hh : h.Grounded)
    (hpast : ∀ {c k'}, h'.block? c = some k' →
      (∃ k, h.block? c = some k ∧ k.body = k'.body ∧ k.permanent = k'.permanent)
        ∨ (k'.permanent = false ∧ k'.body ≠ .nothing))
    (hkeep : ∀ {c k}, h.block? c = some k → k.permanent = true →
      ∃ k', h'.block? c = some k' ∧ k'.permanent = true ∧ k'.body = k.body)
    (hnothing : h'.nothingAt = h.nothingAt) (htrue : h'.trueAt = h.trueAt)
    (hfalse : h'.falseAt = h.falseAt) : h'.Grounded where
  nothing_at {c} hc := by
    obtain ⟨k, hk, hperm, hbody⟩ := hh.nothing_at (hnothing ▸ hc)
    obtain ⟨k', hk', hperm', hbody'⟩ := hkeep hk hperm
    exact ⟨k', hk', hperm', hbody'.trans hbody⟩
  nothing_only {c k'} hk' hbody' := by
    -- nothing comes into another block, since what is new is not nothing
    rcases hpast hk' with ⟨k, hk, hbody, -⟩ | ⟨-, hne⟩
    · rw [hnothing]
      exact hh.nothing_only hk (hbody.trans hbody')
    · exact absurd hbody' hne
  truth_at {c} hc := by
    rw [htrue, hfalse] at hc
    obtain ⟨k, hk, hperm⟩ := hh.truth_at hc
    obtain ⟨k', hk', hperm', -⟩ := hkeep hk hperm
    exact ⟨k', hk', hperm'⟩
  plain {c k'} hk' hperm' := by
    rcases hpast hk' with ⟨k, hk, hbody, hperm⟩ | ⟨hnot, -⟩
    · rw [← hbody]
      exact hh.plain hk (hperm.trans hperm')
    · rw [hnot] at hperm'
      exact absurd hperm' (by decide)

/-- A change to a block that touches neither its content nor its permanence. -/
theorem modify (hh : h.Grounded) {f : Block → Block} (hbody : ∀ k, (f k).body = k.body)
    (hperm : ∀ k, (f k).permanent = k.permanent) : (h.modify a f).Grounded := by
  refine hh.congr (fun {c k'} hk' => Or.inl ?_) (fun {c k} hk hk_perm => ?_) rfl rfl rfl
  · rw [block?_modify] at hk'
    split at hk'
    · obtain ⟨k, hk, rfl⟩ := Option.map_eq_some_iff.mp hk'
      exact ⟨k, hk, (hbody k).symm, (hperm k).symm⟩
    · exact ⟨k', hk', rfl, rfl⟩
  · rw [block?_modify, hk]
    split
    · exact ⟨f k, rfl, (hperm k).trans hk_perm, hbody k⟩
    · exact ⟨k, rfl, hk_perm, rfl⟩

theorem alloc (hh : h.Grounded) {body : Body} (hbody : body ≠ .nothing) :
    (h.alloc body).2.Grounded := by
  refine hh.congr (fun {c k'} hk' => ?_) (fun {c k} hk hperm => ⟨k, ?_, hperm, rfl⟩) rfl rfl rfl
  · rw [block?_alloc] at hk'
    split at hk'
    · obtain rfl := Option.some.inj hk'
      exact Or.inr ⟨rfl, hbody⟩
    · exact Or.inl ⟨k', hk', rfl, rfl⟩
  · rw [block?_alloc, if_neg (Live.ne_size ⟨k, hk⟩), hk]

theorem remove (hh : h.Grounded) (hb : h.block? a = some b) (hperm : b.permanent = false) :
    (h.remove a).Grounded := by
  refine hh.congr (fun {c k'} hk' => Or.inl ?_) (fun {c k} hk hk_perm => ?_) rfl rfl rfl
  · rw [block?_remove] at hk'
    split at hk'
    · exact absurd hk' (by simp)
    · exact ⟨k', hk', rfl, rfl⟩
  · have hac : a ≠ c := by
      rintro rfl
      rw [hb, Option.some_inj] at hk
      rw [← hk, hperm] at hk_perm
      exact absurd hk_perm (by decide)
    exact ⟨k, by rw [block?_remove, if_neg hac, hk], hk_perm, rfl⟩

/-- What is neither nothing nor a word is freed with its last handle. -/
theorem not_permanent (hh : h.Grounded) (hb : h.block? a = some b) (hnothing : b.body ≠ .nothing)
    (hword : ∀ w, b.body ≠ .word w) : b.permanent = false := by
  by_contra hperm
  rcases hh.plain hb (by simpa using hperm) with hbody | ⟨w, hbody⟩
  · exact hnothing hbody
  · exact hword w hbody

/-- A new content for a block that is not permanent. -/
theorem setBody (hh : h.Grounded) (hb : h.block? a = some b) (hnot : b.permanent = false)
    {body : Body} (hbody : body ≠ .nothing) : (h.setBody a body).Grounded := by
  refine hh.congr (fun {c k'} hk' => ?_) (fun {c k} hk hk_perm => ?_) rfl rfl rfl
  · rw [block?_setBody] at hk'
    split at hk'
    · next hac =>
      subst hac
      rw [hb, Option.map_some, Option.some_inj] at hk'
      subst hk'
      exact Or.inr ⟨hnot, hbody⟩
    · exact Or.inl ⟨k', hk', rfl, rfl⟩
  -- what is written is not permanent, so no permanent block is the one
  · have hac : a ≠ c := by
      rintro rfl
      rw [hb, Option.some_inj] at hk
      rw [← hk, hnot] at hk_perm
      exact absurd hk_perm (by decide)
    exact ⟨k, by rw [block?_setBody, if_neg hac, hk], hk_perm, rfl⟩

/-- Making sure of nothing: the one block of its kind is found or made. -/
theorem ensureNothing (hh : h.Grounded) : h.ensureNothing.2.Grounded := by
  unfold Heap.ensureNothing
  split
  · exact hh
  · next hnone =>
    refine ⟨fun {c} hc => ?_, fun {c k} hk hbody => ?_, fun {c} hc => ?_, fun {c k} hk hperm => ?_⟩
    · obtain rfl := Option.some.inj hc
      exact ⟨_, (block?_alloc ..).trans (if_pos rfl), rfl, rfl⟩
    · have hk := (block?_alloc ..).symm.trans hk
      -- the block may be the new one, or it was there, and then nothing was known of it before
      split at hk
      · next hsize => exact congrArg some hsize.symm
      · rw [hh.nothing_only hk hbody] at hnone
        exact absurd hnone (by simp)
    · obtain ⟨k, hk, hperm⟩ := hh.truth_at hc
      exact ⟨k, (block?_alloc ..).trans ((if_neg (Live.ne_size ⟨k, hk⟩)).trans hk), hperm⟩
    · have hk := (block?_alloc ..).symm.trans hk
      split at hk
      · obtain rfl := Option.some.inj hk
        exact Or.inl rfl
      · exact hh.plain hk hperm

/-- Making sure of a truth value: its word is found or made. -/
theorem ensureTruth (hh : h.Grounded) (value : Bool) : (h.ensureTruth value).2.Grounded := by
  unfold Heap.ensureTruth
  split
  · exact hh
  · -- the word is allocated, and one of the two places refers to it
    set h' := (h.alloc (.word (.text (if value then "true" else "false") false)) true).2 with hh'
    have hpast : ∀ {c k}, h.block? c = some k → h'.block? c = some k := fun {c k} hk =>
      (block?_alloc ..).trans ((if_neg (Live.ne_size ⟨k, hk⟩)).trans hk)
    have hnew : ∃ k, h'.block? h.blocks.size = some k ∧ k.permanent = true :=
      ⟨_, (block?_alloc ..).trans (if_pos rfl), rfl⟩
    have hword : h'.Grounded := by
      refine ⟨fun {c} hc => ?_, fun {c k} hk hbody => ?_, fun {c} hc => ?_,
        fun {c k} hk hperm => ?_⟩
      · obtain ⟨k, hk, hrest⟩ := hh.nothing_at hc
        exact ⟨k, hpast hk, hrest⟩
      · rw [hh', block?_alloc] at hk
        split at hk
        · obtain rfl := Option.some.inj hk
          simp at hbody
        · exact hh.nothing_only hk hbody
      · obtain ⟨k, hk, hperm⟩ := hh.truth_at hc
        exact ⟨k, hpast hk, hperm⟩
      · rw [hh', block?_alloc] at hk
        split at hk
        · obtain rfl := Option.some.inj hk
          exact Or.inr ⟨_, rfl⟩
        · exact hh.plain hk hperm
    cases value with
    | true =>
      refine ⟨hword.nothing_at, hword.nothing_only, fun {c} hc => ?_, hword.plain⟩
      rcases hc with hc | hc
      · obtain rfl := Option.some.inj hc
        exact hnew
      · exact hword.truth_at (Or.inr hc)
    | false =>
      refine ⟨hword.nothing_at, hword.nothing_only, fun {c} hc => ?_, hword.plain⟩
      rcases hc with hc | hc
      · exact hword.truth_at (Or.inl hc)
      · obtain rfl := Option.some.inj hc
        exact hnew

end Grounded

/-! ### Making sure of the permanent values -/

theorem Balanced.ensureNothing {h : Heap} {held : Multiset Addr} {dying : ℕ}
    (hh : h.Balanced held dying) : h.ensureNothing.2.Balanced held dying := by
  unfold Heap.ensureNothing
  split
  · exact hh
  · exact (hh.allocPermanent rfl).congr (fun {c k'} hk' => ⟨k', hk', rfl, rfl⟩) id rfl rfl rfl

theorem Balanced.ensureTruth {h : Heap} {held : Multiset Addr} {dying : ℕ}
    (hh : h.Balanced held dying) (value : Bool) :
    (h.ensureTruth value).2.Balanced held dying := by
  unfold Heap.ensureTruth
  split
  · exact hh
  · cases value <;>
      exact (hh.allocPermanent rfl).congr (fun {c k'} hk' => ⟨k', hk', rfl, rfl⟩) id rfl rfl rfl

/-- The address at which nothing was made sure of. -/
theorem Grounded.ensureNothing_at {h : Heap} (hh : h.Grounded) :
    ∃ b, h.ensureNothing.2.block? h.ensureNothing.1 = some b ∧ b.permanent = true
      ∧ b.body = .nothing := by
  refine hh.ensureNothing.nothing_at ?_
  unfold Heap.ensureNothing
  split
  · assumption
  · rfl

/-- The address at which a truth value was made sure of. -/
theorem Grounded.ensureTruth_at {h : Heap} (hh : h.Grounded) (value : Bool) :
    ∃ b, (h.ensureTruth value).2.block? (h.ensureTruth value).1 = some b
      ∧ b.permanent = true := by
  refine (hh.ensureTruth value).truth_at ?_
  unfold Heap.ensureTruth
  cases value <;> split <;> simp_all

/-- The counts of a heap are exact, where the handles in `held` are held outside of it, and the
permanent blocks are in their places. -/
structure Exact (h : Heap) (held : Multiset Addr) : Prop
    extends h.Balanced held 0, h.Grounded

/-- A block of nothing is at the place that is kept for it. -/
theorem Exact.nothingAt_of_kind {h : Heap} {held : Multiset Addr} {a : Addr} (hh : h.Exact held)
    (ha : h.Live a) (hkind : h.kind a = .nothing) : h.nothingAt = some a := by
  obtain ⟨b, hb⟩ := ha
  refine hh.nothing_only hb ?_
  rw [kind, body_of_block? hb] at hkind
  revert hkind
  cases b.body <;> simp [Body.kind]

end SharedValues.Heap
