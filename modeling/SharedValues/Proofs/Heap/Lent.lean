import SharedValues.Proofs.Session.Refusal

/-!
# Handles that are given back

A reading of the heap takes handles for a while: to the place of a walk, to an element that it looks
at, to a copy of the slots of an array.  As long as it holds them the heap counts them, and is the
same otherwise.  A block of a heap whose blocks are in use has a handle besides, so it stays when a
handle that was taken is given back, whatever the order.

## Main definitions

* `Heap.InUse` — no block is without handles.
* `Heap.lent` — the heap while some more handles are held.

## Main results

* `Heap.retain_lent`, `InUse.release_lent` — a handle is taken, and given back.
* `Heap.lent_zero` — all handles have been given back.
-/

namespace SharedValues

namespace Heap

variable {h : Heap} {held : Multiset Addr} {a : Addr} {b : Block}

/-- A block that is not permanent has handles to it. -/
def InUse (h : Heap) : Prop := ∀ a b, h.block? a = some b → b.permanent = true ∨ 0 < b.count

theorem Exact.inUse (hh : h.Exact held) : h.InUse := fun _ _ hb => hh.used hb

/-- The heap while some more handles are held. -/
def lent (h : Heap) (held : Multiset Addr) : Heap :=
  { h with blocks := h.blocks.mapIdx fun a b =>
      b.map fun b => { b with count := b.count + held.count a } }

/-- Two heaps that differ in their blocks at most are the same if the blocks are. -/
private theorem eq_of_blocks (bs cs : Array (Option Block)) (hsize : bs.size = cs.size)
    (hblocks : ∀ a (ha : a < bs.size) (ha' : a < cs.size), bs[a] = cs[a]) :
    { h with blocks := bs } = { h with blocks := cs } :=
  congrArg (fun blocks => { h with blocks }) (Array.ext hsize hblocks)

theorem getElem_blocks_lent (h : Heap) (held : Multiset Addr) {a : Addr}
    (ha : a < (h.lent held).blocks.size) (ha' : a < h.blocks.size) :
    (h.lent held).blocks[a] =
      h.blocks[a].map fun b => { b with count := b.count + held.count a } :=
  Array.getElem_mapIdx ..

theorem block?_lent (h : Heap) (held : Multiset Addr) (a : Addr) :
    (h.lent held).block? a =
      (h.block? a).map fun b => { b with count := b.count + held.count a } := by
  unfold block? lent
  rw [Array.getElem?_mapIdx]
  cases h.blocks[a]? <;> rfl

@[simp] theorem size_blocks_lent (h : Heap) (held : Multiset Addr) :
    (h.lent held).blocks.size = h.blocks.size :=
  Array.size_mapIdx

/-- The contents are what they were. -/
@[simp] theorem body_lent (h : Heap) (held : Multiset Addr) (a : Addr) :
    (h.lent held).body a = h.body a := by
  unfold body
  rw [block?_lent]
  cases h.block? a <;> rfl

@[simp] theorem kind_lent (h : Heap) (held : Multiset Addr) (a : Addr) :
    (h.lent held).kind a = h.kind a := by
  rw [kind, body_lent, kind]

@[simp] theorem extent_lent (h : Heap) (held : Multiset Addr) (a : Addr) :
    (h.lent held).extent a = h.extent a := by
  rw [extent, body_lent, extent]

/-- Without any more handles the heap is what it was. -/
@[simp] theorem lent_zero (h : Heap) : h.lent 0 = h := by
  refine eq_of_blocks (h.lent 0).blocks _ (h.size_blocks_lent 0) fun a ha ha' => ?_
  rw [getElem_blocks_lent h 0 ha ha']
  cases h.blocks[a] <;> simp

/-- One more handle is taken. -/
theorem retain_lent (h : Heap) (held : Multiset Addr) (a : Addr) :
    (h.lent held).retain a = h.lent (a ::ₘ held) := by
  refine eq_of_blocks _ (h.lent (a ::ₘ held)).blocks (by simp) fun c hc hc' => ?_
  have hsize : c < h.blocks.size := h.size_blocks_lent _ ▸ hc'
  rw [Array.getElem_modify, getElem_blocks_lent h _ _ hsize, getElem_blocks_lent h _ _ hsize]
  by_cases hac : a = c
  · subst hac
    cases h.blocks[a] <;> simp [Nat.add_assoc]
  · rw [if_neg hac, Multiset.count_cons_of_ne (Ne.symm hac)]

theorem retainAll_lent (h : Heap) (as : List Addr) (held : Multiset Addr) :
    (h.lent held).retainAll as = h.lent (as + held) := by
  induction as generalizing held with
  | nil => simp [retainAll]
  | cons a as ih =>
    rw [retainAll_cons, retain_lent, ih, ← Multiset.cons_coe, Multiset.cons_add, Multiset.add_cons]

/-- One handle less is counted. -/
theorem uncount_lent (h : Heap) (held : Multiset Addr) (a : Addr) :
    (h.lent (a ::ₘ held)).uncount a = h.lent held := by
  refine eq_of_blocks _ (h.lent held).blocks (by simp) fun c hc hc' => ?_
  have hsize : c < h.blocks.size := h.size_blocks_lent _ ▸ hc'
  rw [Array.getElem_modify, getElem_blocks_lent h _ _ hsize, getElem_blocks_lent h _ _ hsize]
  by_cases hac : a = c
  · subst hac
    cases h.blocks[a] <;> simp
  · rw [if_neg hac, Multiset.count_cons_of_ne (Ne.symm hac)]

/-- **A handle that was taken is given back.**  No block goes with it, since it has another one. -/
theorem InUse.release_lent (hh : h.InUse) (held : Multiset Addr) (a : Addr) :
    (h.lent (a ::ₘ held)).release a = h.lent held := by
  have hblock := h.block?_lent (a ::ₘ held) a
  cases hb : h.block? a with
  | none =>
    -- nothing is counted where there is no block
    rw [hb, Option.map_none] at hblock
    rw [release, discharge_drop_none hblock, discharge, ← uncount_lent h held a, uncount,
      modify_of_none hblock]
  | some b =>
    rw [hb, Option.map_some, Multiset.count_cons_self] at hblock
    have hstays : b.permanent = true ∨ 1 < b.count + (held.count a + 1) :=
      (hh a b hb).imp_right fun hcount => by omega
    rw [release, discharge_drop_of_stays hblock hstays, discharge, uncount_lent]

theorem InUse.releaseAll_lent (hh : h.InUse) (as : List Addr) (held : Multiset Addr) :
    (h.lent (as + held)).releaseAll as = h.lent held := by
  induction as with
  | nil => simp
  | cons a as ih =>
    rw [releaseAll_cons, ← Multiset.cons_coe, Multiset.cons_add, hh.release_lent, ih]

end Heap

end SharedValues
