import SharedValues.Proofs.Chain.Basic
import SharedValues.Proofs.Heap.Discharge

/-!
# Moves

Whatever an operation does to the heap, it does by a few moves.  A move changes the heap and the
handles held outside of it together, so that a property of the two that all moves keep is kept by
all operations.  The moves are told apart by what they do to stored handles: an operation may use
some acts and not others.

The elementary steps that leave the counts inexact for a moment are put together into one move.

## Main definitions

* `Custody` — a heap with the handles held outside of it.
* `Act` — what a move changes.
* `Heap.Sized`, `Heap.Fresh` — a size is right if all were, a content is as new values have it.
* `Heap.Founded` — there is nothing, to end chains with, where there are lists.
* `Move` — one move.
* `Kept` — a property that all moves with certain acts keep.

## Main results

* `Move.exact` — every move keeps the counts exact.
-/

namespace SharedValues

/-- A heap with the handles held outside of it. -/
structure Custody where
  /-- The heap. -/
  heap : Heap
  /-- The handles held outside. -/
  held : Multiset Addr

/-- What a move changes. -/
inductive Act where
  /-- Handles held outside, and the blocks that come and go with them. -/
  | hold
  /-- The slots of an array, or the children of a syntax node. -/
  | fill
  /-- The element in a cell. -/
  | item
  /-- The next link of a cell. -/
  | link
  /-- The head and the size of a list. -/
  | header
  /-- The size of a list, which is counted anew. -/
  | recount
  /-- The parsed form of a list. -/
  | parse
  /-- A list, by a cell behind the last one of a chain of its own. -/
  | extend
  /-- A list, by another chain behind its first cell. -/
  | tail
  deriving DecidableEq, Repr

namespace Heap

/-- A size is right for a head, provided that the sizes of all lists are. -/
def Sized (h : Heap) (head : Addr) (size : ℕ) : Prop := h.Measured → h.Measures head size

/-- There is nothing, to end chains with, where there are lists. -/
def Founded (h : Heap) : Prop := ∀ x l, h.body x = .list l → h.nothingAt.isSome = true

/-- A content as new values have it: a new list has no parsed form, its size is right, and there is
nothing to end its chain. -/
structure Fresh (h : Heap) (body : Body) : Prop where
  /-- Nothing is not made anew. -/
  ne_nothing : body ≠ .nothing
  /-- There is no parsed form yet. -/
  unparsed : ∀ {l}, body = .list l → l.stamp = 0 ∧ l.parsed = []
  /-- The size is right. -/
  sized : ∀ {l}, body = .list l → h.Sized l.head l.size
  /-- There is nothing, provided that the lists before were founded. -/
  founded : ∀ {l}, body = .list l → h.Founded → h.nothingAt.isSome = true

theorem Fresh.of_kind {h : Heap} {body : Body} (hnothing : body.kind ≠ .nothing)
    (hlist : body.kind ≠ .list) : h.Fresh body where
  ne_nothing := by
    rintro rfl
    exact hnothing rfl
  unparsed := by
    rintro l rfl
    exact absurd rfl hlist
  sized := by
    rintro l rfl
    exact absurd rfl hlist
  founded := by
    rintro l rfl
    exact absurd rfl hlist

theorem Fresh.list {h : Heap} {head : Addr} {size : ℕ} (hsized : h.Sized head size)
    (hfounded : h.Founded → h.nothingAt.isSome = true) : h.Fresh (.list { head, size }) where
  ne_nothing := by simp
  unparsed := by
    rintro l hl
    obtain rfl := Body.list.inj hl
    exact ⟨rfl, rfl⟩
  sized := by
    rintro l hl
    obtain rfl := Body.list.inj hl
    exact hsized
  founded _ := hfounded

/-- The heap in which the cell `c` has been linked to `m`, some handles have been given up, and the
list `x` has got a header. -/
def relink (h : Heap) (c item m : Addr) (as : List Addr) (x : Addr) (header : ListHeader) : Heap :=
  (((h.retain m).setBody c (.cell item m)).releaseAll as).setBody x (.list header)

end Heap

/-- **One move**, which changes a heap and the handles held outside of it. -/
inductive Move : Act → Custody → Custody → Prop
  /-- One more handle to a live block. -/
  | retain {h : Heap} {held : Multiset Addr} {a : Addr} :
    h.Live a → Move .hold ⟨h, held⟩ ⟨h.retain a, held + {a}⟩
  /-- Some handles are given up. -/
  | releaseAll {h : Heap} {held : Multiset Addr} (as : List Addr) :
    Move .hold ⟨h, held + (as : Multiset Addr)⟩ ⟨h.releaseAll as, held⟩
  /-- Nothing is made sure of. -/
  | nothing {h : Heap} {held : Multiset Addr} : Move .hold ⟨h, held⟩ ⟨h.ensureNothing.2, held⟩
  /-- A truth value is made sure of. -/
  | truth {h : Heap} {held : Multiset Addr} (value : Bool) :
    Move .hold ⟨h, held⟩ ⟨(h.ensureTruth value).2, held⟩
  /-- The peak is set back. -/
  | usage {h : Heap} {held : Multiset Addr} : Move .hold ⟨h, held⟩ ⟨h.usage.2, held⟩
  /-- A value is declared immutable. -/
  | freeze {h : Heap} {held : Multiset Addr} (a : Addr) :
    Move .hold ⟨h, held⟩ ⟨h.freeze a, held⟩
  /-- A new value takes over the handles in it. -/
  | alloc {h : Heap} {held : Multiset Addr} {body : Body} :
    h.Fresh body →
    Move .hold ⟨h, held + (body.handles : Multiset Addr)⟩
      ⟨(h.alloc body).2, held + {h.blocks.size}⟩
  /-- Other slots for an array. -/
  | slots {h : Heap} {held held' : Multiset Addr} {x : Addr} {origin : ℤ}
      {slots slots' : List Addr} :
    h.body x = .array origin slots →
    held' + (slots' : Multiset Addr) = held + (slots : Multiset Addr) →
    Move .fill ⟨h, held⟩ ⟨h.setBody x (.array origin slots'), held'⟩
  /-- Other children for a syntax node. -/
  | children {h : Heap} {held held' : Multiset Addr} {x name : Addr}
      {children children' : List Addr} :
    h.body x = .node name children →
    held' + (children' : Multiset Addr) = held + (children : Multiset Addr) →
    Move .fill ⟨h, held⟩ ⟨h.setBody x (.node name children'), held'⟩
  /-- Another element for a cell. -/
  | item {h : Heap} {held held' : Multiset Addr} {c i j n : Addr} :
    h.body c = .cell i n → held' + {j} = held + {i} →
    Move .item ⟨h, held⟩ ⟨h.setBody c (.cell j n), held'⟩
  /-- Another next link for a cell. -/
  | link {h : Heap} {held held' : Multiset Addr} {c i n m : Addr} :
    h.body c = .cell i n → held' + {m} = held + {n} →
    Move .link ⟨h, held⟩ ⟨h.setBody c (.cell i m), held'⟩
  /-- Another head and size for a list, which forgets its parsed form. -/
  | header {h : Heap} {held held' : Multiset Addr} {x head : Addr} {l : ListHeader} {size : ℕ} :
    h.body x = .list l → h.Sized head size →
    held' + {head} = held + {l.head} + (l.parsed : Multiset Addr) →
    Move .header ⟨h, held⟩ ⟨h.setBody x (.list { head, size }), held'⟩
  /-- A new cell in front of a list, which forgets its parsed form. -/
  | prepend {h : Heap} {held : Multiset Addr} {x item : Addr} {l : ListHeader} :
    h.body x = .list l →
    Move .header ⟨h, held + {item}⟩
      ⟨(h.alloc (.cell item l.head)).2.setBody x
          (.list { head := h.blocks.size, size := l.size + 1 }),
        held + (l.parsed : Multiset Addr)⟩
  /-- A size that was counted anew. -/
  | recount {h : Heap} {held : Multiset Addr} {x : Addr} {l : ListHeader} {size : ℕ} :
    h.body x = .list l → h.Sized l.head size →
    Move .recount ⟨h, held⟩ ⟨h.setBody x (.list { l with size }), held⟩
  /-- Another parsed form for a list. -/
  | parse {h : Heap} {held held' : Multiset Addr} {x : Addr} {l : ListHeader} {stamp : ℕ}
      {parsed : List Addr} :
    h.body x = .list l → held' + (parsed : Multiset Addr) = held + (l.parsed : Multiset Addr) →
    Move .parse ⟨h, held⟩ ⟨h.setBody x (.list { l with stamp, parsed }), held'⟩
  /-- A cell `c` that nothing refers to yet goes behind the last cell of an exclusive chain. -/
  | extend {h : Heap} {held : Multiset Addr} {x last item n c i e : Addr} {l : ListHeader} :
    h.body x = .list l → x ∈ held → h.lastExclusive l.head = .ok last →
    h.body last = .cell item n → h.body c = .cell i e → h.kind e = .nothing → h.count c = 1 →
    Move .extend ⟨h, held + {c}⟩
      ⟨h.relink last item c [n, c] x { head := l.head, size := l.size + 1 },
        held + (l.parsed : Multiset Addr)⟩
  /-- The chain of another list goes behind the first cell of a list.  This is not seen by others
  if nobody else holds a part of the chain, and the first cell is linked to itself. -/
  | tail {h : Heap} {held : Multiset Addr} {a : Act} {x y item n : Addr} {l r : ListHeader} :
    h.body x = .list l → x ∈ held → h.body y = .list r → h.body l.head = .cell item n →
    (a = .tail ∨ a = .extend ∧ x = y ∧ h.count l.head = 1) →
    Move a ⟨h, held⟩
      ⟨h.relink l.head item r.head [n] x { head := l.head, size := r.size + 1 },
        held + (l.parsed : Multiset Addr)⟩

/-! ### Every move keeps the counts exact -/

namespace Heap

/-- A retained handle changes no content. -/
@[simp] theorem body_retain (h : Heap) (a b : Addr) : (h.retain a).body b = h.body b := by
  simp only [body, block?_retain]
  split
  · cases h.block? b <;> rfl
  · rfl

@[simp] theorem body_freeze (h : Heap) (a b : Addr) : (h.freeze a).body b = h.body b := by
  simp only [body, block?_freeze]
  split
  · cases h.block? b <;> rfl
  · rfl

/-- A new content is read where it was written, if there is a block. -/
theorem body_setBody {h : Heap} {a : Addr} (ha : h.Live a) (body : Body) :
    (h.setBody a body).body a = body := by
  obtain ⟨k, hk⟩ := ha
  rw [Heap.body, block?_setBody, if_pos rfl, hk]
  rfl

/-- A new content is read in no other place. -/
theorem body_setBody_of_ne {h : Heap} {a b : Addr} (hab : b ≠ a) (body : Body) :
    (h.setBody a body).body b = h.body b := by
  rw [Heap.body, block?_setBody, if_neg hab.symm]
  rfl

/-- What lives in the end, the list with the new header and the linked cell apart, has the content
that it had. -/
theorem body_relink {h g : Heap} {c item m x a : Addr} {as : List Addr} {header : ListHeader}
    (hg : (h.relink c item m as x header).Thins g) (ha : g.Live a) (hax : a ≠ x) :
    g.body a = ((h.retain m).setBody c (.cell item m)).body a := by
  set h' := (h.retain m).setBody c (.cell item m)
  have hthins := releaseAll_thins h' as
  rw [hg.body_eq ha, Heap.relink, body_setBody_of_ne hax]
  rcases hg.live_or ha with ha | hsize
  · exact hthins.body_eq (live_setBody.mp ha)
  · -- the address is new, so nothing was ever read there
    rw [show (h.relink c item m as x header).blocks.size = (h'.releaseAll as).blocks.size from
      Array.size_modify ..] at hsize
    rw [body_of_size_le hsize, body_of_size_le (hthins.size_le.trans hsize)]

theorem body_relink_of_ne {h g : Heap} {c item m x a : Addr} {as : List Addr}
    {header : ListHeader} (hg : (h.relink c item m as x header).Thins g) (ha : g.Live a)
    (hax : a ≠ x) (hac : a ≠ c) : g.body a = h.body a := by
  rw [body_relink hg ha hax, body_setBody_of_ne hac, body_retain]

theorem body_relink_self {h g : Heap} {c item m x : Addr} {as : List Addr} {header : ListHeader}
    (hg : (h.relink c item m as x header).Thins g) (hc : g.Live c) (hcx : c ≠ x)
    (hlive : h.Live c) : g.body c = .cell item m := by
  rw [body_relink hg hc hcx, body_setBody (live_retain.mpr hlive)]

/-- The list with the new header. -/
theorem body_relink_list {h : Heap} {c item m x : Addr} {as : List Addr} {header : ListHeader}
    (hx : (h.relink c item m as x header).Live x) :
    (h.relink c item m as x header).body x = .list header :=
  body_setBody (live_setBody.mp hx) _

theorem live_of_body {h : Heap} {a : Addr} {body : Body} (ha : h.body a = body)
    (hbody : body ≠ .nothing) : h.Live a := by
  obtain ⟨b, hb, -⟩ := exists_block?_of_body (ha ▸ hbody)
  exact ⟨b, hb⟩

end Heap

namespace Heap.Exact

variable {h : Heap} {held held' : Multiset Addr} {x : Addr}

/-- What is stored in a block is live. -/
theorem live_of_mem {body : Body} (hh : h.Exact held) (hx : h.body x = body) {a : Addr}
    (ha : a ∈ body.handles) : h.Live a := by
  have hne : body ≠ .nothing := by
    rintro rfl
    simp [Body.handles] at ha
  obtain ⟨b, hb, hbody⟩ := exists_block?_of_body (hx ▸ hne)
  refine hh.live_of_stored hb ?_
  rwa [hbody, hx]

/-- A block that is neither nothing nor a word may have its content replaced. -/
theorem setBody (k : Kind) {old new : Body} (hh : h.Exact held) (hx : h.body x = old)
    (hold : old.kind = k) (hnew : new.kind = k) (hk : k ≠ .nothing ∧ k ≠ .word)
    (hheld : held' + (new.handles : Multiset Addr) = held + (old.handles : Multiset Addr)) :
    (h.setBody x new).Exact held' := by
  have hne : ∀ {body : Body}, body.kind = k → body ≠ .nothing := by
    rintro body hkind rfl
    exact hk.1 hkind.symm
  obtain ⟨b, hb, hbody⟩ := exists_block?_of_body (hx ▸ hne hold)
  obtain rfl : b.body = old := hbody.trans hx
  have hnot : b.permanent = false :=
    hh.not_permanent hb (hne hold) fun w hw => hk.2 (by rw [← hold, hw]; rfl)
  exact ⟨hh.toBalanced.setBody hb hheld, hh.toGrounded.setBody hb hnot (hne hnew)⟩

theorem retain {a : Addr} (hh : h.Exact held) (ha : h.Live a) :
    (h.retain a).Exact (held + {a}) :=
  ⟨hh.toBalanced.retain ha, hh.toGrounded.modify (fun _ => rfl) fun _ => rfl⟩

/-- The cell `c` is linked to another value, and the handle to the old one passes to the caller. -/
theorem link {c i n m : Addr} (hh : h.Exact held) (hc : h.body c = .cell i n) (hm : h.Live m) :
    ((h.retain m).setBody c (.cell i m)).Exact (held + {n}) := by
  refine (hh.retain hm).setBody .cell ((body_retain ..).trans hc) rfl rfl (by decide) ?_
  rw [coe_handles_cell, coe_handles_cell]
  abel

/-- The cell `c` is linked to another value, some handles are given up, and a list that somebody
holds gets another size. -/
theorem relink {as : List Addr} {c i n m : Addr} {l : ListHeader} {size : ℕ}
    (hh : h.Exact held) (hx : h.body x = .list l) (hheld : x ∈ held') (hc : h.body c = .cell i n)
    (hm : h.Live m) (has : held' + (as : Multiset Addr) = held + {n}) :
    (h.relink c i m as x { head := l.head, size }).Exact (held' + (l.parsed : Multiset Addr)) := by
  have hlinked : ((h.retain m).setBody c (.cell i m)).Exact (held' + (as : Multiset Addr)) :=
    has ▸ hh.link hc hm
  have hbody : ((h.retain m).setBody c (.cell i m)).body x = .list l := by
    have hcx : x ≠ c := by
      rintro rfl
      simp [hx] at hc
    rw [body_setBody_of_ne hcx, body_retain, hx]
  refine (hlinked.releaseAll as).setBody .list ((hlinked.body_releaseAll as hheld).trans hbody) rfl
    rfl (by decide) ?_
  rw [coe_handles_list, coe_handles_list, Multiset.coe_nil]
  abel

end Heap.Exact

open Heap in
/-- **Every move keeps the counts exact.** -/
theorem Move.exact {a : Act} {c d : Custody} (hm : Move a c d) (hc : c.heap.Exact c.held) :
    d.heap.Exact d.held := by
  cases hm with
  | retain ha => exact hc.retain ha
  | releaseAll as => exact hc.releaseAll as
  | nothing => exact ⟨hc.toBalanced.ensureNothing, hc.toGrounded.ensureNothing⟩
  | truth value => exact ⟨hc.toBalanced.ensureTruth value, hc.toGrounded.ensureTruth value⟩
  | usage =>
    exact ⟨hc.toBalanced.congr (fun hk => ⟨_, hk, rfl, rfl⟩) id rfl rfl rfl,
      hc.toGrounded.congr (fun hk => Or.inl ⟨_, hk, rfl, rfl⟩) (fun hk hp => ⟨_, hk, hp, rfl⟩)
        rfl rfl rfl⟩
  | freeze a => exact ⟨hc.toBalanced.freeze, hc.toGrounded.modify (fun _ => rfl) fun _ => rfl⟩
  | alloc hfresh => exact ⟨hc.toBalanced.alloc, hc.toGrounded.alloc hfresh.ne_nothing⟩
  -- a block gets another content, and the handles of both are accounted for
  | slots hx hheld => exact hc.setBody .array hx rfl rfl (by decide) hheld
  | children hx hheld =>
    refine hc.setBody .node hx rfl rfl (by decide) ?_
    simp only [Body.handles, ← Multiset.cons_coe, ← Multiset.singleton_add]
    rw [add_left_comm, hheld, add_left_comm]
  | item hx hheld =>
    refine hc.setBody .cell hx rfl rfl (by decide) ?_
    rw [coe_handles_cell, coe_handles_cell, ← add_assoc, hheld, add_assoc]
  | link hx hheld =>
    refine hc.setBody .cell hx rfl rfl (by decide) ?_
    rw [coe_handles_cell, coe_handles_cell, add_left_comm, hheld, add_left_comm]
  | header hx _ hheld =>
    refine hc.setBody .list hx rfl rfl (by decide) ?_
    rwa [coe_handles_list, coe_handles_list, Multiset.coe_nil, add_zero, ← add_assoc]
  -- the new cell takes the place of the head, which it refers to
  | @prepend h held x item l hx =>
    obtain ⟨b, hb, hbody⟩ := exists_block?_of_body (h := h) (a := x) (by rw [hx]; simp)
    have hlist := hbody.trans hx
    have hnot := hc.not_permanent hb (by rw [hlist]; simp) (by rw [hlist]; simp)
    refine ⟨hc.toBalanced.prepend hb hlist _, ?_⟩
    refine (hc.toGrounded.alloc (by simp)).setBody (b := b) ?_ hnot (by simp)
    rw [block?_alloc, if_neg (Live.ne_size ⟨b, hb⟩), hb]
  | recount hx _ => exact hc.setBody .list hx rfl rfl (by decide) rfl
  | parse hx hheld =>
    refine hc.setBody .list hx rfl rfl (by decide) ?_
    rw [coe_handles_list, coe_handles_list, add_left_comm, hheld, add_left_comm]
  | @extend h held x last item n c i e l hx hheld _ hlast hcell _ _ =>
    refine hc.relink hx hheld hlast (live_of_body hcell (by simp)) ?_
    simp only [coe_pair]
    abel
  | @tail h held a x y item n l r hx hheld hy hcell _ =>
    refine hc.relink hx hheld hcell (hc.live_of_mem hy List.mem_cons_self) rfl

/-! ### Properties that moves keep -/

/-- A property of a heap with the handles held outside of it is kept by all moves with certain
acts, and it makes sure that the counts are exact. -/
structure Kept (A : Set Act) (F : Multiset Addr → Heap → Prop) : Prop where
  /-- Handles are taken and given up by every operation. -/
  hold : .hold ∈ A
  /-- The counts are exact. -/
  exact : ∀ {held h}, F held h → h.Exact held
  /-- The moves keep the property. -/
  move : ∀ {a c d}, a ∈ A → Move a c d → F c.held c.heap → F d.held d.heap

/-- All moves together keep the counts exact. -/
theorem kept_exact : Kept Set.univ fun held h => h.Exact held :=
  ⟨Set.mem_univ _, id, fun _ hm hc => hm.exact hc⟩

namespace Kept

open Heap

variable {A : Set Act} {F : Multiset Addr → Heap → Prop} {h : Heap} {held : Multiset Addr}
  {a : Addr}

theorem live (hF : Kept A F) (hh : F held h) (ha : a ∈ held) : h.Live a :=
  (hF.exact hh).live_of_held ha

theorem retain (hF : Kept A F) (hh : F held h) (ha : h.Live a) : F (held + {a}) (h.retain a) :=
  hF.move hF.hold (.retain ha) hh

theorem releaseAll (hF : Kept A F) (as : List Addr) (hh : F (held + (as : Multiset Addr)) h) :
    F held (h.releaseAll as) :=
  hF.move hF.hold (.releaseAll as) hh

theorem release (hF : Kept A F) (hh : F (held + {a}) h) : F held (h.release a) :=
  hF.releaseAll [a] hh

theorem alloc (hF : Kept A F) (body : Body) (hh : F (held + (body.handles : Multiset Addr)) h)
    (hfresh : h.Fresh body) : F (held + {h.blocks.size}) (h.alloc body).2 :=
  hF.move hF.hold (.alloc hfresh) hh

end Kept

end SharedValues
