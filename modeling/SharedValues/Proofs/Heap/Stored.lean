import SharedValues.Proofs.Sequence.Append

/-!
# Handles under releases and changes

How many handles lead to a place is a sum over the handles held outside of the heap and the ones
stored in blocks.  A release makes no new handles: it takes out blocks, and the handles stored in
them go with them.  A new content moves handles between the heap and its holder.  So the number of
handles to a place is followed through an operation without a look at the counts.

## Main results

* `stored_discharge_add_le` — a release takes out what is stored in the blocks that it frees.
* `references_retain`, `references_alloc`, `references_setBody` — the elementary changes.
* `Exact.ensures_append_references` — what is appended has two handles more, and nothing else has.
-/

namespace SharedValues.Heap

variable {h : Heap} {held held' : Multiset Addr} {a b c d item last n x value : Addr}
  {l : ListHeader}

/-! ### Releases -/

/-- What is taken out of the heap is no longer stored, be it the block that is taken out now or one
that is gone in the end. -/
theorem stored_remove_add_le {g : Heap} {k : Block} (hk : h.block? a = some k)
    (hg : g.stored + (((h.remove a).body d).handles : Multiset Addr) ≤ (h.remove a).stored) :
    g.stored + ((h.body d).handles : Multiset Addr) ≤ h.stored := by
  have hbody : (h.remove a).body d = if a = d then .nothing else h.body d := by
    simp only [body, block?_remove]
    split <;> rfl
  rw [← stored_remove hk]
  rw [hbody] at hg
  split at hg
  · next had =>
    subst had
    rw [body_of_block? hk]
    exact add_le_add_left ((Multiset.le_add_right _ _).trans hg) _
  · exact hg.trans (Multiset.le_add_right _ _)

/-- **A release takes out what is stored in a block that it frees**, and stores nothing. -/
theorem stored_discharge_add_le {tasks : List Task} (hd : ¬(h.discharge tasks).Live d) :
    (h.discharge tasks).stored + ((h.body d).handles : Multiset Addr) ≤ h.stored := by
  fun_induction Heap.discharge h tasks with
  | case1 h =>
    -- nothing is read where there is no block
    have hbody : h.body d = .nothing := by
      by_contra hne
      exact hd (live_of_body rfl hne)
    simp [hbody, Body.handles]
  | case2 h rest ih => exact ih hd
  | case3 h a rest hb ih => exact ih hd
  | case4 h a rest b hb hstay ih =>
    have hbody : (h.uncount a).body d = h.body d := by
      simp only [body, block?_uncount]
      split
      · cases h.block? d <;> rfl
      · rfl
    simpa only [hbody, stored_uncount] using ih hd
  | case5 h a rest b hb hlast item next hc ih =>
    have hrest := ih hd
    rw [body_ensureNothing, stored_ensureNothing] at hrest
    exact stored_remove_add_le hb hrest
  | case6 h a rest b hb hlast hc ih => exact stored_remove_add_le hb (ih hd)
  | case7 h a rest hb ih => exact ih hd
  | case8 h a rest b hb hshared ih => exact ih hd
  | case9 h a rest b hb hlast item next hc ih => exact stored_remove_add_le hb (ih hd)
  | case10 h a rest b hb hlast hc ih => exact ih hd

theorem stored_releaseAll_le (h : Heap) (as : List Addr) : (h.releaseAll as).stored ≤ h.stored := by
  -- no block is ever at the place that would be given out next
  have hd : ¬(h.releaseAll as).Live (h.releaseAll as).blocks.size := fun hlive => hlive.ne_size rfl
  exact (Multiset.le_add_right _ _).trans (stored_discharge_add_le hd)

/-! ### The number of handles to a place -/

theorem references_add (h : Heap) (held held' : Multiset Addr) (a : Addr) :
    h.references (held + held') a = h.references held a + held'.count a := by
  rw [references, references, add_right_comm, Multiset.count_add]

theorem references_releaseAll_le (h : Heap) (held : Multiset Addr) (as : List Addr) (a : Addr) :
    (h.releaseAll as).references held a ≤ h.references held a :=
  Multiset.count_le_of_le a (add_le_add_right (stored_releaseAll_le h as) held)

theorem references_retain (h : Heap) (held : Multiset Addr) (a b : Addr) :
    (h.retain b).references held a = h.references held a := by
  rw [references, references, stored_retain]

/-- A new value takes over the handles in it, and comes with one handle. -/
theorem references_alloc (h : Heap) (held : Multiset Addr) (body : Body) (a : Addr) :
    (h.alloc body).2.references held a
      = h.references (held + (body.handles : Multiset Addr)) a := by
  rw [references, references, stored_alloc, add_right_comm, add_assoc]

/-- A new content moves handles, and makes none. -/
theorem references_setBody {old new : Body} (hold : h.body x = old) (hnot : old ≠ .nothing)
    (hheld : held' + (new.handles : Multiset Addr) = held + (old.handles : Multiset Addr)) :
    (h.setBody x new).references held' a = h.references held a := by
  obtain ⟨k, hk, hbody⟩ := exists_block?_of_body (hold ▸ hnot)
  have hstored := stored_setBody hk new
  rw [hbody.trans hold] at hstored
  refine congrArg (Multiset.count a) (add_right_cancel (b := (old.handles : Multiset Addr)) ?_)
  rw [add_assoc, hstored, add_right_comm, ← hheld]
  abel

/-- Handles lead to blocks. -/
theorem Exact.references_of_not_live (hh : h.Exact held) (ha : ¬h.Live a) :
    h.references held a = 0 :=
  Multiset.count_eq_zero.mpr fun hmem => ha (hh.live hmem)

/-- A block that no handle leads to is gone, unless it is permanent. -/
theorem Exact.not_live_of_references (hh : h.Exact held) (ha : h.references held a = 0)
    (hnothing : h.kind a ≠ .nothing) (hword : h.kind a ≠ .word) : ¬h.Live a := by
  rintro ⟨k, hk⟩
  rw [kind, body_of_block? hk] at hnothing hword
  have hnot : k.permanent = false :=
    hh.not_permanent hk (by rintro hb; exact hnothing (by rw [hb]; rfl))
      (by rintro w hb; exact hword (by rw [hb]; rfl))
  have hcount := hh.count_eq hk
  rw [show (held + h.stored).count a = 0 from ha, hnot] at hcount
  simpa [hnot, hcount] using hh.used hk

/-! ### Appending -/

/-- A list that gets its only cell takes over the handle to it. -/
theorem references_opened_le (hx : h.body x = .list l) :
    (h.opened x l c).references held a ≤ h.references (held + {c}) a := by
  have hset : (h.setBody x (.list { head := c, size := l.size + 1 })).references
      (held + {l.head} + (l.parsed : Multiset Addr)) a = h.references (held + {c}) a := by
    refine references_setBody hx (by simp) ?_
    rw [coe_handles_list, coe_handles_list, Multiset.coe_nil]
    abel
  rw [← hset, references_add, references_add, add_assoc]
  refine (references_releaseAll_le _ held [l.head] a).trans ?_
  exact (references_releaseAll_le ..).trans (Nat.le_add_right _ _)

/-- A cell behind the last one takes over the handle to it. -/
theorem references_extended_le (hx : h.body x = .list l) (hlast : h.body last = .cell item n)
    (hlive : (h.relink last item c [n, c] x { head := l.head, size := l.size + 1 }).Live x) :
    (h.extended x l last item n c).references held a ≤ h.references (held + {c}) a := by
  set k := (h.retain c).setBody last (.cell item c)
  -- the header is written after the new link, and it still is the old one
  have hxk : (k.releaseAll [n, c]).body x = .list l := by
    have hne : x ≠ last := by
      rintro rfl
      simp [hx] at hlast
    rw [(releaseAll_thins k [n, c]).body_eq (live_setBody.mp hlive), body_setBody_of_ne hne,
      body_retain, hx]
  -- the new header has no parsed form, which takes the handles of the old one away
  have hheader : (h.relink last item c [n, c] x { head := l.head, size := l.size + 1 }).references
      (held + (l.parsed : Multiset Addr)) a = (k.releaseAll [n, c]).references held a := by
    refine references_setBody hxk (by simp) ?_
    rw [coe_handles_list, coe_handles_list, Multiset.coe_nil]
    abel
  -- the last cell is given a handle to the new cell in place of the one to nothing
  have hlink : k.references (held + {n}) a = (h.retain c).references (held + {c}) a := by
    refine references_setBody ((body_retain ..).trans hlast) (by simp) ?_
    rw [coe_handles_cell, coe_handles_cell]
    abel
  rw [references_retain, references_add] at hlink
  rw [references_add] at hheader
  have hparsed := references_releaseAll_le
    (h.relink last item c [n, c] x { head := l.head, size := l.size + 1 }) held l.parsed a
  have hgone := references_releaseAll_le k held [n, c] a
  change (Heap.releaseAll _ _).references held a ≤ _
  omega

open Operation

/-- **What is appended** has one handle more than before, the one in the new cell, and that cell and
nothing have one more.  Nothing else has. -/
theorem Exact.ensures_append_references {s : Store} (hh : s.heap.Exact held)
    (hx : s.heap.body x = .list l) (hheld : x ∈ held) (hvalue : value ∈ held) :
    Ensures (l.append x value) s
      (fun _ t => t.heap.Exact held ∧ ∀ a, t.heap.references held a ≤ s.heap.references held a
        + (Multiset.count a {value} + Multiset.count a {(s.heap.retain value).nothing.1}
          + Multiset.count a {s.heap.cellFor value}))
      fun _ _ => True := by
  have hlive := hh.live_of_held hvalue
  have he := kept_exact.withCell hh hlive
  have hxe := (body_withCell_of_live value (live_of_body hx (by simp))).2.trans hx
  -- the new cell brings along its handle, and those to its element and to nothing
  have hcell : ∀ a, (s.heap.withCell value).references (held + {s.heap.cellFor value}) a
      = s.heap.references held a
        + (Multiset.count a {value} + Multiset.count a {(s.heap.retain value).nothing.1}
          + Multiset.count a {s.heap.cellFor value}) := by
    intro a
    rw [references_add, references, references, stored_withCell]
    simp only [Multiset.count_add]
    omega
  have hexact := kept_exact.list_append (Set.mem_univ _) (Set.mem_univ _) hh hx hheld hlive
  have hrefs : Ensures (l.append x value) s (fun _ t => ∀ a, t.heap.references held a
      ≤ (s.heap.withCell value).references (held + {s.heap.cellFor value}) a)
      fun _ _ => True := by
    -- whether the cell is appended or refused, no handle comes in but those of the new cell
    refine ensures_append (fun _ a => references_opened_le hxe) (fun _ _ _ => trivial) ?_
    intro last item n hlast hlastBody hn a
    have htwo : held + (([n, s.heap.cellFor value] : List Addr) : Multiset Addr)
        = held + {s.heap.cellFor value} + {n} := by
      rw [coe_pair]
      abel
    have hnew : (s.heap.withCell value).Live (s.heap.cellFor value) :=
      live_of_body (body_withCell s.heap value) (by simp)
    exact references_extended_le hxe hlastBody ((he.relink hxe hheld hlastBody hnew
      htwo).live_of_held (Multiset.mem_add.mpr (Or.inl hheld)))
  refine (hexact.and hrefs).mono (fun _ t ht => ⟨ht.1, fun a => ?_⟩) fun _ _ _ => trivial
  exact (ht.2 a).trans (hcell a).le

end SharedValues.Heap
