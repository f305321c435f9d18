import Mathlib.Data.Set.Card
import SharedValues.Proofs.Query.Traversal
import SharedValues.Proofs.Session.Run

/-!
# Sizes counted anew

The chain of a list may end, be a circle, or lead into a circle after some cells.  The loop that
counts its cells keeps a record of those that it has met and stops at the first one that is met
again, so it ends on every chain.  What it has met by then is all that can be reached.  Whoever
knows the number only, as a cursor does, meets the same cells in the same order with that many
steps.

## Main definitions

* `Heap.CountsOver` — the loop that counts cells, without a bound on its steps.
* `Heap.cellsFrom` — the cells that can be reached.
* `Cursor.GoesOver` — the cells and the elements that a cursor goes over until it ends.
* `Store.Recounts` — a list is counted anew.

## Main results

* `Linked.exists_countsOver` — the loop ends.
* `CountsOver.mem_iff` — it counts the cells that can be reached.
* `Exact.recounts` — the size is right, a cursor goes over each cell once, and nothing is changed
  by counting again.
-/

namespace SharedValues

open Heap Operation

namespace Heap

/-- **The counting of cells** from a link on, when some cells have been met: the loop goes over the
cells ahead until the chain ends or a cell is met that was met before. -/
inductive CountsOver (h : Heap) : List Addr → Addr → List Addr → Prop
  /-- The chain ends. -/
  | ended {seen : List Addr} {a : Addr} : h.kind a = .nothing → CountsOver h seen a []
  /-- The cell was met before. -/
  | met {seen : List Addr} {a : Addr} : a ∈ seen → CountsOver h seen a []
  /-- The cell counts, and is met from now on. -/
  | cell {seen : List Addr} {a n : Addr} {cs : List Addr} :
    a ∉ seen → h.next? a = some n → CountsOver h (a :: seen) n cs → CountsOver h seen a (a :: cs)

/-- The cells that can be reached from a link. -/
def cellsFrom (h : Heap) (a : Addr) : Set Addr := {c | h.kind c = .cell ∧ ∃ i, h.nth a i = some c}

variable {h h' : Heap} {held : Multiset Addr} {S : Set Addr} {a c link x : Addr} {i : ℕ}
  {seen cs : List Addr} {l : ListHeader} {s : Store}

/-- The cells of a walk are its links. -/
theorem Offers.nth_eq (hc : h.Offers a cs) (hi : cs[i]? = some c) :
    h.nth a i = some c ∧ h.kind c = .cell := by
  have hfound : (h.chain cs.length a).found[i]? = some c := by rw [hc.chain_eq, hi]
  exact nth_of_chain_found hfound

/-- A list of distinct places is no longer than the heap. -/
theorem length_le_size (hnodup : cs.Nodup) (hlive : ∀ c ∈ cs, h.Live c) :
    cs.length ≤ h.blocks.size := by
  have hsubset : cs ⊆ List.range h.blocks.size :=
    fun c hc => List.mem_range.mpr (hlive c hc).lt_size
  simpa using hnodup.length_le_of_subset hsubset

/-! ### The loop -/

/-- **The loop ends.**  With every cell that it goes over one less is left to be met. -/
theorem Linked.exists_countsOver (ha : h.Linked a) (hnodup : seen.Nodup)
    (hseen : ∀ c ∈ seen, h.Live c) : ∃ cs, h.CountsOver seen a cs := by
  -- each cell is new to those seen, and there are no more than the heap has
  induction hk : h.blocks.size - seen.length using Nat.strong_induction_on
    generalizing a seen with
  | _ k ih =>
    by_cases hmet : a ∈ seen
    · exact ⟨[], .met hmet⟩
    · rcases ha.kind with hcell | hnothing
      · obtain ⟨n, hn⟩ := exists_next?_of_kind hcell
        have hnodup' : (a :: seen).Nodup := List.nodup_cons.mpr ⟨hmet, hnodup⟩
        have hseen' : ∀ c ∈ a :: seen, h.Live c :=
          List.forall_mem_cons.mpr ⟨live_of_kind hcell, hseen⟩
        have hle := length_le_size hnodup' hseen'
        rw [List.length_cons] at hle
        obtain ⟨cs, hcs⟩ := ih _ (by rw [List.length_cons]; omega) (ha.next hn) hnodup' hseen' rfl
        exact ⟨a :: cs, .cell hmet hn hcs⟩
      · exact ⟨[], .ended hnothing⟩

namespace CountsOver

/-- The cells are linked in the order in which they are counted. -/
theorem offers (hcs : h.CountsOver seen a cs) : h.Offers a cs := by
  induction hcs with
  | ended => exact .nil
  | met => exact .nil
  | cell _ hn _ ih => exact .cons hn ih

/-- No cell is counted twice, or if it was met before. -/
theorem nodup (hcs : h.CountsOver seen a cs) : cs.Nodup ∧ ∀ c ∈ cs, c ∉ seen := by
  induction hcs with
  | ended => simp
  | met => simp
  | cell hnew _ _ ih =>
    obtain ⟨hnodup, hdisjoint⟩ := ih
    refine ⟨List.nodup_cons.mpr ⟨fun hmem => hdisjoint _ hmem List.mem_cons_self, hnodup⟩, ?_⟩
    refine List.forall_mem_cons.mpr ⟨hnew, fun c hc hmem => ?_⟩
    exact hdisjoint c hc (List.mem_cons_of_mem _ hmem)

theorem length_le (hcs : h.CountsOver seen a cs) : cs.length ≤ h.blocks.size :=
  length_le_size hcs.nodup.1 fun c hc => live_of_kind (hcs.offers.kind_of_mem c hc)

/-- What comes after the cells that were met or counted is one of them, or the end. -/
theorem closed (hcs : h.CountsOver seen a cs) :
    (h.kind a = .cell → a ∈ seen ∨ a ∈ cs) ∧
      ∀ b ∈ cs, ∀ n, h.next? b = some n → h.kind n = .cell → n ∈ seen ∨ n ∈ cs := by
  induction hcs with
  | ended hk => simp [hk]
  | met hmet => simp [hmet]
  | @cell seen a n cs hnew hn _ ih =>
    obtain ⟨hahead, hrest⟩ := ih
    -- a cell that is counted here is one of those seen later
    have hshift : ∀ m, m ∈ a :: seen ∨ m ∈ cs → m ∈ seen ∨ m ∈ a :: cs := by
      intro m
      simp only [List.mem_cons]
      tauto
    refine ⟨fun _ => .inr List.mem_cons_self, List.forall_mem_cons.mpr ⟨?_, ?_⟩⟩
    · intro m hm hk
      obtain rfl : n = m := Option.some.inj (hn.symm.trans hm)
      exact hshift n (hahead hk)
    · exact fun b hb m hm hk => hshift m (hrest b hb m hm hk)

/-- **The loop counts the cells that can be reached.** -/
theorem mem_iff (hcs : h.CountsOver [] a cs) (c : Addr) : c ∈ cs ↔ c ∈ h.cellsFrom a := by
  constructor
  · intro hc
    obtain ⟨i, hi⟩ := List.getElem?_of_mem hc
    exact ⟨hcs.offers.kind_of_mem c hc, i, (hcs.offers.nth_eq hi).1⟩
  · rintro ⟨hk, i, hi⟩
    obtain ⟨hahead, hnext⟩ := hcs.closed
    simp only [List.not_mem_nil, false_or] at hahead hnext
    -- cells are reached by links, so a set with the head that is closed under links has all
    induction i generalizing c with
    | zero =>
      obtain rfl : a = c := Option.some.inj hi
      exact hahead hk
    | succ i ih =>
      obtain ⟨b, hb, hn⟩ := exists_nth_of_succ hi
      exact hnext b (ih b (kind_of_next? hn) hb) c hn hk

/-- The number of cells that can be reached. -/
theorem ncard_cellsFrom (hcs : h.CountsOver [] a cs) : (h.cellsFrom a).ncard = cs.length := by
  have hset : h.cellsFrom a = (cs.toFinset : Set Addr) := by
    ext c
    rw [Finset.mem_coe, List.mem_toFinset, hcs.mem_iff]
  rw [hset, Set.ncard_coe_finset, List.toFinset_card_of_nodup hcs.nodup.1]

/-- With a bound on its steps the loop comes to the same if there are enough of them. -/
theorem lapFrom_eq (hcs : h.CountsOver seen a cs) (ha : h.Linked a) {k : ℕ} (hk : cs.length ≤ k) :
    h.lapFrom k seen a = ⟨cs, none⟩ := by
  induction hcs generalizing k with
  | @ended seen a hnothing =>
    cases k with
    | zero => rfl
    | succ k =>
      -- without a cell there the lap is over, whatever the fuel
      revert hnothing
      unfold lapFrom kind
      cases h.body a <;> simp [Body.kind]
  | @met seen a hmet =>
    cases k with
    | zero => rfl
    | succ k =>
      have hkind := ha.kind
      revert hkind
      unfold lapFrom kind
      cases h.body a <;> simp [Body.kind, hmet]
  | @cell seen a n cs hnew hn _ ih =>
    -- each cell takes a unit of fuel, so the length of the lap is enough of it
    obtain ⟨k, rfl⟩ := Nat.exists_eq_add_of_le' (Nat.le_trans (Nat.le_add_left 1 _) hk)
    obtain ⟨item, hbody⟩ := next?_eq_some_iff.mp hn
    have ih := ih (ha.next hn) (Nat.le_of_succ_le_succ hk)
    rw [lapFrom, hbody]
    simp only [ih]
    rw [if_neg (by simpa using hnew)]

theorem distinctCells_eq (hcs : h.CountsOver [] a cs) (ha : h.Linked a) :
    ListHeader.distinctCells a h = .ok cs.length := by
  rw [ListHeader.distinctCells, lap, hcs.lapFrom_eq ha hcs.length_le]
  rfl

end CountsOver

theorem AgreeOn.countsOver (hh : AgreeOn S h h') (ha : a ∈ S) (hcs : h.CountsOver seen a cs) :
    h'.CountsOver seen a cs := by
  induction hcs with
  | ended hk => exact .ended ((hh.kind_eq _ ha).trans hk)
  | met hmet => exact .met hmet
  | cell hnew hn _ ih => exact .cell hnew ((hh.next_eq _ ha).trans hn) (ih (hh.closed _ ha _ hn))

end Heap

/-! ### Walks -/

/-- **A cursor goes over some cells until it ends.**  Each advance goes over the cell where the
cursor is, and gives out the element in it. -/
inductive Cursor.GoesOver : Cursor → Store → List (Addr × Addr) → Prop
  /-- No cell is ahead, and the cursor stays where it is. -/
  | ended {c : Cursor} {s t : Store} : c.next.run s = (.ok (none, c), t) → GoesOver c s []
  /-- One cell is gone over, and then the others. -/
  | next {c d : Cursor} {s t : Store} {a : Addr} {cells : List (Addr × Addr)} :
    c.next.run s = (.ok (some a, d), t) → GoesOver d t cells →
    GoesOver c s ((c.handle, a) :: cells)

/-- **A cursor with the right number of steps** goes over the cells in the order of the links, and
then ends, whatever comes after the last of them. -/
theorem Heap.Offers.goesOver (hcs : s.heap.Offers link cs)
    (hh : s.heap.Exact (held + {link})) :
    Cursor.GoesOver (.list link cs.length) s (cs.map fun c => (c, s.heap.itemOf c)) := by
  induction cs generalizing s link held with
  | nil =>
    have hnext : Ensures (Cursor.next (.list link 0)) s (fun r _ => r = (none, .list link 0))
        fun _ _ => False := ensures_next_nil.mpr rfl
    obtain ⟨r, t, hrun, rfl⟩ := hnext.exists_ok
    exact .ended hrun
  | cons c cs ih =>
    -- the cursor takes one cell, which leaves the other cells and their items as they are
    rcases hcs with _ | ⟨hn, hrest⟩
    obtain ⟨t, hrun, hexact, hchain, hitems⟩ := run_next_cell hh hn hrest cs.length
    have hwalk := ih hchain hexact
    have hcells : (cs.map fun c => (c, t.heap.itemOf c)) = cs.map fun c => (c, s.heap.itemOf c) :=
      List.map_congr_left fun c hc => congrArg (c, ·) (List.map_inj_left.mp hitems c hc)
    rw [hcells] at hwalk
    exact .next hrun hwalk

/-- So does a new cursor on a list. -/
theorem Heap.Walked.goesOver {l : ListHeader} {as : List Addr} (hw : s.heap.Walked x l cs as)
    (hh : s.heap.Exact held) :
    ∃ c u, (Cursor.start x).run s = (.ok c, u) ∧
      c.GoesOver u (cs.map fun c => (c, s.heap.itemOf c)) := by
  have hlive := hh.live_of_mem hw.body List.mem_cons_self
  have hretain := hh.retain hlive
  have hoffers := (hw.offers.congr hh hretain hlive (live_retain.mpr hlive)
    fun a _ _ => body_retain ..).1
  have hitems (c : Addr) : (s.heap.retain l.head).itemOf c = s.heap.itemOf c := by
    rw [itemOf, itemOf, body_retain]
  have hwalk := Offers.goesOver (s := { s with heap := s.heap.retain l.head }) hoffers hretain
  simp only [hitems, ← hw.size] at hwalk
  exact ⟨_, _, Cursor.run_start_list hw.body, hwalk⟩

/-! ### Lists -/

/-- **A list is counted anew** and becomes as long as it has cells. -/
structure Store.Recounts (s : Store) (x : Addr) (l : ListHeader) (cs : List Addr) (t : Store) :
    Prop where
  /-- The loop that counts the cells ends. -/
  counted : s.heap.CountsOver [] l.head cs
  /-- No cell is counted twice. -/
  nodup : cs.Nodup
  /-- The cells are those that can be reached from the head. -/
  mem_iff : ∀ c, c ∈ cs ↔ c ∈ s.heap.cellsFrom l.head
  /-- So there are as many of them. -/
  ncard_eq : (s.heap.cellsFrom l.head).ncard = cs.length
  /-- They are counted in the order of the links. -/
  nth_eq : ∀ i (hi : i < cs.length), s.heap.nth l.head i = some cs[i]
  /-- Their number is the answer. -/
  run_recount : (l.recount x).run s = (.ok cs.length, t)
  /-- The list has the new size. -/
  body : t.heap.body x = .list { l with size := cs.length }
  /-- Nothing else is changed. -/
  store_eq : t = { s with heap := s.heap.setBody x (.list { l with size := cs.length }) }
  /-- A new cursor goes over each of the cells once, in the same order. -/
  walked : ∃ c u, (Cursor.start x).run t = (.ok c, u) ∧
    c.GoesOver u (cs.map fun c => (c, s.heap.itemOf c))
  /-- Nothing is changed if the list is counted again. -/
  again : ∀ m, t.heap.body x = .list m → (m.recount x).run t = (.ok m.size, t)

namespace Heap

variable {held : Multiset Addr} {x : Addr} {cs : List Addr} {l : ListHeader} {s : Store}

/-- What is written over is gone. -/
theorem setBody_setBody (h : Heap) (a : Addr) (old new : Body) :
    (h.setBody a old).setBody a new = h.setBody a new := by
  have hblocks : (h.blocks.modify a (·.map fun b => { b with body := old })).modify a
      (·.map fun b => { b with body := new }) =
      h.blocks.modify a (·.map fun b => { b with body := new }) := by
    apply Array.ext_getElem?
    intro i
    simp only [Array.getElem?_modify]
    split
    · rcases h.blocks[i]? with _ | _ | b <;> rfl
    · rfl
  exact congrArg (fun blocks => { h with blocks }) hblocks

namespace CountsOver

/-- The number of the cells becomes the size. -/
theorem run_recount (hcs : s.heap.CountsOver [] l.head cs) (hl : s.heap.Linked l.head) (x : Addr) :
    (l.recount x).run s = (.ok cs.length,
      { s with heap := s.heap.setBody x (.list { l with size := cs.length }) }) := by
  rw [ListHeader.recount, run_bind, run_check, hcs.distinctCells_eq hl]
  rfl

/-- All links are as they were, so the same cells are counted the next time. -/
theorem setBody (hcs : s.heap.CountsOver [] l.head cs) (hl : s.heap.Linked l.head)
    (hx : s.heap.body x = .list l) (size : ℕ) :
    (s.heap.setBody x (.list { l with size })).CountsOver [] l.head cs ∧
      (s.heap.setBody x (.list { l with size })).Linked l.head := by
  have hagree : AgreeOn Set.univ s.heap (s.heap.setBody x (.list { l with size })) :=
    agreeOn_setBody (live_of_body hx (by simp)) hx rfl rfl
  exact ⟨hagree.countsOver (Set.mem_univ _) hcs, hagree.linked (Set.mem_univ _) hl⟩

end CountsOver

/-- **A list is counted anew**, whether its chain ends, is a circle or leads into a circle. -/
theorem Exact.recounts (hh : s.heap.Exact held) (hx : s.heap.body x = .list l)
    (hl : s.heap.Linked l.head) : ∃ cs t, s.Recounts x l cs t := by
  obtain ⟨cs, hcs⟩ := hl.exists_countsOver List.nodup_nil (by simp)
  -- the header is no cell, so with the new count in it the same cells are counted again
  obtain ⟨hcs', hl'⟩ := hcs.setBody hl hx cs.length
  have hrun := hcs.run_recount hl x
  have hexact := (ensures_of_ok hrun).mp (kept_exact.list_recount (Set.mem_univ _) hh hx)
  have hbody := body_setBody (live_of_body hx (by simp)) (.list { l with size := cs.length })
  refine ⟨cs, { s with heap := s.heap.setBody x (.list { l with size := cs.length }) }, ?_⟩
  exact
    { counted := hcs
      nodup := hcs.nodup.1
      mem_iff := hcs.mem_iff
      ncard_eq := hcs.ncard_cellsFrom
      nth_eq := fun i hi => (hcs.offers.nth_eq (List.getElem?_eq_getElem hi)).1
      run_recount := hrun
      body := hbody
      store_eq := rfl
      walked := by
        have hwalk := Walked.goesOver ⟨hbody, hcs'.offers, rfl, rfl⟩ hexact
        have hitems (c : Addr) :
            (s.heap.setBody x (.list { l with size := cs.length })).itemOf c = s.heap.itemOf c := by
          rw [itemOf, itemOf, cell?_setBody hx (by simp) (by rfl)]
        simpa only [hitems] using hwalk
      again := by
        intro m hm
        obtain rfl := Body.list.inj (hbody.symm.trans hm)
        rw [hcs'.run_recount hl' x, setBody_setBody] }

end Heap

/-- A list of four words whose third cell is linked back to the second: three cells are counted, and
the new size makes a cursor stop before it comes to the second cell again. -/
theorem Session.lasso_recounted :
    let s := (run [.build (.words ["a", "b", "c", "d"]) ⟨some "x", true⟩,
      .derive "x" (.piece .butFirst .checked) ⟨some "y", true⟩,
      .derive "y" (.piece .butFirst .checked) ⟨some "z", true⟩,
      .change "z" (.setButFirst .checked) (.register "y") true] {}).2.store
    (∃ held, s.heap.Exact held) ∧ s.heap.body 9 = .list { head := 8, size := 4 } ∧
      s.heap.Linked 8 ∧ s.heap.next? 8 = some 7 ∧ s.heap.next? 7 = some 6 ∧
      s.heap.next? 6 = some 7 ∧
      ∃ t, s.Recounts 9 { head := 8, size := 4 } [8, 7, 6] t := by
  intro s
  have hexact : ∃ held, s.heap.Exact held := ⟨_, exact_run _⟩
  have hfacts : s.heap.body 9 = .list { head := 8, size := 4 } ∧
      (∀ b ∈ [6, 7, 8], s.heap.kind b = .cell) ∧ s.heap.next? 8 = some 7 ∧
      s.heap.next? 7 = some 6 ∧ s.heap.next? 6 = some 7 ∧ (s.heap.lap 8).found = [8, 7, 6] := by
    decide +kernel
  clear_value s
  obtain ⟨hx, hcells, h8, h7, h6, hlap⟩ := hfacts
  -- the three cells are closed under links, although the last one leads back
  have hlinked : s.heap.Linked 8 := by
    refine linked_of_closed (S := [6, 7, 8]) (fun b hb => .inl (hcells b hb)) ?_ (by decide)
    simp [h8, h7, h6]
  obtain ⟨held, hh⟩ := hexact
  obtain ⟨cs, t, hrecounts⟩ := hh.recounts hx hlinked
  -- the lap is what the theorem counts, and its cells are computed
  have hfound := hrecounts.counted.lapFrom_eq hlinked hrecounts.counted.length_le
  obtain rfl : cs = [8, 7, 6] := by rw [← hlap, lap, hfound]
  exact ⟨⟨held, hh⟩, hx, hlinked, h8, h7, h6, t, hrecounts⟩

end SharedValues
