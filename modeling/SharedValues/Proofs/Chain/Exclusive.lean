import SharedValues.Proofs.Heap.Build

/-!
# Chains with one holder

Where counts are exact, a block with a count of one is stored in one place, so whoever reaches it
comes from there.  Two lists that meet in such a block, on a way along which all counts are one,
are the same list.  In particular the links of one list do not run in a circle along such a way,
which is why the search for the last cell comes to an end.

## Main definitions

* `Heap.Sole` — one handle leads to a block.

## Main results

* `Exact.storer_unique` — a block with one handle is stored in one other block.
* `Exact.nth_unique` — lists that meet on a way of single handles are one list.
* `Exact.nth_ne_last`, `Exact.chain_relink` — a cell put behind such a way is seen by one list.
* `lastExclusiveWithin_spec` — how the search for the last cell can end.
-/

namespace SharedValues.Heap

variable {h : Heap} {held : Multiset Addr} {a b c n p q x y : Addr} {l m : ListHeader}

/-- No more than one handle leads to a block. -/
def Sole (h : Heap) (a : Addr) : Prop := h.count a ≤ 1

/-! ### Holders -/

/-- A count is at least the number of handles held outside and stored. -/
theorem Exact.le_count (hh : h.Exact held) (ha : h.Live a) :
    (held + h.stored).count a ≤ h.count a := by
  obtain ⟨k, hk⟩ := ha
  have hcount : h.count a = k.count := by simp [count, hk]
  rw [hcount, hh.count_eq hk]
  exact Nat.le_add_right _ _

/-- What is stored in two places is counted twice. -/
theorem count_two_le_stored {b' c' : Block} (hb : h.block? p = some b') (hc : h.block? q = some c')
    (hpq : p ≠ q) (hpa : a ∈ b'.body.handles) (hqa : a ∈ c'.body.handles) :
    2 ≤ h.stored.count a := by
  have hq : (h.remove p).block? q = some c' := by rw [block?_remove, if_neg hpq, hc]
  have hrest : 0 < (h.remove p).stored.count a := Multiset.count_pos.mpr (mem_stored hq hqa)
  have hfirst : 0 < (b'.body.handles : Multiset Addr).count a := Multiset.count_pos.mpr hpa
  have hsum : h.stored.count a
      = (h.remove p).stored.count a + (b'.body.handles : Multiset Addr).count a := by
    rw [← stored_remove hb, Multiset.count_add]
  omega

/-- A block with one handle is stored in one other block. -/
theorem Exact.storer_unique (hh : h.Exact held) (hsole : h.Sole a)
    (hpa : a ∈ (h.body p).handles) (hqa : a ∈ (h.body q).handles) : p = q := by
  obtain ⟨b', hb, hbody⟩ := exists_block?_of_mem hpa
  obtain ⟨c', hc, hcody⟩ := exists_block?_of_mem hqa
  by_contra hpq
  have htwo := count_two_le_stored hb hc hpq (hbody ▸ hpa) (hcody ▸ hqa)
  have hle := hh.le_count (hh.live_of_mem rfl hpa)
  rw [Multiset.count_add] at hle
  unfold Sole at hsole
  omega

/-- A block with one handle that is stored is not held outside. -/
theorem Exact.not_held (hh : h.Exact held) (hsole : h.Sole a) (hpa : a ∈ (h.body p).handles) :
    a ∉ held := by
  intro hmem
  have hstored := count_stored_pos hpa
  have hheld : 0 < held.count a := Multiset.count_pos.mpr hmem
  have hle := hh.le_count (hh.live_of_mem rfl hpa)
  rw [Multiset.count_add] at hle
  unfold Sole at hsole
  omega

/-! ### Ways of single handles -/

theorem mem_handles_of_list (hx : h.body x = .list l) : l.head ∈ (h.body x).handles := by
  rw [hx]
  exact List.mem_cons_self

theorem mem_handles_of_next? (hn : h.next? a = some n) : n ∈ (h.body a).handles := by
  obtain ⟨item, hbody⟩ := next?_eq_some_iff.mp hn
  rw [hbody]
  simp [Body.handles]

/-- What a list reaches is stored somewhere. -/
theorem exists_storer (hx : h.body x = .list l) {i : ℕ} (hi : h.nth l.head i = some a) :
    ∃ p, a ∈ (h.body p).handles := by
  cases i with
  | zero =>
    obtain rfl := Option.some.inj hi
    exact ⟨x, mem_handles_of_list hx⟩
  | succ i =>
    obtain ⟨p, -, hn⟩ := exists_nth_of_succ hi
    exact ⟨p, mem_handles_of_next? hn⟩

/-- **Lists that meet** on a way of single handles are one list, and meet at the same step. -/
theorem Exact.nth_unique (hh : h.Exact held) (hx : h.body x = .list l) (hy : h.body y = .list m) :
    ∀ {i j : ℕ} {a : Addr}, h.nth l.head i = some a → h.nth m.head j = some a →
      (∀ k ≤ i, ∀ c, h.nth l.head k = some c → h.Sole c) → x = y ∧ i = j := by
  -- a list is not a cell, so a link stored in a list is not stored in a cell
  have hsplit : ∀ {z : Addr} {k : ListHeader} {p a : Addr}, h.body z = .list k →
      h.next? p = some a → h.Sole a → a ∈ (h.body z).handles → False := by
    intro z k p a hz hn hsole hmem
    obtain rfl := hh.storer_unique hsole hmem (mem_handles_of_next? hn)
    simp [next?, hz, Body.cell?] at hn
  intro i
  induction i with
  | zero =>
    intro j a hi hj hsole
    obtain rfl := Option.some.inj hi
    cases j with
    | zero =>
      have hhead : m.head = l.head := Option.some.inj hj
      refine ⟨hh.storer_unique (hsole 0 (Nat.le_refl _) _ rfl) (mem_handles_of_list hx) ?_, rfl⟩
      rw [← hhead]
      exact mem_handles_of_list hy
    | succ j =>
      obtain ⟨p, -, hn⟩ := exists_nth_of_succ hj
      exact (hsplit hx hn (hsole 0 (Nat.le_refl _) _ rfl) (mem_handles_of_list hx)).elim
  | succ i ih =>
    intro j a hi hj hsole
    obtain ⟨p, hp, hpa⟩ := exists_nth_of_succ hi
    cases j with
    | zero =>
      obtain rfl := Option.some.inj hj
      exact (hsplit hy hpa (hsole _ (Nat.le_refl _) _ hi) (mem_handles_of_list hy)).elim
    | succ j =>
      obtain ⟨q, hq, hqa⟩ := exists_nth_of_succ hj
      obtain rfl := hh.storer_unique (hsole _ (Nat.le_refl _) _ hi) (mem_handles_of_next? hpa)
        (mem_handles_of_next? hqa)
      obtain ⟨hxy, hij⟩ := ih hp hq fun k hk => hsole k (hk.trans (Nat.le_succ _))
      exact ⟨hxy, congrArg (· + 1) hij⟩

/-- A way of single handles is not longer than the heap. -/
theorem Exact.sole_lt (hh : h.Exact held) (hx : h.body x = .list l) {k : ℕ}
    (hway : ∀ i < k, ∃ c, h.nth l.head i = some c ∧ h.kind c = .cell ∧ h.Sole c) :
    k ≤ h.blocks.size := by
  choose! f hf using hway
  -- a cell met twice would be met at the same step
  have hinj : ∀ i < k, ∀ j < k, f i = f j → i = j := by
    intro i hi j hj hij
    have hfi := (hf i hi).1
    have hfj := (hf j hj).1
    rw [← hij] at hfj
    refine (hh.nth_unique hx hx hfi hfj ?_).2
    intro k' hk' c hc
    have hk := hf k' (Nat.lt_of_le_of_lt hk' hi)
    obtain rfl := Option.some.inj (hk.1.symm.trans hc)
    exact hk.2.2
  have hnodup : ((List.range k).map f).Nodup := by
    refine List.Nodup.map_on ?_ List.nodup_range
    intro i hi j hj hij
    exact hinj i (List.mem_range.mp hi) j (List.mem_range.mp hj) hij
  -- cells live, and what lives has an address below the size of the heap
  have hsubset : (List.range k).map f ⊆ List.range h.blocks.size := by
    intro c hc
    obtain ⟨i, hi, rfl⟩ := List.mem_map.mp hc
    have hkind := (hf i (List.mem_range.mp hi)).2.1
    refine List.mem_range.mpr (live_of_body (h := h) (a := f i) rfl ?_).lt_size
    intro hnothing
    rw [Heap.kind, hnothing] at hkind
    exact absurd hkind (by decide)
  simpa using hnodup.length_le_of_subset hsubset

/-! ### The search for the last cell -/

/-- **How the search for the last cell can end**: at the last cell of a chain with single handles;
at a cell that has more handles; at a value that is no cell; or because the way was too long. -/
theorem lastExclusiveWithin_spec (h : Heap) (k : ℕ) (a : Addr) :
    match h.lastExclusiveWithin k a with
    | .ok last => ∃ cs, h.Chain a (cs ++ [last]) ∧ ∀ c ∈ cs ++ [last], h.Sole c
    | .error (.refused r) =>
      r = .sharedCells ∧ ∃ i c, h.nth a i = some c ∧ ¬h.Sole c ∧ (i = 0 ∨ h.kind c ≠ .nothing)
    | .error (.violated _) =>
      ∃ i c, h.nth a i = some c ∧ h.kind c ≠ .cell ∧ (i = 0 ∨ h.kind c ≠ .nothing)
    | .error (.unbound _) => False
    | .error .endless => ∀ i < k, ∃ c, h.nth a i = some c ∧ h.kind c = .cell ∧ h.Sole c := by
  induction k generalizing a with
  | zero => exact fun i hi => absurd hi (Nat.not_lt_zero i)
  | succ k ih =>
    rw [lastExclusiveWithin]
    by_cases hcount : 1 < h.count a
    · rw [if_pos hcount]
      exact ⟨rfl, 0, a, rfl, Nat.not_le.mpr hcount, Or.inl rfl⟩
    rw [if_neg hcount]
    have hsole : h.Sole a := Nat.le_of_not_lt hcount
    cases hbody : h.body a with
    | cell item next =>
      have hn : h.next? a = some next := next?_eq_some_iff.mpr ⟨item, hbody⟩
      dsimp only
      by_cases hnothing : h.isNothing next = true
      · -- the link ends the chain
        rw [if_pos hnothing]
        refine ⟨[], .cons hn (.nil (by simpa [isNothing] using hnothing)), ?_⟩
        simpa using hsole
      rw [if_neg hnothing]
      have hkind : h.kind next ≠ .nothing := by simpa [isNothing] using hnothing
      have hstep : ∀ {i : ℕ} {c : Addr}, h.nth next i = some c → (i = 0 ∨ h.kind c ≠ .nothing) →
          h.nth a (i + 1) = some c ∧ h.kind c ≠ .nothing := by
        rintro i c hc hi
        refine ⟨nth_next hn i ▸ hc, ?_⟩
        rcases hi with rfl | hi
        · obtain rfl := Option.some.inj hc
          exact hkind
        · exact hi
      -- one step more in front of however the search ends behind the link
      have ih := ih next
      split at ih
      · obtain ⟨cs, hcs, hall⟩ := ih
        refine ⟨a :: cs, .cons hn hcs, ?_⟩
        simpa using ⟨hsole, by simpa using hall⟩
      · obtain ⟨rfl, i, c, hc, hshared, hi⟩ := ih
        exact ⟨rfl, i + 1, c, (hstep hc hi).1, hshared, Or.inr (hstep hc hi).2⟩
      · obtain ⟨i, c, hc, hno, hi⟩ := ih
        exact ⟨i + 1, c, (hstep hc hi).1, hno, Or.inr (hstep hc hi).2⟩
      · exact ih
      · intro i hi
        cases i with
        | zero => exact ⟨a, rfl, kind_of_next? hn, hsole⟩
        | succ i =>
          rw [nth_next hn]
          exact ih i (Nat.lt_of_succ_lt_succ hi)
    | _ => exact ⟨0, a, rfl, by simp [Heap.kind, hbody, Body.kind], Or.inl rfl⟩

/-- The last cell of a chain with single handles. -/
theorem chain_of_lastExclusive {last : Addr} (hl : h.lastExclusive a = .ok last) :
    ∃ cs, h.Chain a (cs ++ [last]) ∧ ∀ c ∈ cs ++ [last], h.Sole c := by
  have hspec := lastExclusiveWithin_spec h (h.blocks.size + 1) a
  rw [show h.lastExclusiveWithin (h.blocks.size + 1) a = .ok last from hl] at hspec
  exact hspec

/-! ### A cell behind an exclusive chain -/

/-- Another list that leads to the last cell would be the same list. -/
theorem Exact.nth_ne_last (hh : h.Exact held) (hx : h.body x = .list l) {last : Addr}
    (hlast : h.lastExclusive l.head = .ok last) (hy : h.body y = .list m) (hyx : y ≠ x) (i : ℕ) :
    h.nth m.head i ≠ some last := by
  intro hi
  obtain ⟨cs, hcs, hsole⟩ := chain_of_lastExclusive hlast
  obtain ⟨j, hj⟩ :=
    List.mem_iff_getElem?.mp (List.mem_append_right cs (List.mem_singleton_self last))
  have hlt : j < (cs ++ [last]).length := (List.getElem?_eq_some_iff.mp hj).1
  refine hyx (hh.nth_unique hx hy (hcs.nth_of_getElem? hj) hi ?_).1.symm
  intro k hk b hb
  exact hsole b (hcs.mem_of_nth (Nat.lt_of_le_of_lt hk hlt) hb)

/-- The chain gets longer by a cell that is linked to nothing, if the last cell is linked to it. -/
theorem Exact.chain_relink {g : Heap} {as cs : List Addr} {i e item last : Addr}
    {header : ListHeader} (hg : g.Exact held) (hx : h.body x = .list l)
    (hhead : g.Live l.head) (hcs : h.Chain l.head (cs ++ [last]))
    (hlast : h.body last = .cell item n) (hc : h.body c = .cell i e) (he : h.kind e = .nothing)
    (hclast : c ≠ last) (hthins : (h.relink last item c as x header).Thins g) :
    g.Chain l.head (cs ++ [last] ++ [c]) := by
  have hne : ∀ {a : Addr}, h.kind a = .nothing ∨ h.kind a = .cell → a ≠ x := by
    rintro a ha rfl
    simp [kind, hx, Body.kind] at ha
  have hkind : h.kind last = .cell := by rw [kind, hlast, Body.kind]
  -- only the last cell and the list itself have another content
  have hsame : ∀ {a : Addr}, g.Live a → h.kind a = .nothing ∨ h.kind a = .cell → a ≠ last →
      g.body a = h.body a := fun ha hk halast => body_relink_of_ne hthins ha (hne hk) halast
  refine hcs.snoc hg hhead (fun ha => ?_) fun b hb ha => ?_
  · have hn : g.next? last = some c := next?_eq_some_iff.mpr
      ⟨item, body_relink_self hthins ha (hne (Or.inr hkind)) (live_of_body hlast (by simp))⟩
    have hcg := hsame (hg.live_next hn) (Or.inr (by rw [kind, hc, Body.kind])) hclast
    have hn' : g.next? c = some e := next?_eq_some_iff.mpr ⟨i, hcg.trans hc⟩
    refine ⟨hn, .cons hn' (.nil ?_)⟩
    rw [kind, hsame (hg.live_next hn') (Or.inl he), ← he, kind]
    rintro rfl
    exact absurd (hkind.symm.trans he) (by decide)
  · -- the last cell is the last place of the chain, and in no other
    have hblast : b ≠ last := by
      rintro rfl
      exact List.disjoint_of_nodup_append hcs.nodup hb List.mem_cons_self
    rw [next?, next?, hsame ha (Or.inr (hcs.kind_of_mem b (List.mem_append_left _ hb))) hblast]

end SharedValues.Heap
