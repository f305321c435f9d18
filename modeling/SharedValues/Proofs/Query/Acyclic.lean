import SharedValues.Proofs.Query.Nesting
import SharedValues.Proofs.Query.Symmetry

/-!
# Comparing values without cycles

A comparison keeps a trail of the sequences that it is inside of, so that it ends even where
sequences contain themselves.  Where they do not, all that is of no consequence.  A sequence on the
trail is one that the comparison came from, so it is met again only if it is reached from itself.
The two sides may share any of their parts, with each other and within themselves: the trail has
only the way down to the present pair, and forgets a pair as soon as it is done with it.

So two values without cycles are compared as their trees are.

## Main definitions

* `Heap.plainEqual` — the comparison of two trees, without a trail.
* `Heap.LeadsTo` — what is reached from a value through elements.
* `Heap.Treelike` — values over texts from which no cycle is reached.

## Main results

* `Treelike.plainEqual_self` — a tree is equal to itself.
* `Treelike.run_equalWithin` — inside of a trail that does not matter, trees are compared.
* `equal_eq_plainEqual` — and so they are outside of any comparison.
-/

namespace SharedValues

theorem Word.sameText_self (ignoreCase : Bool) (w : Word) : sameText ignoreCase w w = true := by
  unfold sameText
  split <;> exact beq_self_eq_true _

namespace Heap

variable {h : Heap} {σ : Settled} {ignoreCase : Bool} {a b x y : Addr} {v w : Word} {t : Trail}
  {n m : ℕ} {ε : Type}

/-! ### The comparison of trees -/

/-- Whether the elements of two sequences are the same one by one, as far as it is known. -/
def allSame (same : Addr → Addr → Option Bool) : List Addr → List Addr → Option Bool
  | x :: xs, y :: ys => do if ← same x y then allSame same xs ys else return false
  | [], [] => return true
  | _, _ => return false

/-- Whether two values are the same as trees, as far as it is known within `n` levels: they are of
one kind, words have the same text, sequences are of one size and have the same elements, and other
values are one block. -/
def plainEqual (h : Heap) (ignoreCase : Bool) : ℕ → Addr → Addr → Option Bool
  | 0, _, _ => none
  | n + 1, x, y =>
    if h.kind x ≠ h.kind y then return false
    else
      match h.body x, h.body y with
      | .word v, .word w => return Word.sameText ignoreCase v w
      | .list _, _ | .array .., _ =>
        let xs := (h.elements x).found
        let ys := (h.elements y).found
        if xs.length ≠ ys.length then return false else allSame (h.plainEqual ignoreCase n) xs ys
      | _, _ => return x == y

theorem plainEqual_of_kind_ne (hkind : h.kind x ≠ h.kind y) :
    h.plainEqual ignoreCase (n + 1) x y = some false := by
  rw [plainEqual, if_pos hkind]
  rfl

theorem plainEqual_of_words (hx : h.body x = .word v) (hy : h.body y = .word w) :
    h.plainEqual ignoreCase (n + 1) x y = some (Word.sameText ignoreCase v w) := by
  have hkind : h.kind x = h.kind y := by rw [kind_of_word hx, kind_of_word hy]
  rw [plainEqual, if_neg (not_not.mpr hkind), hx, hy]
  rfl

theorem plainEqual_of_sequence (hx : h.IsSequence x) (hkind : h.kind x = h.kind y) :
    h.plainEqual ignoreCase (n + 1) x y =
      if (h.elements x).found.length ≠ (h.elements y).found.length then some false
      else allSame (h.plainEqual ignoreCase n) (h.elements x).found (h.elements y).found := by
  rw [plainEqual, if_neg (not_not.mpr hkind)]
  unfold IsSequence kind at hx
  revert hx
  cases h.body x <;> simp [Body.kind]

theorem plainEqual_of_plain (hkind : h.kind x = h.kind y) (hword : h.kind x ≠ .word)
    (hseq : ¬h.IsSequence x) : h.plainEqual ignoreCase (n + 1) x y = some (x == y) := by
  rw [plainEqual, if_neg (not_not.mpr hkind)]
  unfold IsSequence kind at *
  revert hword hseq
  cases h.body x <;> simp [Body.kind]

/-! ### Values without cycles -/

/-- A value is an element of a list or an array. -/
def HasElement (h : Heap) (a b : Addr) : Prop := b ∈ (h.elements a).found

/-- A value is reached from another one through the elements of lists and arrays. -/
def LeadsTo (h : Heap) : Addr → Addr → Prop := Relation.ReflTransGen h.HasElement

/-- **A tree of texts**, any parts of which may be shared: no cycle is reached from the value, the
lists that are reached have the right sizes, and the words are in text form. -/
structure Treelike (h : Heap) (σ : Settled) (x : Addr) : Prop where
  /-- Nothing is reached that is reached from itself again. -/
  acyclic : ∀ a, h.LeadsTo x a → ¬Relation.TransGen h.HasElement a a
  /-- The sizes of lists are the lengths of their chains. -/
  list : ∀ a l, h.LeadsTo x a → h.body a = .list l → ∃ cs, h.Chain l.head cs ∧ l.size = cs.length
  /-- The words are in text form. -/
  text : ∀ a w, h.LeadsTo x a → h.body a = .word w → w.freshness (σ.contains a) = .text

/-- Elements that are the same as themselves are the same one by one. -/
theorem allSame_self {same : Addr → Addr → Option Bool} {as : List Addr}
    (hsame : ∀ a ∈ as, same a a = some true) : allSame same as as = some true := by
  induction as with
  | nil => rfl
  | cons a as ih =>
    rw [allSame, hsame a List.mem_cons_self]
    exact ih fun b hb => hsame b (List.mem_cons_of_mem _ hb)

namespace Treelike

theorem element (hx : h.Treelike σ x) (hb : h.HasElement x b) : h.Treelike σ b where
  acyclic a ha := hx.acyclic a (.head hb ha)
  list a l ha := hx.list a l (.head hb ha)
  text a w ha := hx.text a w (.head hb ha)

/-- A value is not reached from its elements. -/
theorem not_leadsTo (hx : h.Treelike σ x) (hb : h.HasElement x b) : ¬h.LeadsTo b x :=
  fun hbx => hx.acyclic x .refl (.head' hb hbx)

theorem fault? (hx : h.Treelike σ x) : (h.elements x).fault? = none :=
  fault?_elements fun l hl => by
    obtain ⟨cs, hcs, -⟩ := hx.list x l .refl hl
    exact hcs.linked

/-- Fewer values are reached from an element. -/
theorem places_lt (hx : h.Treelike σ x) (hseq : h.IsSequence x) (hb : h.HasElement x b) :
    h.places (h.LeadsTo b) < h.places (h.LeadsTo x) :=
  Heap.places_lt (fun _ hc => .head hb hc) hseq.live .refl (hx.not_leadsTo hb)

/-- A tree is equal to itself, if there are levels for all that is reached from it. -/
theorem plainEqual_self (hx : h.Treelike σ x) (hm : h.places (h.LeadsTo x) < m) :
    h.plainEqual ignoreCase m x x = some true := by
  induction m generalizing x with
  | zero => exact absurd hm (Nat.not_lt_zero _)
  | succ m ih =>
    by_cases hseq : h.IsSequence x
    · rw [plainEqual_of_sequence hseq rfl, if_neg (not_not.mpr rfl)]
      refine allSame_self fun b hb => ih (hx.element hb) ?_
      exact (hx.places_lt hseq hb).trans_le (Nat.le_of_lt_succ hm)
    by_cases hword : h.kind x = .word
    · obtain ⟨w, hw⟩ := exists_word_of_kind hword
      rw [plainEqual_of_words hw hw, Word.sameText_self]
    · rw [plainEqual_of_plain rfl hword hseq, beq_self_eq_true]

end Treelike

theorem mem_parts_of_element (hab : h.HasElement a b) : b ∈ h.parts a := by
  unfold HasElement elements at hab
  unfold parts elements
  revert hab
  cases h.body a <;> simp

/-- What is reached through elements is within the value. -/
theorem LeadsTo.within (hab : h.LeadsTo a b) : h.Within a b :=
  Relation.ReflTransGen.mono (fun _ _ => mem_parts_of_element) a b hab

/-- Nestings are trees. -/
theorem Nesting.treelike (hx : h.Nesting σ x) : h.Treelike σ x where
  acyclic a ha hself := by
    obtain ⟨b, hb, hba⟩ := Relation.TransGen.head'_iff.mp hself
    exact hx.acyclic a ha.within b (mem_parts_of_element hb) (LeadsTo.within hba)
  list a l ha := hx.list a l ha.within
  text a w ha hw := (hx.word a w ha.within hw).1

/-! ### Inside of a trail -/

/-- Elements that are compared like trees are so one after the other. -/
theorem run_walksEqual_trees {same : Addr → Addr → Query ε Bool} {halt : Fault → ε}
    {tree : Addr → Addr → Option Bool} {as bs : List Addr}
    (hsame : ∀ a ∈ as, ∀ b ∈ bs, ∃ r, tree a b = some r ∧ (same a b).run σ = (.ok r, σ)) :
    ∃ r, allSame tree as bs = some r ∧
      (walksEqual same halt as none bs none).run σ = (.ok r, σ) := by
  induction as generalizing bs with
  | nil => cases bs <;> exact ⟨_, rfl, rfl⟩
  | cons a as ih =>
    cases bs with
    | nil => exact ⟨_, rfl, rfl⟩
    | cons b bs =>
      obtain ⟨r, htree, hrun⟩ := hsame a List.mem_cons_self b List.mem_cons_self
      rw [allSame, walksEqual, run_bind, htree, hrun]
      cases r with
      | true =>
        exact ih fun a ha b hb => hsame a (List.mem_cons_of_mem _ ha) b (List.mem_cons_of_mem _ hb)
      | false => exact ⟨false, rfl, rfl⟩

namespace Treelike

/-- **Inside of a trail, trees are compared as trees**, as long as no sequence of the trail is
reached from them. -/
theorem run_equalWithin (hh : h.Closed) (hx : h.Treelike σ x) (hy : h.Treelike σ y)
    (hlive : h.Live x) (hlive' : h.Live y) (ht : h.Fits n t)
    (hleft : ∀ p ∈ t, ¬h.LeadsTo x p.1) (hright : ∀ p ∈ t, ¬h.LeadsTo y p.2)
    (hm : h.places (h.LeadsTo x) < m) :
    ∃ r, h.plainEqual ignoreCase m x y = some r ∧
      (h.equalWithin ignoreCase n t x y).run σ = (.ok r, σ) := by
  induction n generalizing x y t m with
  | zero => exact absurd ht not_fits_zero
  | succ n ih =>
    obtain ⟨m, rfl⟩ := Nat.exists_eq_succ_of_ne_zero (Nat.ne_zero_of_lt hm)
    by_cases hkind : h.kind x = h.kind y
    swap
    · rw [plainEqual_of_kind_ne hkind, equalWithin, if_pos hkind]
      exact ⟨false, rfl, rfl⟩
    by_cases hsame : x = y
    · -- a block is not compared with itself, but as a tree it is equal to itself
      subst hsame
      rw [hx.plainEqual_self hm, equalWithin, if_neg (not_not.mpr rfl), if_pos rfl]
      exact ⟨true, rfl, rfl⟩
    by_cases hseq : h.IsSequence x
    · have hseq' : h.IsSequence y := by rwa [IsSequence, ← hkind]
      -- neither side is on the trail, so the levels never tell the two apart
      have hnew : x ∉ t.map Prod.fst := fun hmem => by
        obtain ⟨p, hp, rfl⟩ := List.mem_map.mp hmem
        exact hleft p hp .refl
      have hnew' : y ∉ t.map Prod.snd := fun hmem => by
        obtain ⟨p, hp, rfl⟩ := List.mem_map.mp hmem
        exact hright p hp .refl
      rw [plainEqual_of_sequence hseq hkind, equalWithin_of_new hseq hkind hsame hnew hnew',
        hx.fault?, hy.fault?, hseq.extent_eq fun l hl => hx.list x l .refl hl,
        hseq'.extent_eq fun l hl => hy.list y l .refl hl]
      by_cases hlength : (h.elements x).found.length = (h.elements y).found.length
      swap
      · rw [if_pos hlength, if_pos hlength]
        exact ⟨false, rfl, rfl⟩
      rw [if_neg (not_not.mpr hlength), if_neg (not_not.mpr hlength)]
      refine run_walksEqual_trees fun a ha b hb => ?_
      refine ih (hx.element ha) (hy.element hb) (hh.live_of_element ha) (hh.live_of_element hb)
        (ht.enter hseq.live (Trail.level_eq_none_iff.mpr hnew)) ?_ ?_ ?_
      · exact List.forall_mem_cons.mpr
          ⟨hx.not_leadsTo ha, fun p hp hap => hleft p hp (.head ha hap)⟩
      · exact List.forall_mem_cons.mpr
          ⟨hy.not_leadsTo hb, fun p hp hbp => hright p hp (.head hb hbp)⟩
      · exact (hx.places_lt hseq ha).trans_le (Nat.le_of_lt_succ hm)
    by_cases hword : h.kind x = .word
    · obtain ⟨v, hv⟩ := exists_word_of_kind hword
      obtain ⟨w, hw⟩ := exists_word_of_kind (hkind ▸ hword)
      rw [plainEqual_of_words hv hw, equalWithin_of_words hv hw hsame, Query.run_wordsEqual,
        Word.freshness_eq_text_iff.mp (hx.text x v .refl hv),
        Word.freshness_eq_text_iff.mp (hy.text y w .refl hw)]
      exact ⟨_, rfl, rfl⟩
    · -- there is one block of nothing only
      have hnothing : h.kind x ≠ .nothing := fun hx' =>
        hsame (hh.nothing_unique x y hlive hlive' hx' (hkind ▸ hx'))
      rw [plainEqual_of_plain hkind hword hseq, equalWithin_of_plain hkind hsame hword hseq,
        beq_false_of_ne hsame, beq_false_of_ne hnothing]
      exact ⟨false, rfl, rfl⟩

end Treelike

/-! ### Outside of any comparison -/

/-- **Without cycles equality is that of trees.**  Two values over texts from which no cycle is
reached are equal exactly if their trees are, whatever parts they share, and no word is settled by
their comparison.  The trees are compared within any number of levels that is larger than the number
of blocks. -/
theorem equal_eq_plainEqual (hh : h.Closed) (hx : h.Treelike σ x) (hy : h.Treelike σ y)
    (hlive : h.Live x) (hlive' : h.Live y) (ignoreCase : Bool) :
    ∃ r, (h.equal ignoreCase x y).run σ = (.ok r, σ) ∧
      ∀ n > h.blocks.size, h.plainEqual ignoreCase n x y = some r := by
  have hrun : ∀ n > h.blocks.size, ∃ r, h.plainEqual ignoreCase n x y = some r ∧
      (h.equalOn ignoreCase [] x y).run σ = (.ok r, σ) := fun n hn =>
    hx.run_equalWithin hh hy hlive hlive' (fits_nil h) (by simp) (by simp)
      ((h.places_le_size _).trans_lt hn)
  obtain ⟨r, -, hr⟩ := hrun _ (Nat.lt_succ_self _)
  refine ⟨r, run_equal hr, fun n hn => ?_⟩
  obtain ⟨r', hplain, hr'⟩ := hrun n hn
  -- the comparison has one answer, whatever the number of levels was
  rw [hr] at hr'
  rw [hplain, Except.ok.inj (Prod.mk.inj hr').1]

/-- Two lists that share a list, which is met on the left ahead of the right, are equal but for the
case of a letter. -/
theorem shared_list_apart_from_case :
    let s := (Session.run [.make (.list [.text "s" false]) ⟨some "x", true⟩,
      .make (.list [.register "x", .array 1 [.register "x"]]) ⟨some "y", true⟩,
      .make (.list [.list [.text "S" false], .array 1 [.register "x"]]) ⟨some "z", true⟩] {}).2.store
    s.heap.Closed ∧ s.heap.Treelike s.settled 7 ∧ s.heap.Treelike s.settled 14 ∧
      s.heap.Live 7 ∧ s.heap.Live 14 ∧
      (s.heap.equal true 7 14).run s.settled = (.ok true, s.settled) ∧
      (s.heap.equal false 7 14).run s.settled = (.ok false, s.settled) := by
  intro s
  -- the chains of the four lists, found by following the links
  have hchain : ∀ l ∈ [(2, 1), (6, 2), (9, 1), (13, 2)],
      ∃ cs, s.heap.Chain l.1 cs ∧ l.2 = cs.length := by
    have hnothing : s.heap.kind 1 = .nothing := by decide +kernel
    have hnext : s.heap.next? 2 = some 1 ∧ s.heap.next? 6 = some 5 ∧ s.heap.next? 5 = some 1 ∧
        s.heap.next? 9 = some 1 ∧ s.heap.next? 13 = some 12 ∧ s.heap.next? 12 = some 1 := by
      decide +kernel
    obtain ⟨h2, h6, h5, h9, h13, h12⟩ := hnext
    rintro l hl
    simp only [List.mem_cons, List.not_mem_nil, or_false] at hl
    rcases hl with rfl | rfl | rfl | rfl
    · exact ⟨[2], .cons h2 (.nil hnothing), rfl⟩
    · exact ⟨[6, 5], .cons h6 (.cons h5 (.nil hnothing)), rfl⟩
    · exact ⟨[9], .cons h9 (.nil hnothing), rfl⟩
    · exact ⟨[13, 12], .cons h13 (.cons h12 (.nil hnothing)), rfl⟩
  -- each element was made before the sequence that holds it, so no sequence is within itself
  have htree : ∀ x ∈ [0, 3, 4, 7, 8, 10, 11, 14], s.heap.Treelike s.settled x := by
    refine fun x hx => (nesting_of_closed (by decide +kernel) (by decide +kernel)
      (by decide +kernel) (fun a ha l hl => ?_) hx).treelike
    have hlists : ∀ a ∈ [0, 3, 4, 7, 8, 10, 11, 14], ∀ l ∈ (s.heap.body a).list?,
        (l.head, l.size) ∈ [(2, 1), (6, 2), (9, 1), (13, 2)] := by decide +kernel
    exact hchain (l.head, l.size) (hlists a ha l hl)
  have hx := htree 7 (by decide)
  have hy := htree 14 (by decide)
  have hclosed : s.heap.Closed := (Session.exact_run _).closed
  have hlive : s.heap.Live 7 ∧ s.heap.Live 14 :=
    ⟨live_of_kind_ne (by decide +kernel), live_of_kind_ne (by decide +kernel)⟩
  have htrees : s.heap.plainEqual true 16 7 14 = some true ∧
      s.heap.plainEqual false 16 7 14 = some false := by decide +kernel
  have hsize : 16 > s.heap.blocks.size := by decide +kernel
  obtain ⟨r, hrun, hplain⟩ := equal_eq_plainEqual hclosed hx hy hlive.1 hlive.2 true
  obtain ⟨r', hrun', hplain'⟩ := equal_eq_plainEqual hclosed hx hy hlive.1 hlive.2 false
  -- the answers of the comparison are those of the plain one, which is computed
  obtain rfl : r = true := Option.some.inj ((hplain 16 hsize).symm.trans htrees.1)
  obtain rfl : r' = false := Option.some.inj ((hplain' 16 hsize).symm.trans htrees.2)
  exact ⟨hclosed, hx, hy, hlive.1, hlive.2, hrun, hrun'⟩

end Heap

end SharedValues
