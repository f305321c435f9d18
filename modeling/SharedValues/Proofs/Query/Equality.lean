import Mathlib.Data.List.Forall2
import SharedValues.Proofs.Session.Lockstep

/-!
# What structural equality means

Values that compare equal cannot be told apart by going from sequences to their elements, however
far, even where sequences contain themselves.  The comparison takes a pair of sequences to be equal
while it is inside of it; the pairs met by a comparison that ends with success justify each other.

## Main definitions

* `Heap.Closed` — handles lead to blocks, and there is one block of nothing.
* `Heap.Alike` — two values cannot be told apart, their elements aside.
* `Heap.descend` — what is reached through elements at some positions.
* `Heap.Similar` — two values cannot be told apart by any path, if the pairs of a trail cannot.

## Main results

* `Similar.enter` — a pair may be taken for granted while its elements are compared.
* `ensures_equal` — what a comparison finds out.
* `equal_sound` — equal values are alike along every path.
-/

namespace SharedValues

namespace Heap

variable {h : Heap} {held : Multiset Addr} {σ : Settled} {ignoreCase : Bool} {a b x y : Addr}
  {trail : Trail} {ε α : Type}

/-- Handles lead to blocks, and there is one block of nothing. -/
structure Closed (h : Heap) : Prop where
  /-- What is stored in a block is live. -/
  live : ∀ a c, c ∈ (h.body a).handles → h.Live c
  /-- There is one block of nothing. -/
  nothing_unique : ∀ a b, h.Live a → h.Live b → h.kind a = .nothing → h.kind b = .nothing → a = b

/-- A heap with exact counts is closed.  All heaps of sessions are. -/
theorem Exact.closed (hh : h.Exact held) : h.Closed where
  live _ _ hc := hh.live_of_mem rfl hc
  nothing_unique _ _ ha hb hkind hkind' :=
    Option.some.inj ((hh.nothingAt_of_kind ha hkind).symm.trans (hh.nothingAt_of_kind hb hkind'))

/-- The elements of a value are live. -/
theorem Closed.live_of_element (hh : h.Closed) (ha : a ∈ (h.elements x).found) : h.Live a := by
  unfold elements at ha
  split at ha
  · next l _ =>
    obtain ⟨c, hc, rfl⟩ := List.mem_map.mp ha
    obtain ⟨i, hi⟩ := List.mem_iff_getElem?.mp hc
    obtain ⟨n, hn⟩ := exists_next?_of_kind (nth_of_chain_found hi).2
    obtain ⟨item, hbody⟩ := next?_eq_some_iff.mp hn
    refine hh.live c _ ?_
    rw [itemOf, hbody]
    simp [Body.handles, Body.cell?]
  · next hbody => exact hh.live x a (by simpa [hbody, Body.handles] using ha)
  · simp at ha

/-! ### Values that cannot be told apart -/

/-- Two values are of one kind and size; words have the same text or the same number, or are one
block, and values that are neither words nor sequences are one block. -/
structure Alike (h : Heap) (ignoreCase : Bool) (a b : Addr) : Prop where
  /-- They are of one kind. -/
  kind_eq : h.kind a = h.kind b
  /-- They have as many elements. -/
  extent_eq : h.extent a = h.extent b
  /-- Words are one block, or have the same text or the same number. -/
  word : ∀ v w, h.body a = .word v → h.body b = .word w →
    a = b ∨ Word.sameText ignoreCase v w = true ∨
      ∃ m n, v.number? = some m ∧ w.number? = some n ∧ m.equals n = true
  /-- Other values that have no elements are one block. -/
  other : h.kind a ≠ .word → h.kind a ≠ .list → h.kind a ≠ .array → a = b

/-- Sequences of one kind and size have nothing else in common. -/
theorem Alike.of_sequence (hkind : h.kind a = h.kind b) (hextent : h.extent a = h.extent b)
    (ha : h.kind a = .list ∨ h.kind a = .array) : h.Alike ignoreCase a b where
  kind_eq := hkind
  extent_eq := hextent
  word v w hv _ := by simp [kind, hv, Body.kind] at ha
  other _ hlist harray := absurd ha (by simp [hlist, harray])

theorem Alike.refl (h : Heap) (ignoreCase : Bool) (a : Addr) : h.Alike ignoreCase a a :=
  ⟨rfl, rfl, fun _ _ _ _ => Or.inl rfl, fun _ _ _ => rfl⟩

/-- What is reached from a value through elements at some positions. -/
def descend (h : Heap) : List ℕ → Addr → Option Addr
  | [], a => some a
  | i :: path, a => ((h.elements a).found[i]?).bind (h.descend path)

/-- Pairs in `R` are alike, and their elements are pairs in `S`. -/
def Progresses (h : Heap) (ignoreCase : Bool) (R S : Addr → Addr → Prop) : Prop :=
  ∀ a b, R a b → h.Alike ignoreCase a b ∧ List.Forall₂ S (h.elements a).found (h.elements b).found

/-- Two values cannot be told apart by any path that leads through no pair of the trail: they are
among some pairs whose elements are, again, among them or on the trail. -/
def Similar (h : Heap) (ignoreCase : Bool) (trail : Trail) (a b : Addr) : Prop :=
  ∃ R, h.Progresses ignoreCase R (fun c d => R c d ∨ (c, d) ∈ trail) ∧ (R a b ∨ (a, b) ∈ trail)

theorem similar_of_mem (hab : (a, b) ∈ trail) : h.Similar ignoreCase trail a b :=
  ⟨fun _ _ => False, fun _ _ => False.elim, Or.inr hab⟩

theorem similar_refl (h : Heap) (ignoreCase : Bool) (trail : Trail) (a : Addr) :
    h.Similar ignoreCase trail a a := by
  refine ⟨Eq, ?_, Or.inl rfl⟩
  rintro c _ rfl
  exact ⟨.refl h ignoreCase c, List.forall₂_same.mpr fun _ _ => Or.inl rfl⟩

/-- Words with the same text or the same number. -/
theorem similar_of_words {v w : Word} (ha : h.body a = .word v) (hb : h.body b = .word w)
    (hvw : Word.sameText ignoreCase v w = true ∨
      ∃ m n, v.number? = some m ∧ w.number? = some n ∧ m.equals n = true) :
    h.Similar ignoreCase trail a b := by
  refine ⟨fun c d => c = a ∧ d = b, ?_, Or.inl ⟨rfl, rfl⟩⟩
  rintro c d ⟨rfl, rfl⟩
  refine ⟨⟨?_, ?_, fun v' w' hv' hw' => Or.inr ?_, fun hword => ?_⟩, ?_⟩
  · rw [kind, kind, ha, hb, Body.kind, Body.kind]
  · rw [extent, extent, ha, hb]
  · obtain rfl := Body.word.inj (ha.symm.trans hv')
    obtain rfl := Body.word.inj (hb.symm.trans hw')
    exact hvw
  · exact absurd (by rw [kind, ha, Body.kind]) hword
  · rw [elements, elements, ha, hb]
    exact .nil

/-- **A pair may be taken for granted** while its elements are compared. -/
theorem Similar.enter (hab : h.Alike ignoreCase a b)
    (helements : List.Forall₂ (h.Similar ignoreCase ((a, b) :: trail)) (h.elements a).found
      (h.elements b).found) : h.Similar ignoreCase trail a b := by
  -- the pair itself, and all pairs that justify each other with its help
  let R := fun c d => (c = a ∧ d = b) ∨
    ∃ S, h.Progresses ignoreCase S (fun c d => S c d ∨ (c, d) ∈ (a, b) :: trail) ∧ S c d
  have hmember : ∀ {c d : Addr} {S : Addr → Addr → Prop},
      h.Progresses ignoreCase S (fun c d => S c d ∨ (c, d) ∈ (a, b) :: trail) →
      S c d ∨ (c, d) ∈ (a, b) :: trail → R c d ∨ (c, d) ∈ trail := by
    rintro c d S hS (hcd | hcd)
    · exact Or.inl (Or.inr ⟨S, hS, hcd⟩)
    · rcases List.mem_cons.mp hcd with hcd | hcd
      · obtain ⟨rfl, rfl⟩ := Prod.mk.inj hcd
        exact Or.inl (Or.inl ⟨rfl, rfl⟩)
      · exact Or.inr hcd
  refine ⟨R, ?_, Or.inl (Or.inl ⟨rfl, rfl⟩)⟩
  rintro c d (⟨rfl, rfl⟩ | ⟨S, hS, hcd⟩)
  · refine ⟨hab, helements.imp ?_⟩
    rintro _ _ ⟨S, hS, hcd⟩
    exact hmember hS hcd
  · obtain ⟨halike, hforall⟩ := hS c d hcd
    exact ⟨halike, hforall.imp fun _ _ h => hmember hS h⟩

/-- Pairs at the same position of two lists. -/
private theorem rel_getElem? {R : Addr → Addr → Prop} {as bs : List Addr}
    (h : List.Forall₂ R as bs) (i : ℕ) : Option.Rel R as[i]? bs[i]? := by
  induction h generalizing i with
  | nil => exact .none
  | cons hab _ ih =>
    cases i with
    | zero => exact .some hab
    | succ i => simpa using ih i

/-- Similar values, with nothing taken for granted, are alike along every path. -/
theorem Similar.descend (hab : h.Similar ignoreCase [] a b) (path : List ℕ) :
    Option.Rel (h.Alike ignoreCase) (h.descend path a) (h.descend path b) := by
  obtain ⟨R, hR, hab⟩ := hab
  replace hab := hab.resolve_right (List.not_mem_nil)
  induction path generalizing a b with
  | nil => exact .some (hR a b hab).1
  | cons i path ih =>
    have hi := rel_getElem? (hR a b hab).2 i
    rw [Heap.descend, Heap.descend]
    -- the elements at position `i` are both there, or both missing
    revert hi
    cases (h.elements a).found[i]? <;> cases (h.elements b).found[i]? <;> rintro ⟨⟩
    · exact .none
    · next hcd => exact ih (hcd.resolve_right List.not_mem_nil)

/-! ### The comparison of words -/

theorem ensures_isSettled {Q : Bool → Settled → Prop} {E : ε → Settled → Prop} :
    Ensures (Query.isSettled a) σ Q E ↔ Q (σ.contains a) σ := Iff.rfl

/-- A word that is settled because it is a number has one. -/
theorem Settled.Valid.insert (hσ : σ.Valid h) {w : Word} (ha : h.body a = .word w)
    (hw : w.number?.isSome = true) : (σ.insert a).Valid h := by
  intro b v hb hv
  rw [Settled.contains_insert, Bool.or_eq_true, decide_eq_true_eq] at hb
  rcases hb with hb | rfl
  · exact hσ b v hb hv
  · obtain rfl := Body.word.inj (ha.symm.trans hv)
    exact hw

/-- Asking for a number finds it, if there is one, and settles no other word. -/
theorem ensures_numberOf {w : Word} (hσ : σ.Valid h) (ha : h.body a = .word w) :
    Ensures (Query.numberOf a w : Query ε Binary64) σ (fun n σ' => n = w.value ∧ σ'.Valid h)
      fun _ _ => False := by
  unfold Query.numberOf
  split
  · next hw =>
    refine ensures_bind.mpr (ensures_modify.mpr (ensures_pure.mpr ⟨rfl, ?_⟩))
    exact Settled.Valid.insert hσ ha (by simp_all)
  · exact ensures_bind.mpr (ensures_pure.mpr (ensures_pure.mpr ⟨rfl, hσ⟩))

/-- Words that compare equal have the same text or the same number. -/
theorem ensures_wordsEqual {v w : Word} (hσ : σ.Valid h) (ha : h.body a = .word v)
    (hb : h.body b = .word w) :
    Ensures (Query.wordsEqual ignoreCase a v b w : Query ε Bool) σ
      (fun r σ' => σ'.Valid h ∧ (r = true → Word.sameText ignoreCase v w = true ∨
        ∃ m n, v.number? = some m ∧ w.number? = some n ∧ m.equals n = true))
      fun _ _ => False := by
  have hnumeric : ∀ {c : Addr} {u : Word}, h.body c = .word u →
      u.isNumeric (σ.contains c) = true → u.number?.isSome = true := by
    intro c u hc hu
    rw [Word.isNumeric, Bool.or_eq_true] at hu
    rcases hu with hu | hu
    · exact hσ c u hu hc
    · cases u <;> simp_all [Word.isNumber, Word.number?]
  -- two words with numbers
  have hnumbers : v.number?.isSome = true → w.number?.isSome = true →
      v.value.equals w.value = true →
      ∃ m n, v.number? = some m ∧ w.number? = some n ∧ m.equals n = true := by
    intro hv hw heq
    obtain ⟨m, hm⟩ := Option.isSome_iff_exists.mp hv
    obtain ⟨n, hn⟩ := Option.isSome_iff_exists.mp hw
    refine ⟨m, n, hm, hn, ?_⟩
    rwa [Word.value, Word.value, hm, hn] at heq
  refine ensures_bind.mpr (ensures_isSettled.mpr ?_)
  split
  · next hv =>
    refine ensures_bind.mpr ((ensures_numberOf hσ hb).mono ?_ fun _ _ => id)
    rintro n σ' ⟨rfl, hσ'⟩
    refine ensures_pure.mpr ⟨hσ', fun hr => Or.inr ?_⟩
    rw [Bool.and_eq_true] at hr
    exact hnumbers (hnumeric ha hv) hr.1 hr.2
  · refine ensures_bind.mpr (ensures_isSettled.mpr ?_)
    split
    · next hw =>
      refine ensures_bind.mpr ((ensures_numberOf hσ ha).mono ?_ fun _ _ => id)
      rintro n σ' ⟨rfl, hσ'⟩
      refine ensures_pure.mpr ⟨hσ', fun hr => Or.inr ?_⟩
      rw [Bool.and_eq_true] at hr
      exact hnumbers hr.1 (hnumeric hb hw) hr.2
    · -- neither is a number: the texts are compared
      exact ensures_pure.mpr ⟨hσ, Or.inl⟩

/-! ### The comparison inside a trail -/

/-- Two walks that compare equal found elements that do, pair by pair. -/
theorem ensures_walksEqual {same : Addr → Addr → Query ε Bool} {halt : Fault → ε}
    {I : Settled → Prop} {R : Addr → Addr → Prop} {xs ys : List Addr} {f g : Option Fault}
    (hsame : ∀ x ∈ xs, ∀ y ∈ ys, ∀ σ, I σ →
      Ensures (same x y) σ (fun r σ' => I σ' ∧ (r = true → R x y)) fun _ _ => True) (hσ : I σ) :
    Ensures (walksEqual same halt xs f ys g) σ
      (fun r σ' => I σ' ∧ (r = true → List.Forall₂ R xs ys)) fun _ _ => True := by
  fun_induction walksEqual same halt xs f ys g generalizing σ with
  | case1 x xs f y ys g ih =>
    refine ensures_bind.mpr ((hsame x List.mem_cons_self y List.mem_cons_self σ hσ).mono ?_
      fun _ _ => id)
    rintro r σ' ⟨hσ', hr⟩
    split
    · -- this pair is equal, and the rest decides
      next htrue =>
      refine (ih (fun x hx y hy => hsame x (List.mem_cons_of_mem _ hx) y
        (List.mem_cons_of_mem _ hy)) hσ').mono ?_ fun _ _ => id
      rintro r' σ'' ⟨hI, hrest⟩
      exact ⟨hI, fun h => .cons (hr htrue) (hrest h)⟩
    · exact ensures_pure.mpr ⟨hσ', by simp⟩
  | case2 => exact ensures_throw.mpr trivial
  | case3 => exact ensures_throw.mpr trivial
  | case4 => exact ensures_pure.mpr ⟨hσ, fun _ => .nil⟩
  | case5 => exact ensures_pure.mpr ⟨hσ, by simp⟩

/-- A pair that was entered together is on the trail. -/
theorem mem_of_findIdx?_eq {i : ℕ} (hx : trail.findIdx? (·.1 == x) = some i)
    (hy : trail.findIdx? (·.2 == y) = some i) : (x, y) ∈ trail := by
  obtain ⟨hi, hix, -⟩ := List.findIdx?_eq_some_iff_getElem.mp hx
  obtain ⟨_, hiy, -⟩ := List.findIdx?_eq_some_iff_getElem.mp hy
  rw [← beq_iff_eq.mp hix, ← beq_iff_eq.mp hiy]
  exact List.getElem_mem hi

/-- **What the comparison inside a trail finds out**: equal values cannot be told apart, if the
pairs of the trail cannot. -/
theorem ensures_equalWithin (hh : h.Closed) (n : ℕ) (hx : h.Live x) (hy : h.Live y)
    (hσ : σ.Valid h) :
    Ensures (h.equalWithin ignoreCase n trail x y) σ
      (fun r σ' => σ'.Valid h ∧ (r = true → h.Similar ignoreCase trail x y)) fun _ _ => True := by
  induction n generalizing trail x y σ with
  | zero => exact ensures_throw.mpr trivial
  | succ n ih =>
    rw [equalWithin]
    split
    · exact ensures_pure.mpr ⟨hσ, by simp⟩
    next hkind =>
    rw [not_not] at hkind
    split
    · next hxy =>
      subst hxy
      exact ensures_pure.mpr ⟨hσ, fun _ => similar_refl ..⟩
    next hxy =>
    split
    -- there is only one block for nothing
    case h_1 hnothing hnothing' =>
      refine absurd (hh.nothing_unique x y hx hy ?_ ?_) hxy
      · rw [kind, hnothing, Body.kind]
      · rw [kind, hnothing', Body.kind]
    case h_2 v w hv hw =>
      refine (ensures_wordsEqual hσ hv hw).mono ?_ fun _ _ => False.elim
      rintro r σ' ⟨hσ', hr⟩
      exact ⟨hσ', fun h => similar_of_words hv hw (hr h)⟩
    case h_3 | h_4 =>
      have hsequence : h.kind x = .list ∨ h.kind x = .array := by simp [kind, *, Body.kind]
      dsimp only
      split
      · exact ensures_pure.mpr ⟨hσ, by simp⟩
      next hlevel =>
      rw [not_not] at hlevel
      split
      · -- both sequences were entered before, at the same level
        next hsome =>
        obtain ⟨i, hi⟩ := Option.isSome_iff_exists.mp hsome
        exact ensures_pure.mpr
          ⟨hσ, fun _ => similar_of_mem (mem_of_findIdx?_eq hi (hlevel.symm.trans hi))⟩
      · split
        · exact ensures_pure.mpr ⟨hσ, by simp⟩
        next hextent =>
        rw [not_not] at hextent
        -- the elements are compared with this pair on the trail
        refine (ensures_walksEqual (fun c hc d hd σ hσ => ih (hh.live_of_element hc)
          (hh.live_of_element hd) hσ) hσ).mono ?_ fun _ _ => id
        rintro r σ' ⟨hσ', hr⟩
        exact ⟨hσ', fun h => .enter (.of_sequence hkind hextent hsequence) (hr h)⟩
    case h_5 => exact ensures_pure.mpr ⟨hσ, by simp⟩

/-- What a comparison of its own finds out. -/
theorem ensures_equal (ignoreCase : Bool) (hh : h.Closed) (hx : h.Live x) (hy : h.Live y)
    (hσ : σ.Valid h) :
    Ensures (h.equal ignoreCase x y) σ
      (fun r σ' => σ'.Valid h ∧ (r = true → h.Similar ignoreCase [] x y)) fun _ _ => True := by
  have hwithin : Ensures (h.equalOn ignoreCase [] x y) σ _ fun _ _ => True :=
    ensures_equalWithin hh (h.blocks.size + 2) hx hy hσ
  exact ensures_adapt.mpr hwithin

/-- **Equal values are alike along every path.**  If two values compare equal, then what is reached
from them through elements at the same positions is of one kind and size, words have the same text
or the same number, and other values without elements are one block; and whatever path leads
somewhere from one of them does so from the other.  In sessions the heap and the settled words
always are as assumed (`Exact.closed`, `Session.backed_run`). -/
theorem equal_sound {σ' : Settled} (hh : h.Closed) (hσ : σ.Valid h) (hx : h.Live x) (hy : h.Live y)
    (hequal : (h.equal ignoreCase x y).run σ = (.ok true, σ')) (path : List ℕ) :
    Option.Rel (h.Alike ignoreCase) (h.descend path x) (h.descend path y) := by
  have hend := ensures_equal ignoreCase hh hx hy hσ
  unfold Ensures at hend
  rw [hequal] at hend
  exact (hend.2 rfl).descend path

/-- Two lists that contain themselves are alike three levels down. -/
theorem self_containing_alike :
    let h := (Session.run [.build (.selfContaining ["a"]) ⟨some "x", true⟩,
      .build (.selfContaining ["a"]) ⟨some "y", true⟩] {}).2.store.heap
    Option.Rel (h.Alike false) (h.descend [1, 1, 0] 3) (h.descend [1, 1, 0] 7) := by
  intro h
  have hx : (h.block? 3).isSome = true := by decide +kernel
  have hy : (h.block? 7).isSome = true := by decide +kernel
  have hequal : ((h.equal false 3 7).run (Session.run [.build (.selfContaining ["a"])
      ⟨some "x", true⟩, .build (.selfContaining ["a"]) ⟨some "y", true⟩] {}).2.store.settled).1 =
      .ok true := by
    decide +kernel
  exact equal_sound (Session.exact_run _).closed (Session.backed_run _).valid
    (Option.isSome_iff_exists.mp hx) (Option.isSome_iff_exists.mp hy) (Prod.ext hequal rfl)
    [1, 1, 0]

end Heap

end SharedValues
