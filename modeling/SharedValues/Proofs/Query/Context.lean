import SharedValues.Proofs.Query.Repeat

/-!
# Comparisons in one context

A comparison may keep the sequences it is inside of on two stacks, one for each side: it pushes a
pair when it enters it, pops it when all elements were equal, and clears both stacks at the first
difference.  Such a context serves for one comparison after another, because every comparison that
finds it idle leaves it idle.

The stacks are the two sides of a trail.  As long as no sequence is on the same side of the trail
twice, the comparison on two stacks does the same as the one that passes a trail down, and so it
keeps the sides free of repetitions.

## Main definitions

* `Stacks`, `Context` — two stacks, and all that they have been.
* `Heap.compareWithin` — the comparison on the stacks of a context.
* `Request` — a comparison that is asked for.

## Main results

* `Trail.Distinct.levels_eq_iff` — when two sequences were entered at the same level.
* `Heap.imitates_compareWithin` — the two comparisons do the same.
* `Request.contexts_are_reusable` — comparisons one after the other in one context.
-/

namespace SharedValues

/-! ### Contexts -/

/-- The sequences that a comparison is inside of, on the left and on the right, the outermost
first. -/
structure Stacks where
  /-- The sequences on the left. -/
  left : List Addr := []
  /-- The sequences on the right. -/
  right : List Addr := []

namespace Stacks

/-- The stacks with one more pair on top. -/
def push (s : Stacks) (x y : Addr) : Stacks := ⟨s.left ++ [x], s.right ++ [y]⟩

/-- The stacks without the pair on top. -/
def pop (s : Stacks) : Stacks := ⟨s.left.dropLast, s.right.dropLast⟩

/-- The stacks have the same length, and nothing is twice on one of them. -/
structure Balanced (s : Stacks) : Prop where
  /-- There are as many sequences on the right as on the left. -/
  length_eq : s.left.length = s.right.length
  /-- The sequences on the left are distinct. -/
  left_nodup : s.left.Nodup
  /-- The sequences on the right are distinct. -/
  right_nodup : s.right.Nodup

end Stacks

/-- A context: the two stacks, and what they were after each change so far. -/
structure Context where
  /-- The stacks as they are. -/
  current : Stacks := {}
  /-- The stacks as they were, the latest first. -/
  past : List Stacks := []

/-- A step of a comparison, which settles words and changes the stacks of a context. -/
abbrev Comparing (α : Type) := ExceptT Fault (StateM (Settled × Context)) α

namespace Comparing

/-- Puts a query. -/
def ask {α : Type} (q : Query Fault α) : Comparing α :=
  fun s =>
    let (result, settled) := q.run s.1
    (result, (settled, s.2))

/-- The stacks as they are. -/
def current : Comparing Stacks := do return (← get).2.current

/-- Changes the stacks, and notes what they are then. -/
def change (f : Stacks → Stacks) : Comparing Unit :=
  modify fun s => (s.1, ⟨f s.2.current, f s.2.current :: s.2.past⟩)

/-- Clears both stacks, since the two sides differ. -/
def unequal : Comparing Bool := do
  change fun _ => {}
  return false

/-- Whether two lists or two arrays are equal, with a comparison of their elements.  Only sequences
that were entered together are taken to be equal when they are met again. -/
def sequencesAgree (h : Heap) (same : Addr → Addr → Comparing Bool) (x y : Addr) :
    Comparing Bool := do
  let s ← current
  let level := s.left.findIdx? (· == x)
  if level ≠ s.right.findIdx? (· == y) then unequal
  else if level.isSome then return true
  else if h.extent x ≠ h.extent y then unequal
  else
    change (·.push x y)
    let v := h.elements x
    let w := h.elements y
    if ← Heap.walksEqual same id v.found v.fault? w.found w.fault? then
      change Stacks.pop
      return true
    else unequal

end Comparing

/-- Whether the values at two addresses are equal, within `n` levels, on the stacks of a context. -/
def Heap.compareWithin (h : Heap) (ignoreCase : Bool) : ℕ → Addr → Addr → Comparing Bool
  | 0, _, _ => throw .endless
  | n + 1, x, y =>
    if h.kind x ≠ h.kind y then return false
    else if x = y then return true
    else
      match h.body x, h.body y with
      | .nothing, .nothing => return true
      | .word v, .word w => Comparing.ask (Query.wordsEqual ignoreCase x v y w)
      | .list _, _ | .array .., _ =>
        Comparing.sequencesAgree h (h.compareWithin ignoreCase n) x y
      | _, _ => return false

/-! ### Trails -/

namespace Trail

variable {t u : Trail} {x y : Addr}

/-- The two sides of a trail, the outermost pair first. -/
def sides (t : Trail) : Stacks := ⟨(t.map Prod.fst).reverse, (t.map Prod.snd).reverse⟩

/-- No sequence is on the same side of a trail twice. -/
structure Distinct (t : Trail) : Prop where
  /-- The sequences on the left are distinct. -/
  left : (t.map Prod.fst).Nodup
  /-- The sequences on the right are distinct. -/
  right : (t.map Prod.snd).Nodup

@[simp] theorem sides_nil : sides [] = {} := rfl

theorem push_sides (t : Trail) (x y : Addr) : t.sides.push x y = sides ((x, y) :: t) := by
  simp [sides, Stacks.push]

theorem pop_sides (t : Trail) (x y : Addr) : (sides ((x, y) :: t)).pop = t.sides := by
  simp [sides, Stacks.pop]

namespace Distinct

theorem balanced (ht : t.Distinct) : t.sides.Balanced where
  length_eq := by simp [sides]
  left_nodup := List.nodup_reverse.mpr ht.left
  right_nodup := List.nodup_reverse.mpr ht.right

theorem reverse (ht : t.Distinct) : Distinct t.reverse where
  left := by rw [List.map_reverse]; exact List.nodup_reverse.mpr ht.left
  right := by rw [List.map_reverse]; exact List.nodup_reverse.mpr ht.right

/-- A pair whose sides were not entered before. -/
theorem cons (ht : t.Distinct) (hx : x ∉ t.map Prod.fst) (hy : y ∉ t.map Prod.snd) :
    Distinct ((x, y) :: t) :=
  ⟨List.nodup_cons.mpr ⟨hx, ht.left⟩, List.nodup_cons.mpr ⟨hy, ht.right⟩⟩

end Distinct

/-- In a list without repetitions a value is found where it stands. -/
private theorem findIdx?_eq_of_nodup {f : Addr × Addr → Addr} (ht : (t.map f).Nodup) {i : ℕ}
    {p : Addr × Addr} (hi : t[i]? = some p) : t.findIdx? (f · == f p) = some i := by
  obtain ⟨hlt, rfl⟩ := List.getElem?_eq_some_iff.mp hi
  refine List.findIdx?_eq_some_iff_getElem.mpr ⟨hlt, by simp, ?_⟩
  intro j hj heq
  have hsame : (t.map f)[j]? = (t.map f)[i]? := by
    simpa [List.getElem?_eq_getElem hlt, List.getElem?_eq_getElem (hj.trans hlt)] using heq
  have hji := (List.getElem?_inj (by simpa using hj.trans hlt) ht).mp hsame
  omega

theorem level_eq_none_iff {f : Addr × Addr → Addr} :
    t.findIdx? (f · == x) = none ↔ x ∉ t.map f := by
  simp [List.findIdx?_eq_none_iff]

/-- **Two sequences are at the same level** if they were entered together, or if neither of them was
entered. -/
theorem Distinct.levels_eq_iff (ht : t.Distinct) :
    t.findIdx? (·.1 == x) = t.findIdx? (·.2 == y) ↔
      (x, y) ∈ t ∨ x ∉ t.map Prod.fst ∧ y ∉ t.map Prod.snd := by
  constructor
  · intro heq
    cases hx : t.findIdx? (·.1 == x) with
    | some i => exact .inl (Heap.mem_of_findIdx?_eq hx (heq ▸ hx))
    | none => exact .inr ⟨level_eq_none_iff.mp hx, level_eq_none_iff.mp (heq ▸ hx)⟩
  · rintro (hmem | ⟨hx, hy⟩)
    · obtain ⟨i, hi⟩ := List.mem_iff_getElem?.mp hmem
      rw [findIdx?_eq_of_nodup (f := Prod.fst) ht.left hi,
        findIdx?_eq_of_nodup (f := Prod.snd) ht.right hi]
    · rw [level_eq_none_iff.mpr hx, level_eq_none_iff.mpr hy]

/-- The levels on the stacks are those of the trail from its other end. -/
private theorem level_sides (t : Trail) (x y : Addr) :
    t.sides.left.findIdx? (· == x) = t.reverse.findIdx? (·.1 == x) ∧
      t.sides.right.findIdx? (· == y) = t.reverse.findIdx? (·.2 == y) := by
  simp only [sides, ← List.map_reverse, List.findIdx?_map]
  exact ⟨rfl, rfl⟩

/-- Sequences are at the same level on the stacks if they are so in the trail. -/
theorem Distinct.sides_levels_eq_iff (ht : t.Distinct) :
    t.sides.left.findIdx? (· == x) = t.sides.right.findIdx? (· == y) ↔
      t.findIdx? (·.1 == x) = t.findIdx? (·.2 == y) := by
  rw [(level_sides t x y).1, (level_sides t x y).2, ht.reverse.levels_eq_iff, ht.levels_eq_iff]
  simp

theorem sides_level_isSome (t : Trail) (x : Addr) :
    (t.sides.left.findIdx? (· == x)).isSome = (t.findIdx? (·.1 == x)).isSome := by
  rw [(level_sides t x x).1, Bool.eq_iff_iff, ← not_iff_not]
  simp

end Trail

/-! ### The two comparisons -/

/-- The comparison of two words has a result, whatever its faults might be. -/
theorem Query.exists_run_wordsEqual (ignoreCase : Bool) (a b : Addr) (v w : Word) (σ : Settled) :
    ∃ r τ, ∀ {ε : Type}, (wordsEqual ignoreCase a v b w : Query ε Bool).run σ = (.ok r, τ) := by
  by_cases hv : v.isNumeric (σ.contains a) = true
  · exact ⟨_, _, fun {ε} => by rw [run_wordsEqual, if_pos hv]⟩
  by_cases hw : w.isNumeric (σ.contains b) = true
  · exact ⟨_, _, fun {ε} => by rw [run_wordsEqual, if_neg hv, if_pos hw]⟩
  · exact ⟨_, _, fun {ε} => by rw [run_wordsEqual, if_neg hv, if_neg hw]⟩

namespace Comparing

variable {α : Type} {s : Settled × Context} {Q : α → Settled × Context → Prop}
  {E : Fault → Settled × Context → Prop} {t : Trail} {σ : Settled} {past : List Stacks}

theorem ensures_current {Q : Stacks → Settled × Context → Prop} :
    Ensures current s Q E ↔ Q s.2.current s := Iff.rfl

theorem ensures_change {f : Stacks → Stacks} {Q : Unit → Settled × Context → Prop} :
    Ensures (change f) s Q E ↔ Q () (s.1, ⟨f s.2.current, f s.2.current :: s.2.past⟩) := Iff.rfl

theorem ensures_unequal {Q : Bool → Settled × Context → Prop} :
    Ensures unequal s Q E ↔ Q false (s.1, ⟨{}, {} :: s.2.past⟩) := Iff.rfl

theorem run_ask (q : Query Fault α) (s : Settled × Context) :
    (ask q).run s = ((q.run s.1).1, ((q.run s.1).2, s.2)) := rfl

/-- What was noted since is balanced. -/
def Noted (past past' : List Stacks) : Prop := ∀ s ∈ past', s ∈ past ∨ s.Balanced

theorem noted_refl (past : List Stacks) : Noted past past := fun _ => Or.inl

theorem Noted.cons {past past' : List Stacks} {s : Stacks} (h : Noted past past')
    (hs : s.Balanced) : Noted past (s :: past') := by
  intro u hu
  rcases List.mem_cons.mp hu with rfl | hu
  · exact .inr hs
  · exact h u hu

theorem Noted.trans {past past' past'' : List Stacks} (h : Noted past past')
    (h' : Noted past' past'') : Noted past past'' :=
  fun s hs => (h' s hs).elim (h s) Or.inr

theorem balanced_empty : Stacks.Balanced {} := ⟨rfl, List.nodup_nil, List.nodup_nil⟩

/-- **A step on the sides of a trail does what a query does inside the trail**: it ends alike and
settles the same words.  If both sides are equal it leaves the stacks alone, if they are not it
leaves them as `cleared` says, and after a fault they are the sides of the trail that comes with
the fault. -/
def Imitates (t : Trail) (cleared : Stacks → Prop) (step : Comparing Bool)
    (q : Query (Fault × Trail) Bool) : Prop :=
  ∀ σ past, Ensures step (σ, ⟨t.sides, past⟩)
    (fun r s => q.run σ = (.ok r, s.1) ∧ (r = true → s.2.current = t.sides) ∧
      (r = false → cleared s.2.current) ∧ Noted past s.2.past)
    (fun f s => ∃ u : Trail, q.run σ = (.error (f, u), s.1) ∧ u.Distinct ∧
      s.2.current = u.sides ∧ Noted past s.2.past)

section Imitates

variable {cleared cleared' : Stacks → Prop} {step step' : Comparing Bool}
  {q q' : Query (Fault × Trail) Bool}

theorem Imitates.mono (h : Imitates t cleared step q) (hc : ∀ s, cleared s → cleared' s) :
    Imitates t cleared' step q :=
  fun σ past => (h σ past).mono (fun _ _ ⟨hq, htrue, hfalse, hpast⟩ =>
    ⟨hq, htrue, fun hr => hc _ (hfalse hr), hpast⟩) fun _ _ => id

theorem imitates_true : Imitates t cleared (pure true) (pure true) :=
  fun σ past => ensures_pure.mpr ⟨rfl, fun _ => rfl, by simp, noted_refl past⟩

theorem imitates_false (hc : cleared t.sides) : Imitates t cleared (pure false) (pure false) :=
  fun σ past => ensures_pure.mpr ⟨rfl, by simp, fun _ => hc, noted_refl past⟩

theorem imitates_unequal (hc : cleared {}) : Imitates t cleared unequal (pure false) :=
  fun σ past => ensures_unequal.mpr
    ⟨rfl, by simp, fun _ => hc, (noted_refl past).cons balanced_empty⟩

theorem imitates_throw (ht : t.Distinct) (f : Fault) :
    Imitates t cleared (throw f) (throw (f, t)) :=
  fun _ past => ensures_throw.mpr ⟨t, rfl, ht, rfl, noted_refl past⟩

/-- What is done only if the first two were equal. -/
theorem Imitates.andThen (h : Imitates t cleared step q) (h' : Imitates t cleared step' q') :
    Imitates t cleared (step >>= fun r => if r = true then step' else pure false)
      (q >>= fun r => if r = true then q' else pure false) := by
  intro σ past
  refine ensures_bind.mpr ((h σ past).mono ?_ ?_)
  · rintro r ⟨τ, ⟨current, past'⟩⟩ ⟨hq, htrue, hfalse, hpast⟩
    rw [run_bind, hq]
    cases r with
    | true =>
      -- after a true answer the stacks are back as they were when the second step starts
      obtain rfl : current = t.sides := htrue rfl
      refine (h' τ past').mono ?_ ?_
      · rintro r u ⟨hq', htrue', hfalse', hpast'⟩
        exact ⟨hq', htrue', hfalse', hpast.trans hpast'⟩
      · rintro f u ⟨v, hq', hv, hcurrent, hpast'⟩
        exact ⟨v, hq', hv, hcurrent, hpast.trans hpast'⟩
    | false => exact ensures_pure.mpr ⟨rfl, by simp, hfalse, hpast⟩
  · rintro f s ⟨u, hq, hu, hcurrent, hpast⟩
    exact ⟨u, by rw [run_bind, hq], hu, hcurrent, hpast⟩

/-- The comparison of the elements. -/
theorem imitates_walks {same : Addr → Addr → Comparing Bool}
    {same' : Addr → Addr → Query (Fault × Trail) Bool} {xs ys : List Addr} {f g : Option Fault}
    (hsame : ∀ x y, Imitates t (fun _ => True) (same x y) (same' x y)) (ht : t.Distinct) :
    Imitates t (fun _ => True) (Heap.walksEqual same id xs f ys g)
      (Heap.walksEqual same' (·, t) xs f ys g) := by
  fun_induction Heap.walksEqual same id xs f ys g with
  | case1 x xs f y ys g ih =>
    rw [Heap.walksEqual]
    exact (hsame x y).andThen ih
  | case2 f ys g =>
    rw [Heap.walksEqual]
    exact imitates_throw ht f
  | case3 xs f g hleft =>
    rw [Heap.walksEqual]
    · exact imitates_throw ht g
    · exact hleft
  | case4 =>
    rw [Heap.walksEqual]
    exact imitates_true
  | case5 xs f ys g hright hboth hleft hnone =>
    rw [Heap.walksEqual]
    · exact imitates_false trivial
    all_goals assumption

/-- The comparison of two words. -/
theorem imitates_words {cleared : Stacks → Prop} (hc : cleared t.sides) (ignoreCase : Bool)
    (a b : Addr) (v w : Word) :
    Imitates t cleared (ask (Query.wordsEqual ignoreCase a v b w))
      (Query.wordsEqual ignoreCase a v b w) := by
  intro σ past
  obtain ⟨r, τ, hrun⟩ := Query.exists_run_wordsEqual ignoreCase a b v w σ
  unfold Ensures
  rw [run_ask, hrun, hrun]
  exact ⟨rfl, fun _ => rfl, fun _ => hc, noted_refl past⟩

/-- The comparison of two sequences, with the checks that go before the comparison of their
elements. -/
theorem imitates_sequences (h : Heap) {same : Addr → Addr → Comparing Bool}
    {same' : Trail → Addr → Addr → Query (Fault × Trail) Bool} {cleared : Stacks → Prop}
    (hc : cleared {}) (ht : t.Distinct) {x y : Addr}
    (hsame : Trail.Distinct ((x, y) :: t) → ∀ c d, Imitates ((x, y) :: t) (fun _ => True) (same c d)
      (same' ((x, y) :: t) c d)) :
    Imitates t cleared (sequencesAgree h same x y)
      (if t.findIdx? (·.1 == x) ≠ t.findIdx? (·.2 == y) then pure false
      else if (t.findIdx? (·.1 == x)).isSome = true then pure true
      else if h.extent x ≠ h.extent y then pure false
      else Heap.walksEqual (same' ((x, y) :: t)) (·, (x, y) :: t) (h.elements x).found
        (h.elements x).fault? (h.elements y).found (h.elements y).fault?) := by
  intro σ past
  refine ensures_bind.mpr (ensures_current.mpr ?_)
  by_cases hlevel : t.findIdx? (·.1 == x) = t.findIdx? (·.2 == y)
  · rw [if_neg (not_not.mpr hlevel)]
    dsimp only
    rw [if_neg (not_not.mpr (ht.sides_levels_eq_iff.mpr hlevel)), Trail.sides_level_isSome]
    split
    · exact imitates_true σ past
    next hnew =>
    split
    · exact imitates_unequal hc σ past
    -- neither side was entered before
    have hx := Option.not_isSome_iff_eq_none.mp hnew
    have hinner : Trail.Distinct ((x, y) :: t) :=
      ht.cons (Trail.level_eq_none_iff.mp hx) (Trail.level_eq_none_iff.mp (hlevel ▸ hx))
    refine ensures_bind.mpr (ensures_change.mpr ?_)
    rw [Trail.push_sides]
    have hnoted : Noted past (Trail.sides ((x, y) :: t) :: past) :=
      (noted_refl past).cons hinner.balanced
    refine ensures_bind.mpr ((imitates_walks (hsame hinner) hinner σ _).mono ?_ ?_)
    · rintro r ⟨τ, ⟨current, past'⟩⟩ ⟨hq, htrue, -, hpast⟩
      have hpast' := hnoted.trans hpast
      cases r with
      | true =>
        obtain rfl : current = Trail.sides ((x, y) :: t) := htrue rfl
        refine ensures_bind.mpr (ensures_change.mpr (ensures_pure.mpr ?_))
        rw [Trail.pop_sides]
        exact ⟨hq, fun _ => rfl, by simp, hpast'.cons ht.balanced⟩
      | false =>
        exact ensures_unequal.mpr ⟨hq, by simp, fun _ => hc, hpast'.cons balanced_empty⟩
    · rintro f s ⟨u, hq, hu, hcurrent, hpast⟩
      exact ⟨u, hq, hu, hcurrent, hnoted.trans hpast⟩
  · -- only one of the two was entered before, or they were entered at different levels
    rw [if_pos hlevel]
    dsimp only
    rw [if_pos (mt ht.sides_levels_eq_iff.mp hlevel)]
    exact imitates_unequal hc σ past

end Imitates

end Comparing

namespace Heap

open Comparing

/-- What becomes of the stacks when two values differ: they are cleared if the comparison used them,
and stay as they are otherwise. -/
def Cleared (h : Heap) (t : Trail) (x y : Addr) (s : Stacks) : Prop :=
  s = if h.usesTrail x y then {} else t.sides

section Sequences

variable {h : Heap} {ignoreCase : Bool} {n : ℕ} {t : Trail} {x y : Addr}

/-- The comparison of two different sequences of one kind inside a trail. -/
theorem equalWithin_of_sequence (hx : h.kind x = .list ∨ h.kind x = .array)
    (hkind : h.kind x = h.kind y) (hne : x ≠ y) :
    h.equalWithin ignoreCase (n + 1) t x y =
      if t.findIdx? (·.1 == x) ≠ t.findIdx? (·.2 == y) then pure false
      else if (t.findIdx? (·.1 == x)).isSome then pure true
      else if h.extent x ≠ h.extent y then pure false
      else walksEqual (h.equalWithin ignoreCase n ((x, y) :: t)) (·, (x, y) :: t)
        (h.elements x).found (h.elements x).fault? (h.elements y).found (h.elements y).fault? := by
  rw [equalWithin, if_neg (not_not.mpr hkind), if_neg hne]
  unfold kind at hx
  revert hx
  cases h.body x <;> simp [Body.kind]

/-- Sequences that are not on the trail are compared by their sizes and their elements. -/
theorem equalWithin_of_new (hx : h.kind x = .list ∨ h.kind x = .array)
    (hkind : h.kind x = h.kind y) (hne : x ≠ y) (hleft : x ∉ t.map Prod.fst)
    (hright : y ∉ t.map Prod.snd) :
    h.equalWithin ignoreCase (n + 1) t x y =
      if h.extent x ≠ h.extent y then pure false
      else walksEqual (h.equalWithin ignoreCase n ((x, y) :: t)) (·, (x, y) :: t)
        (h.elements x).found (h.elements x).fault? (h.elements y).found (h.elements y).fault? := by
  rw [equalWithin_of_sequence hx hkind hne, Trail.level_eq_none_iff.mpr hleft,
    Trail.level_eq_none_iff.mpr hright, if_neg (not_not.mpr rfl), if_neg (by simp)]

/-- The comparison of two different sequences of one kind on two stacks. -/
theorem compareWithin_of_sequence (hx : h.kind x = .list ∨ h.kind x = .array)
    (hkind : h.kind x = h.kind y) (hne : x ≠ y) :
    h.compareWithin ignoreCase (n + 1) x y =
      sequencesAgree h (h.compareWithin ignoreCase n) x y := by
  rw [compareWithin, if_neg (not_not.mpr hkind), if_neg hne]
  unfold kind at hx
  revert hx
  cases h.body x <;> simp [Body.kind]

end Sequences

/-- **The comparison on two stacks does the same as the one inside a trail.** -/
theorem imitates_compareWithin (h : Heap) (ignoreCase : Bool) (n : ℕ) {t : Trail} (ht : t.Distinct)
    (x y : Addr) :
    Imitates t (h.Cleared t x y) (h.compareWithin ignoreCase n x y)
      (h.equalWithin ignoreCase n t x y) := by
  induction n generalizing t x y with
  | zero => exact imitates_throw ht .endless
  | succ n ih =>
    by_cases hkind : h.kind x = h.kind y
    swap
    · rw [compareWithin, equalWithin, if_pos hkind, if_pos hkind]
      exact imitates_false (by simp [Cleared, usesTrail, hkind])
    by_cases hxy : x = y
    · rw [compareWithin, equalWithin, if_neg (not_not.mpr hkind), if_neg (not_not.mpr hkind),
        if_pos hxy, if_pos hxy]
      exact imitates_true
    by_cases hx : h.kind x = .list ∨ h.kind x = .array
    · have huses : h.usesTrail x y = true := by simp [usesTrail, hxy, ← hkind, hx]
      rw [compareWithin_of_sequence hx hkind hxy, equalWithin_of_sequence hx hkind hxy]
      exact imitates_sequences h (by simp [Cleared, huses]) ht
        fun hinner c d => (ih hinner c d).mono fun _ _ => trivial
    -- words are compared, and of all other values only nothing equals itself
    have hcleared : h.Cleared t x y t.sides := by
      obtain ⟨hlist, harray⟩ := not_or.mp hx
      simp [Cleared, usesTrail, hlist, harray]
    rw [compareWithin, equalWithin, if_neg (not_not.mpr hkind), if_neg (not_not.mpr hkind),
      if_neg hxy, if_neg hxy]
    unfold kind at hkind hx
    revert hkind hx
    cases h.body x with
    | nothing => cases h.body y <;> simp [Body.kind, imitates_true]
    | word v =>
      cases h.body y <;> simp [Body.kind]
      exact imitates_words hcleared ignoreCase x y v _
    | list l => simp [Body.kind]
    | array origin slots => simp [Body.kind]
    | cell | node | procedure | error => exact fun _ _ => imitates_false hcleared

/-- A comparison that starts on the sides of a trail ends on the sides of the trail that the same
comparison inside the trail leaves behind. -/
theorem run_compareWithin (h : Heap) (ignoreCase : Bool) {t : Trail} (ht : t.Distinct)
    (x y : Addr) (σ : Settled) (past : List Stacks) :
    ∃ past', Noted past past' ∧
      (h.compareWithin ignoreCase (h.blocks.size + 2) x y).run (σ, ⟨t.sides, past⟩) =
        (((h.compare ignoreCase t x y).run σ).1.1, ((h.compare ignoreCase t x y).run σ).2,
          ⟨Trail.sides ((h.compare ignoreCase t x y).run σ).1.2, past'⟩) := by
  have hend := imitates_compareWithin h ignoreCase (h.blocks.size + 2) ht x y σ past
  -- the run is known, so the two cases of its outcome are read off one after the other
  unfold Ensures at hend
  rw [run_compare, equalOn]
  rcases hs : (h.compareWithin ignoreCase (h.blocks.size + 2) x y).run (σ, ⟨t.sides, past⟩) with
    ⟨f | r, τ, ⟨current, past'⟩⟩
  all_goals rw [hs] at hend
  · obtain ⟨u, hq, -, rfl, hpast⟩ := hend
    exact ⟨past', hpast, by rw [hq]⟩
  · obtain ⟨hq, htrue, hfalse, hpast⟩ := hend
    refine ⟨past', hpast, ?_⟩
    rw [hq]
    cases r with
    | true =>
      obtain rfl : current = t.sides := htrue rfl
      rfl
    | false =>
      -- a false answer clears the stacks if the comparison has pushed on them
      obtain rfl : current = if h.usesTrail x y then {} else t.sides := hfalse rfl
      split <;> rfl

/-- The answer of a comparison outside of any other is that from an empty trail. -/
theorem run_equal {h : Heap} {ignoreCase r : Bool} {x y : Addr} {σ τ : Settled}
    (hrun : (h.equalOn ignoreCase [] x y).run σ = (.ok r, τ)) :
    (h.equal ignoreCase x y).run σ = (.ok r, τ) := by
  have hequal : (h.equal ignoreCase x y).run σ =
      (((h.equalOn ignoreCase [] x y).run σ).1.mapError Prod.fst,
        ((h.equalOn ignoreCase [] x y).run σ).2) := rfl
  rw [hequal, hrun]
  rfl

/-- **A comparison outside of any other ends with an answer**, and outside of any other. -/
theorem run_compare_nil {h : Heap} (hlists : ∀ x l, h.body x = .list l → h.Linked l.head)
    (ignoreCase : Bool) (x y : Addr) (σ : Settled) :
    ∃ r τ, (h.equal ignoreCase x y).run σ = (.ok r, τ) ∧
      (h.compare ignoreCase [] x y).run σ = ((.ok r, []), τ) := by
  have hends : Ensures (h.equalOn ignoreCase [] x y) σ (fun _ _ => True) fun _ _ => False := by
    refine ensures_equalWithin_keeps (fun {a b v w τ} _ _ _ => ?_) hlists (fits_nil h) x y trivial
    obtain ⟨r, τ', hrun⟩ := Query.exists_run_wordsEqual ignoreCase a b v w τ
    unfold Ensures
    rw [hrun]
    trivial
  obtain ⟨r, τ, hrun, -⟩ := hends.exists_ok
  refine ⟨r, τ, run_equal hrun, ?_⟩
  rw [run_compare, hrun]
  cases r <;> simp

end Heap

/-! ### Many comparisons -/

/-- A comparison that is asked for: the heap and the settled words it starts from, whether letter
case is to be ignored, and the two values. -/
structure Request where
  /-- The heap. -/
  heap : Heap
  /-- The settled words. -/
  settled : Settled
  /-- Whether letter case does not matter. -/
  ignoreCase : Bool
  /-- The value on the left. -/
  left : Addr
  /-- The value on the right. -/
  right : Addr

namespace Request

/-- The comparison by itself: its answer, and the words settled then. -/
def alone (r : Request) : Except Fault Bool × Settled :=
  (r.heap.equal r.ignoreCase r.left r.right).run r.settled

/-- The comparison inside the trail that the one before it left behind. -/
def inTrail (r : Request) : StateM Trail (Except Fault Bool × Settled) := fun t =>
  let ((result, t), settled) := (r.heap.compare r.ignoreCase t r.left r.right).run r.settled
  ((result, settled), t)

/-- The comparison on the stacks of a context as the one before it left them. -/
def inContext (r : Request) : StateM Context (Except Fault Bool × Settled) := fun c =>
  let (result, settled, c) :=
    (r.heap.compareWithin r.ignoreCase (r.heap.blocks.size + 2) r.left r.right).run (r.settled, c)
  ((result, settled), c)

variable {r : Request} {rs : List Request}

/-- A comparison that is asked for outside of any other. -/
theorem run_inTrail (hlists : ∀ x l, r.heap.body x = .list l → r.heap.Linked l.head) :
    (∃ answer, r.alone.1 = .ok answer) ∧ r.inTrail.run [] = (r.alone, []) := by
  obtain ⟨answer, τ, halone, hrun⟩ :=
    Heap.run_compare_nil hlists r.ignoreCase r.left r.right r.settled
  have hin : r.inTrail.run [] =
      ((((r.heap.compare r.ignoreCase [] r.left r.right).run r.settled).1.1,
        ((r.heap.compare r.ignoreCase [] r.left r.right).run r.settled).2),
        ((r.heap.compare r.ignoreCase [] r.left r.right).run r.settled).1.2) := rfl
  rw [hin, hrun, alone, halone]
  exact ⟨⟨answer, rfl⟩, rfl⟩

/-- A comparison that finds its context idle. -/
theorem run_inContext (hlists : ∀ x l, r.heap.body x = .list l → r.heap.Linked l.head)
    (past : List Stacks) :
    ∃ past', Comparing.Noted past past' ∧
      r.inContext.run ⟨{}, past⟩ = (r.alone, ⟨{}, past'⟩) := by
  obtain ⟨answer, τ, halone, hrun⟩ :=
    Heap.run_compare_nil hlists r.ignoreCase r.left r.right r.settled
  obtain ⟨past', hnoted, hsides⟩ := Heap.run_compareWithin r.heap r.ignoreCase
    (t := []) ⟨List.nodup_nil, List.nodup_nil⟩ r.left r.right r.settled past
  rw [hrun] at hsides
  have hin : r.inContext.run ⟨{}, past⟩ =
      let end' := (r.heap.compareWithin r.ignoreCase (r.heap.blocks.size + 2) r.left r.right).run
        (r.settled, ⟨Trail.sides [], past⟩)
      ((end'.1, end'.2.1), end'.2.2) := rfl
  refine ⟨past', hnoted, ?_⟩
  rw [hin, hsides, alone, halone]
  rfl

/-- **Comparisons one after the other in one context.**  In heaps whose lists are chained by cells
every comparison has an answer; after any number of comparisons, all of them in one context, the
context is idle and the answers and settled words are those that each comparison has by itself, and
at all times the two stacks had the same length and nothing twice. -/
theorem contexts_are_reusable (rs : List Request)
    (hlists : ∀ r ∈ rs, ∀ x l, r.heap.body x = .list l → r.heap.Linked l.head) :
    (∀ r ∈ rs, ∃ answer, r.alone.1 = .ok answer) ∧
      (rs.mapM inTrail).run [] = (rs.map alone, []) ∧
      ∃ past : List Stacks, (rs.mapM inContext).run {} = (rs.map alone, ⟨{}, past⟩) ∧
        ∀ s ∈ past, s.Balanced := by
  refine ⟨fun r hr => (run_inTrail (hlists r hr)).1,
    run_mapM_of_restored fun r hr => (run_inTrail (hlists r hr)).2, ?_⟩
  -- by induction on the comparisons still to be made, from any stacks noted so far
  suffices h : ∀ past : List Stacks, ∃ past', Comparing.Noted past past' ∧
      (rs.mapM inContext).run ⟨{}, past⟩ = (rs.map alone, ⟨{}, past'⟩) by
    obtain ⟨past, hnoted, hrun⟩ := h []
    exact ⟨past, hrun, fun s hs => (hnoted s hs).resolve_left (by simp)⟩
  induction rs with
  | nil => exact fun past => ⟨past, Comparing.noted_refl past, rfl⟩
  | cons r rs ih =>
    intro past
    obtain ⟨past', hnoted, hfirst⟩ := run_inContext (hlists r List.mem_cons_self) past
    obtain ⟨past'', hnoted', hrest⟩ := ih (fun r hr => hlists r (List.mem_cons_of_mem _ hr)) past'
    refine ⟨past'', hnoted.trans hnoted', ?_⟩
    rw [run_mapM_cons, hfirst]
    dsimp only
    rw [hrest, List.map_cons]

/-- Two lists that contain themselves are told from a third one, and then found equal, in one
context. -/
theorem unequal_then_equal :
    let s := (Session.run [.build (.selfContaining ["a"]) ⟨some "x", true⟩,
      .build (.selfContaining ["a"]) ⟨some "y", true⟩,
      .build (.circular ["a", "b"]) ⟨some "z", true⟩] {}).2.store
    let rs : List Request := [⟨s.heap, s.settled, false, 3, 13⟩, ⟨s.heap, s.settled, false, 3, 7⟩]
    (∀ r ∈ rs, ∀ x l, r.heap.body x = .list l → r.heap.Linked l.head) ∧
      rs.map (·.alone.1) = [.ok false, .ok true] ∧
      ∃ past : List Stacks, (rs.mapM inContext).run {} = (rs.map alone, ⟨{}, past⟩) ∧
        ∀ s ∈ past, s.Balanced := by
  intro s rs
  have hlists : ∀ r ∈ rs, ∀ x l, r.heap.body x = .list l → r.heap.Linked l.head := by
    have hheap : ∀ r ∈ rs, r.heap = s.heap := by simp [rs]
    intro r hr
    rw [hheap r hr]
    exact Heap.linked_of_heads (S := [1, 2, 4, 6, 8, 12]) (by decide +kernel) (by decide +kernel)
      (by decide +kernel)
  exact ⟨hlists, by decide +kernel, (contexts_are_reusable rs hlists).2.2⟩

end Request

end SharedValues
