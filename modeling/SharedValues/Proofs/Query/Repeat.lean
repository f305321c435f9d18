import SharedValues.Proofs.Number.Numeral
import SharedValues.Proofs.Query.Equality
import SharedValues.Proofs.Session.Sizes

/-!
# Comparing twice

A comparison settles words that spell numbers, and what is settled decides how later pairs of words
are compared.  So a comparison may end otherwise when it is made again, but only in one way: what
was equal stays equal, and what was not can become equal where two words with different texts spell
the same number.

Both comparisons are followed side by side.  The later one starts with more words settled, and as
long as no such pair is met it does the same as the earlier one and settles no fewer words.

## Main definitions

* `Both` — two steps end with results, and their ends are related.
* `Heap.Turns` — two words compare by their texts at first, and by their numbers in the end.
* `Heap.Wavers` — two values have such words at the same place.

## Main results

* `Heap.ensures_equalWithin_keeps` — a comparison ends with an answer, and keeps what the comparison
  of two words keeps.
* `Heap.both_equalWithin` — how a comparison from more settled words differs.
* `Heap.equal_repeats` — how a repeated comparison differs.
* `Heap.equal_turns` — it can differ.
-/

namespace SharedValues

/-! ### Two runs -/

section Both

variable {ε α β σ : Type} {p q : ExceptT ε (StateM σ) α} {s t : σ} {Q R : α → α → σ → σ → Prop}

/-- Two steps, one from each of two states, end with results, and `Q` relates the results and the
states in which they end. -/
def Both (p q : ExceptT ε (StateM σ) α) (s t : σ) (Q : α → α → σ → σ → Prop) : Prop :=
  ∃ a s' b t', p.run s = (.ok a, s') ∧ q.run t = (.ok b, t') ∧ Q a b s' t'

theorem both_pure {a b : α} (h : Q a b s t) :
    Both (pure a : ExceptT ε (StateM σ) α) (pure b) s t Q :=
  ⟨a, s, b, t, rfl, rfl, h⟩

theorem Both.mono (h : Both p q s t R) (hQ : ∀ a b s' t', R a b s' t' → Q a b s' t') :
    Both p q s t Q := by
  obtain ⟨a, s', b, t', hp, hq, hR⟩ := h
  exact ⟨a, s', b, t', hp, hq, hQ _ _ _ _ hR⟩

/-- Steps after others start where those end. -/
theorem Both.bind {f g : α → ExceptT ε (StateM σ) β} {Q : β → β → σ → σ → Prop}
    (h : Both p q s t R) (hQ : ∀ a b s' t', R a b s' t' → Both (f a) (g b) s' t' Q) :
    Both (p >>= f) (q >>= g) s t Q := by
  obtain ⟨a, s', b, t', hp, hq, hR⟩ := h
  unfold Both
  rw [run_bind, run_bind, hp, hq]
  exact hQ a b s' t' hR

theorem Both.adapt {ε' : Type} (h : Both p q s t Q) (f : ε → ε') :
    Both (p.adapt f) (q.adapt f) s t Q := by
  obtain ⟨a, s', b, t', hp, hq, hQ⟩ := h
  have hrun : ∀ (step : ExceptT ε (StateM σ) α) u,
      (step.adapt f).run u = ((step.run u).1.mapError f, (step.run u).2) := fun _ _ => rfl
  refine ⟨a, s', b, t', ?_, ?_, hQ⟩
  · rw [hrun, hp]
    rfl
  · rw [hrun, hq]
    rfl

end Both

/-! ### More settled words -/

namespace Settled

variable {σ τ υ : Settled} {a b : Addr}

/-- Sets of settled words are ordered by inclusion. -/
instance : Preorder Settled where
  le σ τ := ∀ a, σ.contains a = true → τ.contains a = true
  le_refl _ _ := id
  le_trans _ _ _ h h' a := h' a ∘ h a

theorem le_insert (σ : Settled) (a : Addr) : σ ≤ σ.insert a := by
  intro b hb
  rw [contains_insert, hb, Bool.true_or]

theorem contains_eq_false_of_le (h : σ ≤ τ) (ha : τ.contains a = false) :
    σ.contains a = false :=
  Bool.eq_false_of_not_eq_true fun hσ => by simp [h a hσ] at ha

theorem contains_insert_self (σ : Settled) (a : Addr) : (σ.insert a).contains a = true := by
  simp

theorem insert_le (h : σ ≤ τ) (ha : τ.contains a = true) : σ.insert a ≤ τ := by
  intro b hb
  rw [contains_insert, Bool.or_eq_true, decide_eq_true_eq] at hb
  rcases hb with hb | rfl
  · exact h b hb
  · exact ha

/-- The settled words after the word `w` at an address was asked for its number. -/
def asked (σ : Settled) (a : Addr) (w : Word) : Settled :=
  if !w.isNumber && w.number?.isSome then σ.insert a else σ

theorem le_asked (σ : Settled) (a : Addr) (w : Word) : σ ≤ σ.asked a w := by
  unfold asked
  split
  · exact le_insert σ a
  · exact le_refl σ

/-- A text that was asked for its number is settled if it has one. -/
theorem contains_asked {w : Word} (hw : w.isNumber = false) (hnumber : w.number?.isSome = true) :
    (σ.asked a w).contains a = true := by
  rw [asked, if_pos (by simp [hw, hnumber])]
  exact contains_insert_self σ a

theorem asked_le {w : Word} (h : σ ≤ τ)
    (ha : w.isNumber = false → w.number?.isSome = true → τ.contains a = true) :
    σ.asked a w ≤ τ := by
  unfold asked
  split
  · next hw =>
    rw [Bool.and_eq_true, Bool.not_eq_true'] at hw
    exact insert_le h (ha hw.1 hw.2)
  · exact h

end Settled

/-! ### The comparison of words -/

/-- Whether two words have numbers, and these are equal. -/
def Word.sameNumber (v w : Word) : Bool :=
  v.number?.isSome && w.number?.isSome && v.value.equals w.value

/-- Texts that are the same have the same number, if they have one. -/
theorem Word.sameNumber_of_sameText {v w : Word} {ignoreCase : Bool} (hv : v.isNumber = false)
    (hw : w.isNumber = false) (hsame : sameText ignoreCase v w = true)
    (hnumber : v.number?.isSome = true ∨ w.number?.isSome = true) : sameNumber v w = true := by
  have heq := number?_of_sameText hv hw hsame
  rw [heq, or_self] at hnumber
  obtain ⟨n, hn⟩ := Option.isSome_iff_exists.mp hnumber
  have hself := equals_of_number? hw hn
  simp [sameNumber, value, heq, hn, hself]

namespace Query

variable {ε : Type} {σ : Settled} {ignoreCase : Bool} {a b : Addr} {v w : Word}

theorem run_numberOf (a : Addr) (w : Word) (σ : Settled) :
    (numberOf a w : Query ε Binary64).run σ = (.ok w.value, σ.asked a w) := by
  unfold numberOf Settled.asked
  cases !w.isNumber && w.number?.isSome <;> rfl

/-- The other word is asked for its number if one is treated as a number. -/
theorem run_wordsEqual (a b : Addr) (v w : Word) (σ : Settled) :
    (wordsEqual ignoreCase a v b w : Query ε Bool).run σ =
      if v.isNumeric (σ.contains a) then
        (.ok (w.number?.isSome && v.value.equals w.value), σ.asked b w)
      else if w.isNumeric (σ.contains b) then
        (.ok (v.number?.isSome && v.value.equals w.value), σ.asked a v)
      else (.ok (Word.sameText ignoreCase v w), σ) := by
  have hsettled : ∀ c, (isSettled c : Query ε Bool).run σ = (.ok (σ.contains c), σ) := fun _ => rfl
  unfold wordsEqual
  rw [run_bind, hsettled]
  dsimp only
  split
  · rw [run_bind, run_numberOf]
    rfl
  rw [run_bind, hsettled]
  dsimp only
  split
  · rw [run_bind, run_numberOf]
    rfl
  · rfl

end Query

namespace Heap

variable {h : Heap} {σ τ υ σ' τ' : Settled} {ignoreCase : Bool} {a b x y : Addr} {v w : Word}
  {trail : Trail} {ε : Type}

/-- Two words, made of texts that differ and spell the same number, are compared by their texts as
long as the words in `σ` are settled, and by their numbers when those in `τ` are. -/
structure Turns (h : Heap) (ignoreCase : Bool) (σ τ : Settled) (a b : Addr) : Prop where
  /-- The words are different texts that spell the same number. -/
  words : ∃ v w, h.body a = .word v ∧ h.body b = .word w ∧ v.isNumber = false ∧
    w.isNumber = false ∧ Word.sameText ignoreCase v w = false ∧ Word.sameNumber v w = true
  /-- Neither of them is settled at first. -/
  unsettled : σ.contains a = false ∧ σ.contains b = false
  /-- Both are settled in the end. -/
  settled : τ.contains a = true ∧ τ.contains b = true

/-- The same place in two values holds words whose comparison turns. -/
def Wavers (h : Heap) (ignoreCase : Bool) (σ τ : Settled) (x y : Addr) : Prop :=
  ∃ path a b, h.descend path x = some a ∧ h.descend path y = some b ∧ h.Turns ignoreCase σ τ a b

theorem Turns.mono (hab : h.Turns ignoreCase σ' τ' a b) (hσ : σ ≤ σ') (hτ : τ' ≤ τ) :
    h.Turns ignoreCase σ τ a b where
  words := hab.words
  unsettled := hab.unsettled.imp (Settled.contains_eq_false_of_le hσ)
    (Settled.contains_eq_false_of_le hσ)
  settled := hab.settled.imp (hτ a) (hτ b)

/-- What the ends of two comparisons have in common, the later one of which started with more words
settled than the earlier one: what was equal is so again, and what was not is so again, or `D`
holds. -/
structure Repeats (h : Heap) (σ : Settled) (D : Settled → Prop) (r r' : Bool) (σ' τ' : Settled) :
    Prop where
  /-- The words settled by the earlier one have numbers. -/
  valid : σ'.Valid h
  /-- The words settled by the later one have numbers. -/
  valid' : τ'.Valid h
  /-- What is settled stays settled. -/
  kept : σ ≤ σ'
  /-- The later one settles no fewer words. -/
  grown : σ' ≤ τ'
  /-- What was equal is so again. -/
  of_true : r = true → r' = true
  /-- What was not equal is so again, or there is a reason. -/
  of_false : r = false → r' = true → D τ'

/-- Comparisons with the same answer. -/
theorem Repeats.same {D : Settled → Prop} (hσ : σ'.Valid h) (hτ : τ'.Valid h) (hkept : σ ≤ σ')
    (hle : σ' ≤ τ') (r : Bool) : h.Repeats σ D r r σ' τ' where
  valid := hσ
  valid' := hτ
  kept := hkept
  grown := hle
  of_true := id
  of_false hfalse htrue := by simp [hfalse] at htrue

theorem valid_asked (hσ : σ.Valid h) (ha : h.body a = .word w) : (σ.asked a w).Valid h := by
  unfold Settled.asked
  split
  · next hw => exact Settled.Valid.insert hσ ha (Bool.and_eq_true_iff.mp hw).2
  · exact hσ

/-- A word that is treated as a number has one. -/
theorem isSome_of_isNumeric (hσ : σ.Valid h) (ha : h.body a = .word w)
    (hw : w.isNumeric (σ.contains a) = true) : w.number?.isSome = true := by
  rw [Word.isNumeric, Bool.or_eq_true] at hw
  exact hw.elim (hσ a w · ha) Concord.number?_of_isNumber

/-- A word that is treated as a number is so again. -/
theorem isNumeric_mono (hle : σ ≤ τ) (hw : w.isNumeric (σ.contains a) = true) :
    w.isNumeric (τ.contains a) = true := by
  rw [Word.isNumeric, Bool.or_eq_true] at hw ⊢
  exact hw.imp_left (hle a)

theorem isNumeric_eq_false :
    w.isNumeric (σ.contains a) = false ↔ σ.contains a = false ∧ w.isNumber = false := by
  rw [Word.isNumeric, Bool.or_eq_false_iff]

/-- Words are compared by their numbers as soon as one of them is treated as a number. -/
theorem run_wordsEqual (hσ : σ.Valid h) (ha : h.body a = .word v) (hb : h.body b = .word w) :
    (Query.wordsEqual ignoreCase a v b w : Query ε Bool).run σ =
      if v.isNumeric (σ.contains a) then (.ok (v.sameNumber w), σ.asked b w)
      else if w.isNumeric (σ.contains b) then (.ok (v.sameNumber w), σ.asked a v)
      else (.ok (Word.sameText ignoreCase v w), σ) := by
  rw [Query.run_wordsEqual]
  split
  · next hv => rw [Word.sameNumber, isSome_of_isNumeric hσ ha hv, Bool.true_and]
  split
  · next hw => rw [Word.sameNumber, isSome_of_isNumeric hσ hb hw, Bool.and_true]
  · rfl

/-- Two texts that are compared by their numbers when they are compared again. -/
theorem repeats_of_texts (hσ : σ.Valid h) (ha : h.body a = .word v) (hb : h.body b = .word w)
    (hv : v.isNumeric (σ.contains a) = false) (hw : w.isNumeric (σ.contains b) = false)
    (hnumber : v.number?.isSome = true ∨ w.number?.isSome = true) (hτ' : τ'.Valid h)
    (hle : σ ≤ τ') (hsettled : v.number?.isSome = true → w.number?.isSome = true →
      τ'.contains a = true ∧ τ'.contains b = true) :
    h.Repeats σ (h.Turns ignoreCase σ · a b) (Word.sameText ignoreCase v w) (v.sameNumber w)
      σ τ' where
  valid := hσ
  valid' := hτ'
  kept := le_refl σ
  grown := hle
  of_true hsame := Word.sameNumber_of_sameText (isNumeric_eq_false.mp hv).2
    (isNumeric_eq_false.mp hw).2 hsame hnumber
  of_false hdiffer hsame := by
    obtain ⟨hva, hv⟩ := isNumeric_eq_false.mp hv
    obtain ⟨hwb, hw⟩ := isNumeric_eq_false.mp hw
    have hnumbers := Bool.and_eq_true_iff.mp (Bool.and_eq_true_iff.mp hsame).1
    exact ⟨⟨v, w, ha, hb, hv, hw, hdiffer, hsame⟩, ⟨hva, hwb⟩, hsettled hnumbers.1 hnumbers.2⟩

/-- **How the comparison of two words differs** when more words are settled. -/
theorem both_wordsEqual (hσ : σ.Valid h) (hτ : τ.Valid h) (hle : σ ≤ τ) (ha : h.body a = .word v)
    (hb : h.body b = .word w) :
    Both (Query.wordsEqual ignoreCase a v b w : Query ε Bool)
      (Query.wordsEqual ignoreCase a v b w) σ τ
      (h.Repeats σ (h.Turns ignoreCase σ · a b)) := by
  unfold Both
  rw [run_wordsEqual hσ ha hb, run_wordsEqual hτ ha hb]
  have hσb := valid_asked hσ hb
  have hτb := valid_asked hτ hb
  have hσa := valid_asked hσ ha
  have hτa := valid_asked hτ ha
  have hkeepa := Settled.le_asked τ a v
  have hkeepb := Settled.le_asked τ b w
  -- a text that is treated as a number is settled
  have hsettled : ∀ {c : Addr} {u : Word}, u.isNumber = false →
      u.isNumeric (τ.contains c) = true → τ.contains c = true := by
    intro c u hu hnumeric
    rwa [Word.isNumeric, hu, Bool.or_false] at hnumeric
  by_cases hv : v.isNumeric (σ.contains a) = true
  · -- the left word is treated as a number from the start
    rw [if_pos hv, if_pos (isNumeric_mono hle hv)]
    exact ⟨_, _, _, _, rfl, rfl, .same hσb hτb (Settled.le_asked σ b w)
      (Settled.asked_le (hle.trans hkeepb) Settled.contains_asked) _⟩
  rw [if_neg hv]
  rw [Bool.not_eq_true] at hv
  by_cases hw : w.isNumeric (σ.contains b) = true
  · -- the right word is treated as a number from the start
    rw [if_pos hw, if_pos (isNumeric_mono hle hw)]
    split
    · next hv' =>
      refine ⟨_, _, _, _, rfl, rfl, .same hσa hτb (Settled.le_asked σ a v)
        (Settled.asked_le (hle.trans hkeepb) fun htext _ => ?_) _⟩
      exact hkeepb a (hsettled htext hv')
    · exact ⟨_, _, _, _, rfl, rfl, .same hσa hτa (Settled.le_asked σ a v)
        (Settled.asked_le (hle.trans hkeepa) Settled.contains_asked) _⟩
  -- the texts are compared at first
  rw [if_neg hw]
  rw [Bool.not_eq_true] at hw
  have hvtext := (isNumeric_eq_false.mp hv).2
  have hwtext := (isNumeric_eq_false.mp hw).2
  split
  · next hv' =>
    refine ⟨_, _, _, _, rfl, rfl, repeats_of_texts hσ ha hb hv hw
      (.inl (isSome_of_isNumeric hτ ha hv')) hτb (hle.trans hkeepb) fun _ hnumber => ?_⟩
    exact ⟨hkeepb a (hsettled hvtext hv'), Settled.contains_asked hwtext hnumber⟩
  split
  · next hw' =>
    refine ⟨_, _, _, _, rfl, rfl, repeats_of_texts hσ ha hb hv hw
      (.inr (isSome_of_isNumeric hτ hb hw')) hτa (hle.trans hkeepa) fun hnumber _ => ?_⟩
    exact ⟨Settled.contains_asked hvtext hnumber, hkeepa b (hsettled hwtext hw')⟩
  · exact ⟨_, _, _, _, rfl, rfl, .same hσ hτ (le_refl σ) hle _⟩

/-! ### Comparisons end -/

/-- A trail with no sequence twice on the left, for which `n` levels are enough: there are more
levels, in and outside of the trail, than blocks. -/
structure Fits (h : Heap) (n : ℕ) (trail : Trail) : Prop where
  /-- No sequence was entered twice. -/
  nodup : (trail.map Prod.fst).Nodup
  /-- The sequences are live. -/
  live : ∀ a ∈ trail.map Prod.fst, h.Live a
  /-- There are more levels than blocks. -/
  room : h.blocks.size < n + trail.length

theorem fits_nil (h : Heap) : h.Fits (h.blocks.size + 2) [] where
  nodup := List.nodup_nil
  live := by simp
  room := by simp

/-- There is a level left. -/
theorem not_fits_zero : ¬ h.Fits 0 trail := by
  rintro ⟨hnodup, hlive, hroom⟩
  have hsubset : trail.map Prod.fst ⊆ List.range h.blocks.size := fun a ha =>
    List.mem_range.mpr (hlive a ha).lt_size
  have hlength := hnodup.length_le_of_subset hsubset
  simp at hlength
  omega

/-- One level is used up for a sequence that was not entered before. -/
theorem Fits.enter {n : ℕ} (ht : h.Fits (n + 1) trail) (hx : h.Live x)
    (hnew : trail.findIdx? (·.1 == x) = none) : h.Fits n ((x, y) :: trail) where
  nodup := by
    refine List.nodup_cons.mpr ⟨fun hmem => ?_, ht.nodup⟩
    obtain ⟨p, hp, rfl⟩ := List.mem_map.mp hmem
    simpa using List.findIdx?_eq_none_iff.mp hnew p hp
  live := List.forall_mem_cons.mpr ⟨hx, ht.live⟩
  room := by
    have := ht.room
    simp only [List.length_cons]
    omega

/-- A comparison of elements, each of which ends, ends. -/
theorem ensures_walksEqual_ends {same : Addr → Addr → Query ε Bool} {halt : Fault → ε}
    {I : Settled → Prop} {xs ys : List Addr}
    (hsame : ∀ x ∈ xs, ∀ y ∈ ys, ∀ σ, I σ →
      Ensures (same x y) σ (fun _ σ' => I σ') fun _ _ => False) (hσ : I σ) :
    Ensures (walksEqual same halt xs none ys none) σ (fun _ σ' => I σ') fun _ _ => False := by
  induction xs generalizing ys σ with
  | nil => cases ys <;> exact ensures_pure.mpr hσ
  | cons x xs ih =>
    cases ys with
    | nil => exact ensures_pure.mpr hσ
    | cons y ys =>
      rw [walksEqual]
      refine ensures_bind.mpr ((hsame x List.mem_cons_self y List.mem_cons_self σ hσ).mono ?_
        fun _ _ => id)
      intro r σ' hσ'
      split
      -- the caches left by one pair are as good as those it started from
      · exact ih (fun x hx y hy => hsame x (List.mem_cons_of_mem _ hx) y
          (List.mem_cons_of_mem _ hy)) hσ'
      · exact ensures_pure.mpr hσ'

/-- **A comparison ends with an answer**, and whatever the comparison of two words keeps of the
settled words it keeps as well. -/
theorem ensures_equalWithin_keeps {I : Settled → Prop}
    (hwords : ∀ {a b v w τ}, h.body a = .word v → h.body b = .word w → I τ →
      Ensures (Query.wordsEqual ignoreCase a v b w : Query (Fault × Trail) Bool) τ
        (fun _ τ' => I τ') fun _ _ => False)
    (hlists : ∀ x l, h.body x = .list l → h.Linked l.head) {n : ℕ} (ht : h.Fits n trail)
    (x y : Addr) (hσ : I σ) :
    Ensures (h.equalWithin ignoreCase n trail x y) σ (fun _ σ' => I σ') fun _ _ => False := by
  induction n generalizing trail x y σ with
  | zero => exact absurd ht not_fits_zero
  | succ n ih =>
    rw [equalWithin]
    split
    · exact ensures_pure.mpr hσ
    split
    · exact ensures_pure.mpr hσ
    split
    case h_1 => exact ensures_pure.mpr hσ
    -- words change what is cached; every other branch only goes on to the elements
    case h_2 v w hv hw => exact hwords hv hw hσ
    case h_3 | h_4 =>
      dsimp only
      split
      · exact ensures_pure.mpr hσ
      split
      · exact ensures_pure.mpr hσ
      next hnew =>
      split
      · exact ensures_pure.mpr hσ
      -- no chain breaks off, so the walk over the elements ends at the end of both
      rw [fault?_elements (hlists x), fault?_elements (hlists y)]
      have hx : h.Live x := live_of_body ‹_› (by simp)
      have hinner := ht.enter (y := y) hx (Option.not_isSome_iff_eq_none.mp hnew)
      exact ensures_walksEqual_ends (fun c _ d _ τ hτ => ih hinner c d hτ) hσ
    case h_5 => exact ensures_pure.mpr hσ

/-- A comparison ends with an answer, and what is settled stays settled. -/
theorem ensures_equalWithin_ends (hlists : ∀ x l, h.body x = .list l → h.Linked l.head) {n : ℕ}
    (ht : h.Fits n trail) (x y : Addr) (hσ : σ.Valid h) :
    Ensures (h.equalWithin ignoreCase n trail x y) σ (fun _ σ' => σ'.Valid h ∧ σ ≤ σ')
      fun _ _ => False := by
  refine ensures_equalWithin_keeps (fun {a b v w τ} hv hw hτ => ?_) hlists ht x y ⟨hσ, le_refl σ⟩
  have hboth : Both (Query.wordsEqual ignoreCase a v b w : Query (Fault × Trail) Bool) _ τ τ _ :=
    both_wordsEqual hτ.1 hτ.1 (le_refl τ) hv hw
  obtain ⟨r, τ', _, _, hrun, -, hend⟩ := hboth
  unfold Ensures
  rw [hrun]
  exact ⟨hend.valid, hτ.2.trans hend.kept⟩

/-! ### Two comparisons -/

theorem Wavers.mono (hxy : h.Wavers ignoreCase σ' τ' x y) (hσ : σ ≤ σ') (hτ : τ' ≤ τ) :
    h.Wavers ignoreCase σ τ x y := by
  obtain ⟨path, a, b, ha, hb, hab⟩ := hxy
  exact ⟨path, a, b, ha, hb, hab.mono hσ hτ⟩

/-- Elements at the same position of two lists waver. -/
def ElementsWaver (h : Heap) (ignoreCase : Bool) (σ τ : Settled) (xs ys : List Addr) : Prop :=
  ∃ i : ℕ, ∃ x y, xs[i]? = some x ∧ ys[i]? = some y ∧ h.Wavers ignoreCase σ τ x y

theorem ElementsWaver.cons {xs ys : List Addr} (hxy : h.ElementsWaver ignoreCase σ' τ xs ys)
    (hσ : σ ≤ σ') : h.ElementsWaver ignoreCase σ τ (x :: xs) (y :: ys) := by
  obtain ⟨i, a, b, ha, hb, hab⟩ := hxy
  exact ⟨i + 1, a, b, ha, hb, hab.mono hσ (le_refl τ)⟩

/-- Sequences waver if their elements do. -/
theorem Wavers.of_elements
    (hxy : h.ElementsWaver ignoreCase σ τ (h.elements x).found (h.elements y).found) :
    h.Wavers ignoreCase σ τ x y := by
  obtain ⟨i, c, d, hc, hd, path, a, b, ha, hb, hab⟩ := hxy
  refine ⟨i :: path, a, b, ?_, ?_, hab⟩
  · rw [descend, hc, Option.bind_some, ha]
  · rw [descend, hd, Option.bind_some, hb]

/-- Two comparisons of elements. -/
theorem both_walksEqual {same : Addr → Addr → Query ε Bool} {halt : Fault → ε} {xs ys : List Addr}
    (hends : ∀ x ∈ xs, ∀ y ∈ ys, ∀ σ, σ.Valid h →
      Ensures (same x y) σ (fun _ σ' => σ'.Valid h ∧ σ ≤ σ') fun _ _ => False)
    (hsame : ∀ x ∈ xs, ∀ y ∈ ys, ∀ σ τ, σ.Valid h → τ.Valid h → σ ≤ τ →
      Both (same x y) (same x y) σ τ (h.Repeats σ (h.Wavers ignoreCase σ · x y)))
    (hσ : σ.Valid h) (hτ : τ.Valid h) (hle : σ ≤ τ) :
    Both (walksEqual same halt xs none ys none) (walksEqual same halt xs none ys none) σ τ
      (h.Repeats σ (h.ElementsWaver ignoreCase σ · xs ys)) := by
  induction xs generalizing ys σ τ with
  | nil => cases ys <;> exact both_pure (.same hσ hτ (le_refl σ) hle _)
  | cons x xs ih =>
    cases ys with
    | nil => exact both_pure (.same hσ hτ (le_refl σ) hle _)
    | cons y ys =>
      have hrest := fun x (hx : x ∈ xs) y (hy : y ∈ ys) =>
        hsame x (List.mem_cons_of_mem _ hx) y (List.mem_cons_of_mem _ hy)
      have hrest' := fun x (hx : x ∈ xs) y (hy : y ∈ ys) =>
        hends x (List.mem_cons_of_mem _ hx) y (List.mem_cons_of_mem _ hy)
      rw [walksEqual]
      refine (hsame x List.mem_cons_self y List.mem_cons_self σ τ hσ hτ hle).bind ?_
      intro r r' σ' τ' hpair
      cases r with
      | true =>
        rw [hpair.of_true rfl]
        refine (ih hrest' hrest hpair.valid hpair.valid' hpair.grown).mono ?_
        intro r r' σ'' τ'' hend
        exact { hend with
          kept := hpair.kept.trans hend.kept
          of_false := fun hfalse htrue => (hend.of_false hfalse htrue).cons hpair.kept }
      | false =>
        cases r' with
        | false => exact both_pure (.same hpair.valid hpair.valid' hpair.kept hpair.grown _)
        | true =>
          -- the earlier comparison is over, and the later one goes on
          have hturn := hpair.of_false rfl rfl
          have hlater : Ensures (walksEqual same halt xs none ys none) τ'
              (fun _ υ => υ.Valid h ∧ τ' ≤ υ) fun _ _ => False := by
            refine ensures_walksEqual_ends (fun c hc d hd υ hυ => ?_) ⟨hpair.valid', le_refl τ'⟩
            exact (hrest' c hc d hd υ hυ.1).mono (fun _ _ h => ⟨h.1, hυ.2.trans h.2⟩) fun _ _ => id
          obtain ⟨r', υ, hrun, hυ, hle'⟩ := hlater.exists_ok
          exact ⟨false, σ', r', υ, rfl, hrun, {
            valid := hpair.valid
            valid' := hυ
            kept := hpair.kept
            grown := hpair.grown.trans hle'
            of_true := by simp
            of_false := fun _ _ => ⟨0, x, y, rfl, rfl, hturn.mono (le_refl σ) hle'⟩ }⟩

/-- **How a comparison from more settled words differs.** -/
theorem both_equalWithin (hlists : ∀ x l, h.body x = .list l → h.Linked l.head) {n : ℕ}
    (ht : h.Fits n trail) (x y : Addr) (hσ : σ.Valid h) (hτ : τ.Valid h) (hle : σ ≤ τ) :
    Both (h.equalWithin ignoreCase n trail x y) (h.equalWithin ignoreCase n trail x y) σ τ
      (h.Repeats σ (h.Wavers ignoreCase σ · x y)) := by
  induction n generalizing trail x y σ τ with
  | zero => exact absurd ht not_fits_zero
  | succ n ih =>
    have hpure : ∀ r : Bool, Both (pure r : Query (Fault × Trail) Bool) (pure r) σ τ
        (h.Repeats σ (h.Wavers ignoreCase σ · x y)) :=
      fun r => both_pure (.same hσ hτ (le_refl σ) hle r)
    rw [equalWithin]
    split
    · exact hpure _
    split
    · exact hpure _
    split
    case h_1 => exact hpure _
    case h_2 v w hv hw =>
      refine (both_wordsEqual hσ hτ hle hv hw).mono ?_
      intro r r' σ' τ' hend
      exact { hend with
        of_false := fun hfalse htrue => ⟨[], x, y, rfl, rfl, hend.of_false hfalse htrue⟩ }
    case h_3 | h_4 =>
      dsimp only
      split
      · exact hpure _
      split
      · exact hpure _
      -- the pair is new, so it goes on the trail for the comparison of the elements
      next hnew =>
      split
      · exact hpure _
      rw [fault?_elements (hlists x), fault?_elements (hlists y)]
      have hx : h.Live x := live_of_body ‹_› (by simp)
      have hinner := ht.enter (y := y) hx (Option.not_isSome_iff_eq_none.mp hnew)
      -- each pair of elements ends and repeats, so the walks over them do
      refine (both_walksEqual (fun c _ d _ τ hτ => ensures_equalWithin_ends hlists hinner c d hτ)
        (fun c _ d _ σ τ hσ hτ hle => ih hinner c d hσ hτ hle) hσ hτ hle).mono ?_
      intro r r' σ' τ' hend
      exact { hend with
        -- a pair of elements that wavers makes the sequences waver
        of_false := fun hfalse htrue => .of_elements (hend.of_false hfalse htrue) }
    case h_5 => exact hpure _

/-- A comparison of its own ends with an answer. -/
theorem ensures_equal_ends (hlists : ∀ x l, h.body x = .list l → h.Linked l.head)
    (hσ : σ.Valid h) (ignoreCase : Bool) (x y : Addr) :
    Ensures (h.equal ignoreCase x y) σ (fun _ σ' => σ'.Valid h ∧ σ ≤ σ') fun _ _ => False :=
  ensures_adapt.mpr (ensures_equalWithin_ends hlists (fits_nil h) x y hσ)

/-- **How a repeated comparison differs.**  In a heap whose lists are chained by cells, two
comparisons in a row have the same answer, but for one case: where the same place in both values
holds two words, made of texts that differ and spell the same number, and neither of which had been
read as a number before, the values may differ at first and be equal afterwards. -/
theorem equal_repeats (hlists : ∀ x l, h.body x = .list l → h.Linked l.head) (hσ : σ.Valid h)
    (ignoreCase : Bool) (x y : Addr) :
    ∃ r r' σ' σ'', (h.equal ignoreCase x y).run σ = (.ok r, σ') ∧
      (h.equal ignoreCase x y).run σ' = (.ok r', σ'') ∧
      (r' = r ∨ r = false ∧ r' = true ∧ h.Wavers ignoreCase σ σ'' x y) := by
  obtain ⟨r, σ', hrun, hσ', hle⟩ := (ensures_equal_ends hlists hσ ignoreCase x y).exists_ok
  have hboth : Both (h.equal ignoreCase x y) (h.equal ignoreCase x y) σ σ'
      (h.Repeats σ (h.Wavers ignoreCase σ · x y)) :=
    -- the second comparison starts from the caches that the first one leaves
    (both_equalWithin hlists (fits_nil h) x y hσ hσ' hle).adapt Prod.fst
  obtain ⟨s, τ, r', σ'', hfirst, hsecond, hend⟩ := hboth
  obtain ⟨hr, -⟩ := Prod.mk.inj (hrun.symm.trans hfirst)
  obtain rfl := Except.ok.inj hr
  refine ⟨r, r', σ', σ'', hrun, hsecond, ?_⟩
  cases r with
  | true => exact .inl (hend.of_true rfl)
  | false =>
    cases r' with
    | false => exact .inl rfl
    | true => exact .inr ⟨rfl, rfl, hend.of_false rfl rfl⟩

/-- Two lists that contain themselves are equal as often as they are compared. -/
theorem self_containing_repeats :
    let cs : List Command := [.build (.selfContaining ["a"]) ⟨some "x", true⟩,
      .build (.selfContaining ["a"]) ⟨some "y", true⟩]
    let s := (Session.run cs {}).2.store
    ∃ σ σ', (s.heap.equal false 3 7).run s.settled = (.ok true, σ) ∧
      (s.heap.equal false 3 7).run σ = (.ok true, σ') := by
  intro cs s
  have hacts : ∀ c ∈ cs, c.acts ⊆ {a | a ≠ .link ∧ a ≠ .tail} := by
    simp [cs, Command.acts, Source.acts, Set.insert_subset_iff]
  obtain ⟨r, r', σ, σ', hfirst, hsecond, hend⟩ :=
    equal_repeats (fun x l hl => (Session.measured_run hacts x l hl).1)
      (Session.backed_run cs).valid false 3 7
  have hanswer : ((s.heap.equal false 3 7).run s.settled).1 = .ok true := by decide +kernel
  rw [hfirst] at hanswer
  obtain rfl := Except.ok.inj hanswer
  rcases hend with rfl | ⟨hfalse, -⟩
  · exact ⟨σ, σ', hfirst, hsecond⟩
  · exact absurd hfalse (by decide)

/-- **A comparison can turn out otherwise when it is repeated.**  At the last place stand two words
`1.0` and `1`, which are compared by their texts at first.  After that the word `1.0` is read as a
number, when it is compared with another one of the same text that had been compared with a number,
and so the two words are equal. -/
theorem equal_turns :
    let s := (Session.run [.make (.text "1.0" false) ⟨some "u", true⟩,
      .make (.text "1.0" false) ⟨some "v", true⟩,
      .make (.list [.register "u", .register "u", .register "v"]) ⟨some "x", true⟩,
      .make (.list [.register "v", .number (.ofNat 1), .text "1" false]) ⟨some "y", true⟩]
      {}).2.store
    (∀ x l, s.heap.body x = .list l → s.heap.Linked l.head) ∧ s.settled.Valid s.heap ∧
      s.heap.Live 6 ∧ s.heap.Live 12 ∧
      ∃ σ σ', (s.heap.equal false 6 12).run s.settled = (.ok false, σ) ∧
        (s.heap.equal false 6 12).run σ = (.ok true, σ') := by
  intro s
  have hlive : (s.heap.block? 6).isSome = true ∧ (s.heap.block? 12).isSome = true := by
    decide +kernel
  have hfirst : ((s.heap.equal false 6 12).run s.settled).1 = .ok false := by decide +kernel
  have hsecond : ((s.heap.equal false 6 12).run
      ((s.heap.equal false 6 12).run s.settled).2).1 = .ok true := by
    decide +kernel
  exact ⟨fun x l hl => (Session.measured_run (by simp [Command.acts]) x l hl).1,
    (Session.backed_run _).valid,
    Option.isSome_iff_exists.mp hlive.1, Option.isSome_iff_exists.mp hlive.2,
    _, _, Prod.ext hfirst rfl, Prod.ext hsecond rfl⟩

end Heap

end SharedValues
