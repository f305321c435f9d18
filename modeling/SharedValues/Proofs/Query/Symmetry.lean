import SharedValues.Proofs.Query.Context
import SharedValues.Proofs.Query.Legible
import SharedValues.Proofs.Word.Bank

/-!
# Comparing the other way round

A comparison treats its two sides differently: it asks the left word first whether it is a number,
and it reads the number of the other one.  Still nobody can tell which side a value was on, neither
from the answer nor from the words afterwards.  The comparison of two words tries the one that is
not known to be a number, whichever side it is on, so the two comparisons of all the pairs that
follow start from the same words; and the trail of one of them is the trail of the other with its
sides exchanged.

What there is to say of the sides does not depend on how words are kept.  So the comparison is one
of words in any state here: a state that has the settled words, and one that has every word with its
caches.

## Main definitions

* `Heap.agreeWithin` — the comparison inside of a trail, words being compared in some way.
* `Heap.lazyEqual` — the comparison of values whose words have caches.
* `Trail.flip` — a trail with its sides exchanged.
* `SameEnd` — two comparisons end with the same answer in the same state.
* `EndAlike` — two steps do so, or both break off in the same state.
* `Tracks` — a step in one state ends as one in another, as far as the states are related.

## Main results

* `Bank.equal_exchange`, `Heap.run_wordsEqual_comm` — words can be exchanged.
* `Heap.endAlike_agreeWithin_flip` — so can all values, inside of a trail.
* `Heap.tracks_lazyEqual` — words with caches are compared as words without.
* `Heap.equal_comm` — values can be exchanged, and their words are left with the same caches.
-/

namespace SharedValues

/-! ### Numbers and texts -/

theorem Binary64.equals_comm (x y : Binary64) : x.equals y = y.equals x := by
  unfold equals
  rw [Bool.and_comm (!x.isNaN), Bool.and_comm x.isZero, BEq.comm (a := x)]

namespace Word

theorem sameNumber_comm (v w : Word) : v.sameNumber w = w.sameNumber v := by
  rw [sameNumber, sameNumber, Binary64.equals_comm, Bool.and_comm v.number?.isSome]

theorem sameText_comm (ignoreCase : Bool) (v w : Word) :
    sameText ignoreCase v w = sameText ignoreCase w v := by
  unfold sameText
  rw [BEq.comm (a := v.raw), BEq.comm (a := Text.upperCase v.raw)]

end Word

namespace Trail

/-- A trail with its sides exchanged. -/
def flip (t : Trail) : Trail := t.map Prod.swap

theorem level_flip_left (t : Trail) (y : Addr) :
    t.flip.findIdx? (·.1 == y) = t.findIdx? (·.2 == y) := by
  rw [flip, List.findIdx?_map]
  rfl

theorem level_flip_right (t : Trail) (x : Addr) :
    t.flip.findIdx? (·.2 == x) = t.findIdx? (·.1 == x) := by
  rw [flip, List.findIdx?_map]
  rfl

end Trail

/-! ### Words that are settled already -/

namespace Settled

/-- A settled word is not settled again. -/
theorem insert_of_contains {σ : Settled} {a : Addr} (ha : σ.contains a = true) :
    σ.insert a = σ := by
  have hbits : ∀ i, (σ.insert a).bits.testBit i = σ.bits.testBit i := by
    intro i
    have hi := contains_insert σ a i
    by_cases hai : a = i
    · subst hai
      exact (contains_insert_self σ a).trans ha.symm
    · simpa [contains, hai] using hi
  exact congrArg Settled.mk (Nat.eq_of_testBit_eq hbits)

/-- A word that is treated as a number has nothing left to be settled. -/
theorem asked_of_isNumeric {σ : Settled} {a : Addr} {w : Word}
    (hw : w.isNumeric (σ.contains a) = true) : σ.asked a w = σ := by
  rw [Word.isNumeric, Bool.or_eq_true] at hw
  unfold asked
  split
  · next htext =>
    refine insert_of_contains (hw.resolve_right ?_)
    simp_all
  · rfl

end Settled

/-! ### Words with caches -/

namespace Bank

variable {bank : Bank} {a b : Addr}

/-- A word that is known to be a number has nothing to find out. -/
theorem ask_numberValue (ha : (bank a).freshness ≠ .text) :
    bank.ask a LazyWord.numberValue = ((bank a).number, bank) := by
  have hnumber : (bank a).numberValue = ((bank a).number, bank a) := by
    rw [LazyWord.numberValue, if_neg fun h => ha h.1]
  rw [ask, hnumber]
  exact congrArg _ (Function.update_eq_self ..)

theorem ask_converts (ha : (bank a).freshness ≠ .text) :
    bank.ask a LazyWord.converts = (true, bank) := by
  have hconverts : (bank a).converts = (true, bank a) := by
    rw [LazyWord.converts, LazyWord.numberValue, if_neg fun h => ha h.1]
    exact Prod.ext (bne_iff_ne.mpr ha) rfl
  rw [ask, hconverts]
  exact congrArg _ (Function.update_eq_self ..)

/-- **Words with caches can be exchanged** in a comparison: it has the same answer, and finds out
the same about both of them. -/
theorem equal_exchange (ignoreCase : Bool) (hab : a ≠ b) (bank : Bank) :
    bank.equal ignoreCase a b = bank.equal ignoreCase b a := by
  unfold Bank.equal
  by_cases ha : (bank a).freshness = .text <;> by_cases hb : (bank b).freshness = .text
  · -- two texts are told, and nothing that is found out about one matters to the other
    rw [if_neg (not_not.mpr ha), if_neg (not_not.mpr hb), if_neg (not_not.mpr hb),
      if_neg (not_not.mpr ha)]
    simp only [ask, Function.update_of_ne hab, Function.update_of_ne hab.symm]
    rw [Function.update_comm hab, BEq.comm (a := (bank a).rawValue.1),
      BEq.comm (a := Text.upperCase (bank a).rawValue.1)]
  · -- only the first one is a text, and it is the one that is tried
    rw [if_neg (not_not.mpr ha), if_pos hb, if_pos hb]
    simp only [Binary64.equals_comm (bank b).number]
  · rw [if_pos ha, if_neg (not_not.mpr hb), if_pos ha]
    simp only [Binary64.equals_comm (bank a).number]
  · -- both are numbers, and nothing is found out
    rw [if_pos ha, if_pos hb, ask_numberValue ha, ask_numberValue hb]
    dsimp only
    rw [ask_converts ha, ask_converts hb, Binary64.equals_comm]

/-- Whether two words are equal, as a step of a comparison of values. -/
def wordsEqual {ε : Type} (ignoreCase : Bool) (a : Addr) (_ : Word) (b : Addr) (_ : Word) :
    ExceptT ε (StateM Bank) Bool :=
  fun bank =>
    let (r, bank) := bank.equal ignoreCase a b
    (.ok r, bank)

theorem run_wordsEqual {ε : Type} (ignoreCase : Bool) (a b : Addr) (v w : Word) (bank : Bank) :
    (wordsEqual ignoreCase a v b w : ExceptT ε (StateM Bank) Bool).run bank =
      (.ok (bank.equal ignoreCase a b).1, (bank.equal ignoreCase a b).2) := rfl

end Bank

/-! ### Comparisons of words in any state -/

section Agree

variable {ε S T α β : Type}

/-- The word at an address. -/
def Heap.wordAt (h : Heap) (a : Addr) : Word := (h.body a).word?.getD (.text "" false)

/-- Whether the values at two addresses are equal, inside a trail and within `n` levels, words being
compared by `words`. -/
def Heap.agreeWithin (h : Heap)
    (words : Addr → Word → Addr → Word → ExceptT (Fault × Trail) (StateM S) Bool) :
    ℕ → Trail → Addr → Addr → ExceptT (Fault × Trail) (StateM S) Bool
  | 0, trail, _, _ => throw (.endless, trail)
  | n + 1, trail, x, y =>
    if h.kind x ≠ h.kind y then return false
    else if x = y then return true
    else
      match h.body x with
      | .nothing => return true
      | .word v => words x v y (h.wordAt y)
      | .list _ | .array .. =>
        if trail.findIdx? (·.1 == x) ≠ trail.findIdx? (·.2 == y) then return false
        else if (trail.findIdx? (·.1 == x)).isSome then return true
        else if h.extent x ≠ h.extent y then return false
        else
          let v := h.elements x
          let w := h.elements y
          walksEqual (h.agreeWithin words n ((x, y) :: trail)) (·, (x, y) :: trail)
            v.found v.fault? w.found w.fault?
      | _ => return false

/-- The ends of two comparisons are the same: their answers, and the states, in which `I` holds. -/
structure SameEnd (I : S → Prop) (r r' : Bool) (s s' : S) : Prop where
  /-- The answers are the same. -/
  answer_eq : r = r'
  /-- The states are the same. -/
  state_eq : s = s'
  /-- The states are valid. -/
  valid : I s

/-- **Two steps end alike**: with one answer and in one state, in which `I` holds, or in one state
and each with a fault in `E`. -/
inductive AlikeEnds (I : S → Prop) (E : ε → Prop) : Except ε α × S → Except ε α × S → Prop
  | ok {a : α} {t : S} (hvalid : I t) : AlikeEnds I E (.ok a, t) (.ok a, t)
  | error {e f : ε} {t : S} (hleft : E e) (hright : E f) : AlikeEnds I E (.error e, t) (.error f, t)

/-- From a state, two steps end alike. -/
def EndAlike (I : S → Prop) (E : ε → Prop) (p q : ExceptT ε (StateM S) α) (s : S) : Prop :=
  AlikeEnds I E (p.run s) (q.run s)

section EndAlike

variable {I : S → Prop} {E : ε → Prop} {p q : ExceptT ε (StateM S) α} {s : S}

theorem endAlike_pure (hs : I s) (a : α) :
    EndAlike I E (pure a : ExceptT ε (StateM S) α) (pure a) s := .ok hs

theorem endAlike_throw {e f : ε} (he : E e) (hf : E f) :
    EndAlike I E (throw e : ExceptT ε (StateM S) α) (throw f) s := .error he hf

theorem EndAlike.bind {f g : α → ExceptT ε (StateM S) β} (hpq : EndAlike I E p q s)
    (hfg : ∀ a t, I t → EndAlike I E (f a) (g a) t) : EndAlike I E (p >>= f) (q >>= g) s := by
  unfold EndAlike at hpq ⊢
  rw [run_bind, run_bind]
  generalize p.run s = r at hpq ⊢
  generalize q.run s = r' at hpq ⊢
  cases hpq with
  | ok hvalid => exact hfg _ _ hvalid
  | error hleft hright => exact .error hleft hright

theorem EndAlike.adapt {ε' : Type} {E' : ε' → Prop} (hpq : EndAlike I E p q s) (f : ε → ε')
    (hf : ∀ e, E e → E' (f e)) : EndAlike I E' (p.adapt f) (q.adapt f) s := by
  have hadapt : ∀ r : ExceptT ε (StateM S) α,
      (r.adapt f).run s = ((r.run s).1.mapError f, (r.run s).2) := fun _ => rfl
  unfold EndAlike at hpq ⊢
  rw [hadapt, hadapt]
  generalize p.run s = r at hpq ⊢
  generalize q.run s = r' at hpq ⊢
  cases hpq with
  | ok hvalid => exact .ok hvalid
  | error hleft hright => exact .error (hf _ hleft) (hf _ hright)

theorem endAlike_of_both {p q : ExceptT ε (StateM S) Bool} (hpq : Both p q s s (SameEnd I)) :
    EndAlike I E p q s := by
  obtain ⟨a, t, b, u, hp, hq, rfl, rfl, hvalid⟩ := hpq
  unfold EndAlike
  rw [hp, hq]
  exact .ok hvalid

/-- Without faults both steps have results. -/
theorem EndAlike.both {p q : ExceptT ε (StateM S) Bool} (hpq : EndAlike I E p q s)
    (hE : ∀ e, ¬E e) : Both p q s s (SameEnd I) := by
  unfold EndAlike at hpq
  cases hp : p.run s with | mk r t =>
  cases hq : q.run s with | mk r' t' =>
  rw [hp, hq] at hpq
  cases hpq with
  | ok hvalid => exact ⟨_, _, _, _, hp, hq, rfl, rfl, hvalid⟩
  | error hleft _ => exact absurd hleft (hE _)

end EndAlike

/-- **A step tracks another one**: from states that are related, both end alike and in states that
are related. -/
def Tracks (R : S → T → Prop) (p : ExceptT ε (StateM S) α) (q : ExceptT ε (StateM T) α) : Prop :=
  ∀ s t, R s t → (p.run s).1 = (q.run t).1 ∧ R (p.run s).2 (q.run t).2

variable {R : S → T → Prop} {p : ExceptT ε (StateM S) α} {q : ExceptT ε (StateM T) α}

theorem tracks_pure (a : α) :
    Tracks R (pure a : ExceptT ε (StateM S) α) (pure a : ExceptT ε (StateM T) α) :=
  fun _ _ h => ⟨rfl, h⟩

theorem tracks_throw (e : ε) :
    Tracks R (throw e : ExceptT ε (StateM S) α) (throw e : ExceptT ε (StateM T) α) :=
  fun _ _ h => ⟨rfl, h⟩

theorem Tracks.bind {f : α → ExceptT ε (StateM S) β} {g : α → ExceptT ε (StateM T) β}
    (hpq : Tracks R p q) (hfg : ∀ a, Tracks R (f a) (g a)) : Tracks R (p >>= f) (q >>= g) := by
  intro s t hst
  obtain ⟨hend, hstate⟩ := hpq s t hst
  rw [run_bind, run_bind]
  rcases hs : p.run s with ⟨e | a, s'⟩
  all_goals
    rcases ht : q.run t with ⟨e' | b, t'⟩
    all_goals rw [hs, ht] at hend hstate
  · obtain rfl := Except.error.inj hend
    exact ⟨rfl, hstate⟩
  · exact absurd hend (by simp)
  · exact absurd hend (by simp)
  · obtain rfl := Except.ok.inj hend
    exact hfg a s' t' hstate

theorem Tracks.adapt {ε' : Type} (hpq : Tracks R p q) (f : ε → ε') :
    Tracks R (p.adapt f) (q.adapt f) :=
  fun s t hst => (hpq s t hst).imp_left (congrArg (Except.mapError f))

end Agree

namespace Heap

variable {h : Heap} {σ : Settled} {ignoreCase : Bool} {a b x y : Addr} {v w : Word} {t : Trail}
  {n : ℕ} {ε : Type}

section Agree

variable {S T : Type} {I : S → Prop} {s : S}
  {words : Addr → Word → Addr → Word → ExceptT (Fault × Trail) (StateM S) Bool}

theorem wordAt_of_body (ha : h.body a = .word w) : h.wordAt a = w := by
  rw [wordAt, ha]
  rfl

theorem agreeWithin_of_kind_ne (hkind : h.kind x ≠ h.kind y) :
    h.agreeWithin words (n + 1) t x y = pure false := by
  rw [agreeWithin, if_pos hkind]

theorem agreeWithin_self : h.agreeWithin words (n + 1) t x x = pure true := by
  rw [agreeWithin, if_neg (not_not.mpr rfl), if_pos rfl]

/-- Two different words are compared as words. -/
theorem agreeWithin_of_words (hx : h.body x = .word v) (hy : h.body y = .word w) (hne : x ≠ y) :
    h.agreeWithin words (n + 1) t x y = words x v y w := by
  have hkind : h.kind x = h.kind y := by rw [kind_of_word hx, kind_of_word hy]
  rw [agreeWithin, if_neg (not_not.mpr hkind), if_neg hne, hx]
  dsimp only
  rw [wordAt_of_body hy]

theorem agreeWithin_of_sequence (hx : h.IsSequence x) (hkind : h.kind x = h.kind y) (hne : x ≠ y) :
    h.agreeWithin words (n + 1) t x y =
      if t.findIdx? (·.1 == x) ≠ t.findIdx? (·.2 == y) then pure false
      else if (t.findIdx? (·.1 == x)).isSome then pure true
      else if h.extent x ≠ h.extent y then pure false
      else walksEqual (h.agreeWithin words n ((x, y) :: t)) (·, (x, y) :: t)
        (h.elements x).found (h.elements x).fault? (h.elements y).found (h.elements y).fault? := by
  rw [agreeWithin, if_neg (not_not.mpr hkind), if_neg hne]
  unfold IsSequence kind at hx
  revert hx
  cases h.body x <;> simp [Body.kind]

/-- Of two different values of one kind that are neither words nor sequences, both are nothing or
they differ. -/
theorem agreeWithin_of_plain (hkind : h.kind x = h.kind y) (hne : x ≠ y) (hword : h.kind x ≠ .word)
    (hseq : ¬h.IsSequence x) :
    h.agreeWithin words (n + 1) t x y = pure (h.kind x == .nothing) := by
  rw [agreeWithin, if_neg (not_not.mpr hkind), if_neg hne]
  unfold IsSequence kind at *
  revert hkind hword hseq
  cases h.body x with
  | word | list | array => simp [Body.kind]
  | nothing | cell | node | procedure | error => intros; rfl

/-- A comparison is one of settled words. -/
theorem equalWithin_eq_agreeWithin (h : Heap) (ignoreCase : Bool) (n : ℕ) :
    h.equalWithin ignoreCase n = h.agreeWithin (Query.wordsEqual ignoreCase) n := by
  induction n with
  | zero => rfl
  | succ n ih =>
    funext t x y
    rw [equalWithin, agreeWithin, ih]
    split
    · rfl
    next hkind =>
    split
    · rfl
    -- the left one tells what both of them are
    unfold wordAt
    unfold kind at hkind
    revert hkind
    cases h.body x <;> cases h.body y <;> simp [Body.kind, Body.word?]

/-- A fault of a walk that broke off: there is a list whose chain is not made of cells. -/
def Breaks (h : Heap) (e : Fault) : Prop :=
  (∃ k, e = .violated (.kindMismatch .cell k)) ∧ ∃ x l, h.body x = .list l ∧ ¬h.Linked l.head

theorem breaks_of_elements {e : Fault} (he : (h.elements x).fault? = some e) : h.Breaks e := by
  constructor
  · obtain ⟨k, -, rfl⟩ := Option.map_eq_some_iff.mp he
    exact ⟨k, rfl⟩
  · by_contra hnone
    push Not at hnone
    rw [fault?_elements (hnone x)] at he
    exact absurd he (by simp)

variable {E : ε → Prop}

/-- **The elements are compared in the same order**, whichever side they are on, and where one of
the walks breaks off, both comparisons do. -/
theorem endAlike_walksEqual_flip {same same' : Addr → Addr → ExceptT ε (StateM S) Bool}
    {halt halt' : Fault → ε} {xs ys : List Addr} {f g : Option Fault}
    (hsame : ∀ x ∈ xs, ∀ y ∈ ys, ∀ s, I s → EndAlike I E (same x y) (same' y x) s)
    (hf : ∀ e ∈ f, E (halt e) ∧ E (halt' e)) (hg : ∀ e ∈ g, E (halt e) ∧ E (halt' e)) (hs : I s) :
    EndAlike I E (walksEqual same halt xs f ys g) (walksEqual same' halt' ys g xs f) s := by
  induction xs generalizing ys s with
  | nil =>
    cases f with
    | some e =>
      -- the other walk may break off here as well, and with another fault
      cases ys with
      | cons y ys => cases g <;> exact endAlike_throw (hf e rfl).1 (hf e rfl).2
      | nil =>
        cases g with
        | none => exact endAlike_throw (hf e rfl).1 (hf e rfl).2
        | some e' => exact endAlike_throw (hf e rfl).1 (hg e' rfl).2
    | none =>
      cases ys with
      | cons y ys => cases g <;> exact endAlike_pure hs _
      | nil =>
        cases g with
        | none => exact endAlike_pure hs _
        | some e => exact endAlike_throw (hg e rfl).1 (hg e rfl).2
  | cons x xs ih =>
    cases ys with
    | nil =>
      cases g with
      | none => cases f <;> exact endAlike_pure hs _
      | some e => cases f <;> exact endAlike_throw (hg e rfl).1 (hg e rfl).2
    | cons y ys =>
      rw [walksEqual, walksEqual]
      refine (hsame x List.mem_cons_self y List.mem_cons_self s hs).bind fun r t ht => ?_
      cases r with
      | true =>
        exact ih (fun x hx y hy => hsame x (List.mem_cons_of_mem _ hx) y
          (List.mem_cons_of_mem _ hy)) ht
      | false => exact endAlike_pure ht _

/-- **Values can be exchanged** in a comparison inside of a trail, if words can be exchanged and the
sides of the trail are exchanged as well.  Where the chain of a list breaks off, it does so on
either side. -/
theorem endAlike_agreeWithin_flip (hwords : ∀ x y v w s, x ≠ y → h.body x = .word v →
      h.body y = .word w → I s →
      EndAlike I (fun e => h.Breaks e.1) (words x v y w) (words y w x v) s)
    (ht : h.Fits n t) (x y : Addr) (hs : I s) :
    EndAlike I (fun e => h.Breaks e.1) (h.agreeWithin words n t x y)
      (h.agreeWithin words n t.flip y x) s := by
  induction n generalizing t x y s with
  | zero => exact absurd ht not_fits_zero
  | succ n ih =>
    by_cases hkind : h.kind x = h.kind y
    swap
    · rw [agreeWithin_of_kind_ne hkind, agreeWithin_of_kind_ne (Ne.symm hkind)]
      exact endAlike_pure hs _
    by_cases hxy : x = y
    · subst hxy
      rw [agreeWithin_self, agreeWithin_self]
      exact endAlike_pure hs _
    by_cases hx : h.IsSequence x
    · have hy : h.IsSequence y := by rwa [IsSequence, ← hkind]
      rw [agreeWithin_of_sequence hx hkind hxy,
        agreeWithin_of_sequence hy hkind.symm (Ne.symm hxy), t.level_flip_left,
        t.level_flip_right]
      by_cases hlevel : t.findIdx? (·.1 == x) = t.findIdx? (·.2 == y)
      swap
      · rw [if_pos hlevel, if_pos (Ne.symm hlevel)]
        exact endAlike_pure hs _
      rw [if_neg (not_not.mpr hlevel), if_neg (not_not.mpr hlevel.symm), ← hlevel]
      split
      · exact endAlike_pure hs _
      next hnew =>
      by_cases hextent : h.extent x = h.extent y
      swap
      · rw [if_pos hextent, if_pos (Ne.symm hextent)]
        exact endAlike_pure hs _
      rw [if_neg (not_not.mpr hextent), if_neg (not_not.mpr hextent.symm)]
      -- the pair is entered on both sides, and the two trails stay each other's
      have hinner := ht.enter (y := y) hx.live
        (Option.not_isSome_iff_eq_none.mp hnew)
      have hbreaks : ∀ z, ∀ e ∈ (h.elements z).fault?, h.Breaks e ∧ h.Breaks e := fun z e he =>
        ⟨breaks_of_elements he, breaks_of_elements he⟩
      exact endAlike_walksEqual_flip (fun c _ d _ s hs => ih hinner c d hs) (hbreaks x)
        (hbreaks y) hs
    by_cases hword : h.kind x = .word
    · obtain ⟨v, hv⟩ := exists_word_of_kind hword
      obtain ⟨w, hw⟩ := exists_word_of_kind (hkind ▸ hword)
      rw [agreeWithin_of_words hv hw hxy, agreeWithin_of_words hw hv (Ne.symm hxy)]
      exact hwords x y v w s hxy hv hw hs
    · have hy : ¬h.IsSequence y := by rwa [IsSequence, ← hkind]
      rw [agreeWithin_of_plain hkind hxy hword hx,
        agreeWithin_of_plain hkind.symm (Ne.symm hxy) (hkind ▸ hword) hy, hkind]
      exact endAlike_pure hs _

/-- If the chains of all lists are made of cells, neither comparison fails. -/
theorem both_agreeWithin_flip (hwords : ∀ x y v w s, x ≠ y → h.body x = .word v →
      h.body y = .word w → I s → Both (words x v y w) (words y w x v) s s (SameEnd I))
    (hlists : ∀ x l, h.body x = .list l → h.Linked l.head) (ht : h.Fits n t) (x y : Addr)
    (hs : I s) :
    Both (h.agreeWithin words n t x y) (h.agreeWithin words n t.flip y x) s s (SameEnd I) := by
  have hnone : ∀ e : Fault × Trail, ¬h.Breaks e.1 := by
    intro e hbreaks
    obtain ⟨-, x, l, hx, hbroken⟩ := hbreaks
    exact hbroken (hlists x l hx)
  refine (endAlike_agreeWithin_flip ?_ ht x y hs).both hnone
  exact fun x y v w s hxy hv hw hs => endAlike_of_both (hwords x y v w s hxy hv hw hs)

variable {R : S → T → Prop}
  {words' : Addr → Word → Addr → Word → ExceptT (Fault × Trail) (StateM T) Bool}

theorem tracks_walksEqual {same : Addr → Addr → ExceptT ε (StateM S) Bool}
    {same' : Addr → Addr → ExceptT ε (StateM T) Bool}
    (hsame : ∀ x y, Tracks R (same x y) (same' x y)) (halt : Fault → ε) (xs ys : List Addr)
    (f g : Option Fault) :
    Tracks R (walksEqual same halt xs f ys g) (walksEqual same' halt xs f ys g) := by
  induction xs generalizing ys with
  | nil =>
    cases f with
    | some f => exact tracks_throw _
    | none =>
      cases ys with
      | cons y ys => exact tracks_pure _
      | nil => cases g <;> [exact tracks_pure _; exact tracks_throw _]
  | cons x xs ih =>
    cases ys with
    | nil => cases g <;> [exact tracks_pure _; exact tracks_throw _]
    | cons y ys =>
      rw [walksEqual, walksEqual]
      refine (hsame x y).bind fun r => ?_
      cases r with
      | true => exact ih ys
      | false => exact tracks_pure _

/-- **Comparisons track each other** if the comparisons of words do. -/
theorem tracks_agreeWithin (hwords : ∀ x y v w, h.body x = .word v → h.body y = .word w →
      Tracks R (words x v y w) (words' x v y w)) (n : ℕ) (t : Trail) (x y : Addr) :
    Tracks R (h.agreeWithin words n t x y) (h.agreeWithin words' n t x y) := by
  induction n generalizing t x y with
  | zero => exact tracks_throw _
  | succ n ih =>
    -- the branches of the comparison are decided by the heap, so both go the same way
    by_cases hkind : h.kind x = h.kind y
    swap
    · rw [agreeWithin_of_kind_ne hkind, agreeWithin_of_kind_ne hkind]
      exact tracks_pure _
    by_cases hxy : x = y
    · subst hxy
      rw [agreeWithin_self, agreeWithin_self]
      exact tracks_pure _
    by_cases hx : h.IsSequence x
    · rw [agreeWithin_of_sequence hx hkind hxy, agreeWithin_of_sequence hx hkind hxy]
      split_ifs
      · exact tracks_pure _
      · exact tracks_pure _
      · exact tracks_pure _
      -- the elements are compared by the same walk, whatever the state behind it
      · exact tracks_walksEqual (ih _) _ _ _ _ _
    by_cases hword : h.kind x = .word
    · obtain ⟨v, hv⟩ := exists_word_of_kind hword
      obtain ⟨w, hw⟩ := exists_word_of_kind (hkind ▸ hword)
      rw [agreeWithin_of_words hv hw hxy, agreeWithin_of_words hv hw hxy]
      exact hwords x y v w hv hw
    · rw [agreeWithin_of_plain hkind hxy hword hx, agreeWithin_of_plain hkind hxy hword hx]
      exact tracks_pure _

end Agree

/-- Two different words are compared as words. -/
theorem equalWithin_of_words (hx : h.body x = .word v) (hy : h.body y = .word w) (hne : x ≠ y) :
    h.equalWithin ignoreCase (n + 1) t x y = Query.wordsEqual ignoreCase x v y w := by
  rw [equalWithin_eq_agreeWithin, agreeWithin_of_words hx hy hne]

/-- Of two different values of one kind that are neither words nor sequences, both are nothing or
they differ. -/
theorem equalWithin_of_plain (hkind : h.kind x = h.kind y) (hne : x ≠ y) (hword : h.kind x ≠ .word)
    (hseq : ¬h.IsSequence x) :
    h.equalWithin ignoreCase (n + 1) t x y = pure (h.kind x == .nothing) := by
  rw [equalWithin_eq_agreeWithin, agreeWithin_of_plain hkind hne hword hseq]

/-! ### Settled words -/

/-- **Words can be exchanged** in a comparison: it has the same answer and settles the same word. -/
theorem run_wordsEqual_comm (hσ : σ.Valid h) (ha : h.body a = .word v) (hb : h.body b = .word w) :
    (Query.wordsEqual ignoreCase a v b w : Query ε Bool).run σ =
      (Query.wordsEqual ignoreCase b w a v).run σ := by
  rw [run_wordsEqual hσ ha hb, run_wordsEqual hσ hb ha, v.sameNumber_comm w,
    Word.sameText_comm ignoreCase v w]
  by_cases hv : v.isNumeric (σ.contains a) = true <;>
    by_cases hw : w.isNumeric (σ.contains b) = true
  · -- both are treated as numbers, and nothing is settled
    rw [if_pos hv, if_pos hw, Settled.asked_of_isNumeric hv, Settled.asked_of_isNumeric hw]
  · rw [if_pos hv, if_neg hw, if_pos hv]
  · rw [if_neg hv, if_pos hw, if_pos hw]
  · rw [if_neg hv, if_neg hw, if_neg hw, if_neg hv]

theorem both_wordsEqual_flip (ignoreCase : Bool) (hσ : σ.Valid h) (ha : h.body a = .word v)
    (hb : h.body b = .word w) :
    Both (Query.wordsEqual ignoreCase a v b w : Query ε Bool) (Query.wordsEqual ignoreCase b w a v)
      σ σ (SameEnd (Settled.Valid · h)) := by
  have hwords : Both (Query.wordsEqual ignoreCase a v b w : Query ε Bool) _ σ σ _ :=
    both_wordsEqual hσ hσ (le_refl σ) ha hb
  obtain ⟨r, σ', _, _, hrun, -, hend⟩ := hwords
  exact ⟨r, σ', r, σ', hrun, by rw [← run_wordsEqual_comm hσ ha hb, hrun], rfl, rfl, hend.valid⟩

/-- **Values can be exchanged** in a comparison of their own, even if the chain of a list breaks off
somewhere below them. -/
theorem endAlike_equal (hσ : σ.Valid h) (ignoreCase : Bool) (x y : Addr) :
    EndAlike (Settled.Valid · h) h.Breaks (h.equal ignoreCase x y) (h.equal ignoreCase y x) σ := by
  have hflip : EndAlike (Settled.Valid · h) (fun e : Fault × Trail => h.Breaks e.1)
      (h.equalOn ignoreCase [] x y) (h.equalOn ignoreCase [] y x) σ := by
    unfold equalOn
    rw [equalWithin_eq_agreeWithin]
    exact endAlike_agreeWithin_flip (fun _ _ _ _ _ _ hv hw hσ =>
      endAlike_of_both (both_wordsEqual_flip _ hσ hv hw)) (fits_nil h) x y hσ
  exact hflip.adapt Prod.fst fun _ he => he

/-! ### Words with caches in a heap -/

/-- Whether the values at two addresses are equal, their words having caches. -/
def lazyEqual (h : Heap) (ignoreCase : Bool) (x y : Addr) : ExceptT Fault (StateM Bank) Bool :=
  (h.agreeWithin (Bank.wordsEqual ignoreCase) (h.blocks.size + 2) [] x y).adapt Prod.fst

theorem tracks_wordsEqual (ignoreCase : Bool) (ha : h.body a = .word v) (hb : h.body b = .word w) :
    Tracks (fun bank σ => bank.StandsFor h.wordAt σ)
      (Bank.wordsEqual ignoreCase a v b w : ExceptT ε (StateM Bank) Bool)
      (Query.wordsEqual ignoreCase a v b w) := by
  intro bank σ hbank
  obtain ⟨hr, hend⟩ := hbank.equal ignoreCase a b
  rw [WordCall.reply, wordAt_of_body ha, wordAt_of_body hb, Reply.flag.injEq] at hr
  rw [WordCall.settle, wordAt_of_body ha, wordAt_of_body hb] at hend
  rw [Bank.run_wordsEqual, Query.run_wordsEqual, hr]
  split_ifs at hend ⊢
  · exact ⟨rfl, hend⟩
  · exact ⟨rfl, hend⟩
  · exact ⟨rfl, hend⟩

/-- **Values whose words have caches are compared as values whose words have none.** -/
theorem tracks_lazyEqual (h : Heap) (ignoreCase : Bool) (x y : Addr) :
    Tracks (fun bank σ => bank.StandsFor h.wordAt σ) (h.lazyEqual ignoreCase x y)
      (h.equal ignoreCase x y) := by
  unfold equal equalOn
  rw [equalWithin_eq_agreeWithin]
  exact (tracks_agreeWithin (fun _ _ _ _ => tracks_wordsEqual ignoreCase) _ [] x y).adapt Prod.fst

/-- Values whose words have caches can be exchanged, whatever is known of the words. -/
theorem both_lazyEqual_flip (hlists : ∀ x l, h.body x = .list l → h.Linked l.head)
    (ignoreCase : Bool) (x y : Addr) (bank : Bank) :
    Both (h.lazyEqual ignoreCase x y) (h.lazyEqual ignoreCase y x) bank bank
      (SameEnd fun _ => True) := by
  refine Both.adapt (both_agreeWithin_flip (fun a b v w bank hab _ _ _ => ?_) hlists (fits_nil h)
    x y trivial) Prod.fst
  have hflip := Bank.run_wordsEqual (ε := Fault × Trail) ignoreCase b a w v bank
  rw [← Bank.equal_exchange ignoreCase hab] at hflip
  exact ⟨_, _, _, _, Bank.run_wordsEqual .., hflip, rfl, rfl, trivial⟩

/-- **Equality is symmetric, effects included.**  In a heap whose lists are chained by cells, a
comparison and the one the other way round have the same answer, and the same words are settled
after them.  If the words are kept with caches, every word is left with the same caches. -/
theorem equal_comm (hlists : ∀ x l, h.body x = .list l → h.Linked l.head) (hσ : σ.Valid h)
    (ignoreCase : Bool) (x y : Addr) :
    ∃ r τ, (h.equal ignoreCase x y).run σ = (.ok r, τ) ∧
      (h.equal ignoreCase y x).run σ = (.ok r, τ) ∧
      ∀ bank : Bank, bank.StandsFor h.wordAt σ →
        ∃ bank' : Bank, (h.lazyEqual ignoreCase x y).run bank = (.ok r, bank') ∧
          (h.lazyEqual ignoreCase y x).run bank = (.ok r, bank') ∧ bank'.StandsFor h.wordAt τ := by
  -- the two directions end alike from the same caches; their fresh contexts are dropped at the end
  have hboth : Both (h.equal ignoreCase x y) (h.equal ignoreCase y x) σ σ
      (SameEnd (Settled.Valid · h)) := by
    unfold equal equalOn
    rw [equalWithin_eq_agreeWithin]
    exact (both_agreeWithin_flip (fun _ _ _ _ _ _ hv hw hσ => both_wordsEqual_flip _ hσ hv hw)
      hlists (fits_nil h) x y hσ).adapt Prod.fst
  obtain ⟨r, τ, _, _, hrun, hrun', rfl, rfl, -⟩ := hboth
  refine ⟨r, τ, hrun, hrun', fun bank hbank => ?_⟩
  -- in the lazy bank too, and there the two agree with those on settled words
  obtain ⟨r', bank', _, _, hlazy, hlazy', rfl, rfl, -⟩ :=
    both_lazyEqual_flip hlists ignoreCase x y bank
  obtain ⟨hend, hbank'⟩ := h.tracks_lazyEqual ignoreCase x y bank σ hbank
  rw [hlazy, hrun] at hend hbank'
  obtain rfl : r' = r := Except.ok.inj hend
  exact ⟨bank', hlazy, hlazy', hbank'⟩

/-- Two lists, each of which has a text where the other one has the number that it spells, are equal
either way, and both texts are found to be numbers then. -/
theorem texts_and_numbers_comm :
    let s := (Session.run [
      .make (.list [.text "1.0" false, .number (.ofNat 2)]) ⟨some "x", true⟩,
      .make (.list [.number (.ofNat 1), .text "2" false]) ⟨some "y", true⟩] {}).2.store
    (∀ x l, s.heap.body x = .list l → s.heap.Linked l.head) ∧ s.settled.Valid s.heap ∧
      ∃ τ, (s.heap.equal false 5 10).run s.settled = (.ok true, τ) ∧
        (s.heap.equal false 10 5).run s.settled = (.ok true, τ) ∧
        τ.contains 0 = true ∧ τ.contains 7 = true ∧
        ∃ bank : Bank,
          (s.heap.lazyEqual false 5 10).run (.ofWords s.heap.wordAt) = (.ok true, bank) ∧
          (s.heap.lazyEqual false 10 5).run (.ofWords s.heap.wordAt) = (.ok true, bank) ∧
          (bank 0).freshness = .clean ∧ (bank 7).freshness = .clean := by
  intro s
  have hlists : ∀ x l, s.heap.body x = .list l → s.heap.Linked l.head := fun x l hl =>
    (Session.measured_run (by simp [Command.acts]) x l hl).1
  have hvalid : s.settled.Valid s.heap := (Session.backed_run _).valid
  obtain ⟨r, τ, hrun, hrun', hbanks⟩ := equal_comm hlists hvalid false 5 10
  have hend : ((s.heap.equal false 5 10).run s.settled).1 = .ok true ∧
      ((s.heap.equal false 5 10).run s.settled).2.contains 0 = true ∧
      ((s.heap.equal false 5 10).run s.settled).2.contains 7 = true ∧ s.settled = {} ∧
      s.heap.body 0 = .word (.text "1.0" false) ∧ s.heap.body 7 = .word (.text "2" false) := by
    decide +kernel
  rw [hrun] at hend
  obtain ⟨hr, hleft, hright, hnone, hone, htwo⟩ := hend
  obtain rfl : r = true := Except.ok.inj hr
  -- before the comparison every word is as it was made
  have hmade : (Bank.ofWords s.heap.wordAt).StandsFor s.heap.wordAt s.settled := by
    rw [hnone]
    exact Bank.standsFor_ofWords _
  obtain ⟨bank, hlazy, hlazy', hbank⟩ := hbanks _ hmade
  refine ⟨hlists, hvalid, τ, hrun, hrun', hleft, hright, bank, hlazy, hlazy', ?_, ?_⟩
  · rw [(hbank 0).freshness_eq, hleft, wordAt_of_body hone]
    rfl
  · rw [(hbank 7).freshness_eq, hright, wordAt_of_body htwo]
    rfl

end Heap

end SharedValues
