import Mathlib.Data.List.TakeWhile
import SharedValues.Word

/-!
# Numerals and letter case

The number that a text spells does not depend on the case of its letters.  The characters of
numerals are ASCII characters and blanks, whose upper-case forms are one character long, and no
other character has an upper-case form among them.

## Main definitions

* `Numeral.isPart` — whether a character occurs in numerals, or in the blanks around them.

## Main results

* `number?_upperCase` — a text spells the same number as its upper-case form.
* `Word.number?_of_sameText` — words with the same text have the same number.
* `Word.equals_of_number?` — the number of a text equals itself.
-/

namespace SharedValues

/-! ### Letter case of single characters -/

namespace Text

variable {c : Char}

/-- What holds of all ASCII characters. -/
theorem forall_ascii {p : Char → Prop} (h : ∀ n : Fin 128, p (Char.ofNat n))
    (hc : c.toNat < 128) : p c := by
  simpa using h ⟨c.toNat, hc⟩

/-- Characters outside ASCII are no small letters of it. -/
theorem toUpper_of_le (hc : 128 ≤ c.toNat) : c.toUpper = c := by
  refine dif_neg fun h => ?_
  have hz : c.toNat ≤ 122 := UInt32.le_iff_toNat_le.mp h.2
  omega

/-- Stand-ins are control characters. -/
theorem reveal_of_le (hc : 32 ≤ c.toNat) : reveal c = c := by
  have hnone : standIns.lookup c = none := by
    rw [List.lookup_eq_none_iff]
    intro p hp
    have hlow : ∀ q ∈ standIns, q.1.toNat < 32 := by decide
    have := hlow p hp
    simp only [bne_iff_ne, ne_eq]
    rintro rfl
    omega
  rw [reveal, hnone, Option.getD_none]

/-- ASCII letters are no stand-ins, no blanks and no digits, in either case. -/
theorem toUpper_of_ascii (hc : c.toNat < 128) :
    reveal c.toUpper = (reveal c).toUpper ∧ isBlank c.toUpper = isBlank c ∧
      c.toUpper.isDigit = c.isDigit ∧ (c.isDigit = true → c.toUpper = c) :=
  forall_ascii (p := fun c => reveal c.toUpper = (reveal c).toUpper ∧
    isBlank c.toUpper = isBlank c ∧ c.toUpper.isDigit = c.isDigit ∧
      (c.isDigit = true → c.toUpper = c)) (by decide +kernel) hc

theorem reveal_toUpper (c : Char) : reveal c.toUpper = (reveal c).toUpper := by
  by_cases hc : c.toNat < 128
  · exact (toUpper_of_ascii hc).1
  · rw [toUpper_of_le (by omega), reveal_of_le (by omega), toUpper_of_le (by omega)]

theorem isBlank_toUpper (c : Char) : isBlank c.toUpper = isBlank c := by
  by_cases hc : c.toNat < 128
  · exact (toUpper_of_ascii hc).2.1
  · rw [toUpper_of_le (by omega)]

theorem isDigit_toUpper (c : Char) : c.toUpper.isDigit = c.isDigit := by
  by_cases hc : c.toNat < 128
  · exact (toUpper_of_ascii hc).2.2.1
  · rw [toUpper_of_le (by omega)]

theorem toUpper_of_isDigit (hdigit : c.isDigit = true) : c.toUpper = c := by
  by_cases hc : c.toNat < 128
  · exact (toUpper_of_ascii hc).2.2.2 hdigit
  · exact toUpper_of_le (by omega)

/-- Blanks at the ends are blanks in upper case. -/
theorem strip_map_toUpper (cs : List Char) :
    strip (cs.map Char.toUpper) = (strip cs).map Char.toUpper := by
  have hblank : isBlank ∘ Char.toUpper = isBlank := funext isBlank_toUpper
  simp only [strip, List.dropWhile_map, hblank, ← List.map_reverse]

/-- What is left of a text with blanks around it. -/
theorem forall_of_strip {p : Char → Prop} {cs : List Char} (hp : ∀ c, isBlank c = true → p c)
    (h : ∀ c ∈ strip cs, p c) : ∀ c ∈ cs, p c := by
  have hdrop : ∀ ds : List Char, (∀ c ∈ ds.dropWhile isBlank, p c) → ∀ c ∈ ds, p c := by
    intro ds hds c hc
    rw [← List.takeWhile_append_dropWhile (p := isBlank) (l := ds), List.mem_append] at hc
    rcases hc with hc | hc
    · exact hp c (List.mem_takeWhile_imp hc)
    · exact hds c hc
  apply hdrop cs
  intro c hc
  refine hdrop _ (fun d hd => h d ?_) c (List.mem_reverse.mpr hc)
  rwa [strip, List.mem_reverse]

end Text

/-! ### The characters of numerals -/

namespace Numeral

open Text

variable {c : Char} {cs : List Char}

/-- Whether a character occurs in numerals, or in the blanks around them. -/
def isPart (c : Char) : Bool := c.isDigit || ['+', '-', '.', 'e', 'E'].contains c || isBlank c

theorem isPart_of_isDigit (hc : c.isDigit = true) : isPart c = true := by simp [isPart, hc]

theorem isPart_of_isBlank (hc : isBlank c = true) : isPart c = true := by simp [isPart, hc]

/-- The digits at the front are parts. -/
theorem forall_of_takeDigits (h : ∀ c ∈ (takeDigits cs).2, isPart c = true) :
    ∀ c ∈ cs, isPart c = true := by
  intro c hc
  rw [← List.takeWhile_append_dropWhile (p := Char.isDigit) (l := cs), List.mem_append] at hc
  rcases hc with hc | hc
  · exact isPart_of_isDigit (List.mem_takeWhile_imp hc)
  · exact h c hc

/-- A sign is a part. -/
theorem forall_of_takeSign (h : ∀ c ∈ (takeSign cs).2, isPart c = true) :
    ∀ c ∈ cs, isPart c = true := by
  unfold takeSign at h
  split at h
  · exact List.forall_mem_cons.mpr ⟨by decide, h⟩
  · exact List.forall_mem_cons.mpr ⟨by decide, h⟩
  · exact h

/-- A point and the digits after it are parts. -/
theorem forall_of_takeFraction (h : ∀ c ∈ (takeFraction cs).2, isPart c = true) :
    ∀ c ∈ cs, isPart c = true := by
  unfold takeFraction at h
  split at h
  · exact List.forall_mem_cons.mpr ⟨by decide, forall_of_takeDigits h⟩
  · exact h

/-- An exponent consists of parts. -/
theorem forall_of_exponent? (h : (exponent? cs).isSome = true) : ∀ c ∈ cs, isPart c = true := by
  unfold exponent? at h
  split at h
  · simp
  split at h
  · next c cs he =>
    refine List.forall_mem_cons.mpr ⟨by rcases he with rfl | rfl <;> decide, ?_⟩
    refine forall_of_takeSign (forall_of_takeDigits ?_)
    -- nothing is left after the digits
    dsimp only at h
    split at h
    · simp at h
    · next hrest => simp_all
  · simp at h

/-- A numeral consists of parts. -/
theorem forall_of_parse? (h : (parse? cs).isSome = true) : ∀ c ∈ cs, isPart c = true := by
  unfold parse? at h
  dsimp only at h
  split at h
  · simp at h
  · rw [Option.isSome_map] at h
    exact forall_of_takeSign (forall_of_takeDigits (forall_of_takeFraction (forall_of_exponent? h)))

/-! ### Numerals in upper case -/

/-- The marks in a numeral are told apart in upper case, but for the case of an exponent. -/
theorem marks_of_ascii (hc : c.toNat < 128) :
    (['+', '-', '.'].all fun d => (c.toUpper == d) == (c == d)) = true ∧
      ((c.toUpper = 'e' ∨ c.toUpper = 'E') ↔ (c = 'e' ∨ c = 'E')) :=
  forall_ascii (p := fun c => (['+', '-', '.'].all fun d => (c.toUpper == d) == (c == d)) = true ∧
    ((c.toUpper = 'e' ∨ c.toUpper = 'E') ↔ (c = 'e' ∨ c = 'E'))) (by decide +kernel) hc

/-- Signs and points are no letters. -/
theorem toUpper_eq_iff {d : Char} (hd : d ∈ ['+', '-', '.']) : c.toUpper = d ↔ c = d := by
  by_cases hc : c.toNat < 128
  · have hsame := beq_iff_eq.mp (List.all_eq_true.mp (marks_of_ascii hc).1 d hd)
    rw [← beq_iff_eq, hsame, beq_iff_eq]
  · rw [toUpper_of_le (by omega)]

/-- The mark of an exponent may be of either case. -/
theorem toUpper_eq_mark : (c.toUpper = 'e' ∨ c.toUpper = 'E') ↔ (c = 'e' ∨ c = 'E') := by
  by_cases hc : c.toNat < 128
  · exact (marks_of_ascii hc).2
  · rw [toUpper_of_le (by omega)]

theorem takeSign_of_ne (hminus : c ≠ '-') (hplus : c ≠ '+') :
    takeSign (c :: cs) = (false, c :: cs) := by
  unfold takeSign
  split <;> simp_all

theorem takeFraction_of_ne (hpoint : c ≠ '.') : takeFraction (c :: cs) = ([], c :: cs) := by
  unfold takeFraction
  split <;> simp_all

theorem takeSign_map_toUpper (cs : List Char) :
    takeSign (cs.map Char.toUpper) = ((takeSign cs).1, (takeSign cs).2.map Char.toUpper) := by
  cases cs with
  | nil => rfl
  | cons c cs =>
    by_cases hminus : c = '-'
    · subst hminus
      rfl
    by_cases hplus : c = '+'
    · subst hplus
      rfl
    rw [takeSign_of_ne hminus hplus, List.map_cons,
      takeSign_of_ne (mt (toUpper_eq_iff (by decide)).mp hminus)
        (mt (toUpper_eq_iff (by decide)).mp hplus)]

theorem takeDigits_map_toUpper (cs : List Char) :
    takeDigits (cs.map Char.toUpper) = ((takeDigits cs).1, (takeDigits cs).2.map Char.toUpper) := by
  have hdigit : Char.isDigit ∘ Char.toUpper = Char.isDigit := funext isDigit_toUpper
  have hfixed : ∀ c ∈ cs.takeWhile Char.isDigit, c.toUpper = id c := fun c hc =>
    toUpper_of_isDigit (List.mem_takeWhile_imp hc)
  simp only [takeDigits, List.takeWhile_map, List.dropWhile_map, hdigit,
    List.map_congr_left hfixed, List.map_id]

theorem takeFraction_map_toUpper (cs : List Char) :
    takeFraction (cs.map Char.toUpper) =
      ((takeFraction cs).1, (takeFraction cs).2.map Char.toUpper) := by
  cases cs with
  | nil => rfl
  | cons c cs =>
    by_cases hpoint : c = '.'
    · subst hpoint
      exact takeDigits_map_toUpper cs
    · rw [takeFraction_of_ne hpoint, List.map_cons,
        takeFraction_of_ne (mt (toUpper_eq_iff (by decide)).mp hpoint)]

theorem exponent?_map_toUpper (cs : List Char) :
    exponent? (cs.map Char.toUpper) = exponent? cs := by
  cases cs with
  | nil => rfl
  | cons c cs =>
    simp only [List.map_cons, exponent?, toUpper_eq_mark, takeSign_map_toUpper,
      takeDigits_map_toUpper, List.isEmpty_map]

/-- A numeral in upper case is the same numeral. -/
theorem parse?_map_toUpper (cs : List Char) : parse? (cs.map Char.toUpper) = parse? cs := by
  simp only [parse?, takeSign_map_toUpper, takeDigits_map_toUpper, takeFraction_map_toUpper,
    exponent?_map_toUpper]

/-- A numeral stands for a number. -/
theorem isNaN_value (n : Numeral) : n.value.isNaN = false := by
  have hplace : ∀ negative place, (Binary64.ofPlace negative place).isNaN = false := by
    intro negative place
    exact decide_eq_false (not_lt.mpr (min_le_right _ _))
  unfold value
  dsimp only
  split
  · simp [Binary64.isNaN, Binary64.infinitePlace]
  split
  · exact hplace _ _
  split <;> exact hplace _ _

end Numeral

/-! ### Texts in upper case -/

namespace Text

open Numeral

variable {c : Char} {cs : List Char}

/-- The blanks outside ASCII. -/
def wideBlanks : List ℕ :=
  [0x85, 0xA0, 0x1680, 0x2000, 0x2001, 0x2002, 0x2003, 0x2004, 0x2005, 0x2006, 0x2007, 0x2008,
    0x2009, 0x200A, 0x2028, 0x2029, 0x202F, 0x205F, 0x3000]

theorem mem_wideBlanks (hc : 128 ≤ c.toNat) (hblank : isBlank c = true) :
    c.toNat ∈ wideBlanks := by
  simp only [isBlank, Bool.or_eq_true, Bool.and_eq_true, decide_eq_true_eq, beq_iff_eq] at hblank
  simp only [wideBlanks, List.mem_cons, List.not_mem_nil, or_false]
  omega

/-- Where the parts of numerals, and their stand-ins, are found. -/
theorem toNat_of_isPart (hc : isPart (reveal c) = true) :
    0 < c.toNat ∧ (c.toNat < 0x3A ∨ c.toNat = 0x45 ∨ c.toNat = 0x65) ∨
      c.toNat ∈ wideBlanks := by
  -- the characters of ASCII are few enough to be looked through
  by_cases hascii : c.toNat < 128
  · exact .inl (forall_ascii (p := fun c => isPart (reveal c) = true →
      0 < c.toNat ∧ (c.toNat < 0x3A ∨ c.toNat = 0x45 ∨ c.toNat = 0x65)) (by decide +kernel)
      hascii hc)
  · rw [reveal_of_le (by omega)] at hc
    refine .inr (mem_wideBlanks (by omega) ?_)
    rw [isPart, Bool.or_eq_true, Bool.or_eq_true] at hc
    -- of the other characters none is a digit or a mark, so it is a blank
    rcases hc with (hdigit | hmark) | hblank
    · have := UInt32.le_iff_toNat_le.mp (of_decide_eq_true (Bool.and_eq_true_iff.mp hdigit).2)
      have : c.toNat ≤ 57 := this
      omega
    · have hlow : ['+', '-', '.', 'e', 'E'].all (·.toNat < 128) = true := by decide
      have := of_decide_eq_true (List.all_eq_true.mp hlow c (List.contains_iff_mem.mp hmark))
      omega
    · exact hblank

/-- A part of a numeral, or a stand-in for one, has one upper-case form. -/
theorem upperChars_of_isPart (hc : isPart (reveal c) = true) : upperChars c = [c.toUpper] := by
  by_cases hascii : c.toNat < 128
  · rw [upperChars, if_pos hascii]
  · have hwide := (toNat_of_isPart hc).resolve_left (by omega)
    have hfixed : ∀ n ∈ wideBlanks, upperChars (Char.ofNat n) = [Char.ofNat n] := by
      decide +kernel
    simpa [toUpper_of_le (by omega : 128 ≤ c.toNat)] using hfixed _ hwide

/-- What is not the code of a character stands for the first one. -/
theorem toNat_ofNat_eq_or (n : ℕ) : (Char.ofNat n).toNat = n ∨ (Char.ofNat n).toNat = 0 := by
  by_cases hn : n.isValidChar
  · exact .inl (by rw [Char.ofNat, dif_pos hn]; rfl)
  · exact .inr (by rw [Char.ofNat, dif_neg hn]; rfl)

/-- The capitals of a run are no parts of numerals. -/
theorem CaseRun.isPart_capital {r : CaseRun} (hr : r ∈ caseRuns) {m n : ℕ}
    (hn : r.capital? m = some n) : isPart (reveal (Char.ofNat n)) = false := by
  -- the capitals of a run are above the marks, and no blank is among them
  have hclear : ∀ r ∈ caseRuns, 0x45 < r.target ∧
      ∀ k ∈ 0x65 :: wideBlanks, r.target + (r.last - r.first) < k ∨ k < r.target := by
    decide +kernel
  obtain ⟨hlow, hclear⟩ := hclear r hr
  unfold capital? at hn
  split at hn
  · next hrange =>
    obtain rfl := Option.some.inj hn
    by_contra hpart
    rw [Bool.not_eq_false] at hpart
    have hcode := toNat_of_isPart hpart
    -- the number of a capital may be none of a character, and then it is that of U+0000
    rcases toNat_ofNat_eq_or (r.target + (m - r.first)) with hsame | hzero
    · rw [hsame] at hcode
      have hcapital : r.target + (m - r.first) ∈ 0x65 :: wideBlanks := by
        rcases hcode with hcode | hwide
        · exact List.mem_cons.mpr (.inl (by omega))
        · exact List.mem_cons_of_mem _ hwide
      have := hclear _ hcapital
      omega
    · simp [hzero, wideBlanks] at hcode
  · simp at hn

/-- No other character has an upper-case form that is a part of numerals. -/
theorem upperChars_of_forall (h : ∀ d ∈ upperChars c, isPart (reveal d) = true) :
    upperChars c = [c.toUpper] := by
  -- whatever expands to several characters has one among them that is in no numeral
  have hexpansions : (caseExpansions.all fun p => p.2.any fun d => !isPart (reveal d)) = true := by
    decide +kernel
  by_cases hascii : c.toNat < 128
  · rw [upperChars, if_pos hascii]
  · rw [toUpper_of_le (by omega)]
    unfold upperChars at h ⊢
    rw [if_neg hascii] at h ⊢
    split at h
    -- the character expands
    · next cs hcs =>
      obtain ⟨_, _, hsplit, -⟩ := List.lookup_eq_some_iff.mp hcs
      obtain ⟨d, hd, hpart⟩ := List.any_eq_true.mp
        (List.all_eq_true.mp hexpansions (c, cs) (by simp [hsplit]))
      exact absurd (h d hd) (by simpa using hpart)
    split at h
    -- the character has a capital, which is in no numeral
    · next n hn =>
      obtain ⟨r, hr, hcapital⟩ := List.exists_of_findSome?_eq_some hn
      exact absurd (h _ List.mem_cons_self) (by simp [CaseRun.isPart_capital hr hcapital])
    · simp_all

/-- A text whose characters have one upper-case form each. -/
theorem flatMap_upperChars (h : ∀ c ∈ cs, upperChars c = [c.toUpper]) :
    cs.flatMap upperChars = cs.map Char.toUpper := by
  induction cs with
  | nil => rfl
  | cons c cs ih =>
    rw [List.flatMap_cons, h c List.mem_cons_self, List.map_cons,
      ih fun d hd => h d (List.mem_cons_of_mem c hd), List.singleton_append]

end Text

/-- A text that spells a number consists of parts of numerals and stand-ins for them. -/
theorem forall_of_number? {s : String} (hs : (number? (Text.revealAll s)).isSome = true) :
    ∀ c ∈ s.toList, Numeral.isPart (Text.reveal c) = true := by
  rw [number?, Option.isSome_map, Text.toList_revealAll] at hs
  have hparts := Text.forall_of_strip (fun _ => Numeral.isPart_of_isBlank)
    (Numeral.forall_of_parse? hs)
  exact fun c hc => hparts _ (List.mem_map_of_mem hc)

/-- A text spells the same number as its upper-case form. -/
theorem number?_upperCase (s : String) :
    number? (Text.revealAll (Text.upperCase s)) = number? (Text.revealAll s) := by
  -- the two texts are read alike if upper-casing takes each character to one
  have hcase : (∀ c ∈ s.toList, Text.upperChars c = [c.toUpper]) →
      number? (Text.revealAll (Text.upperCase s)) = number? (Text.revealAll s) := by
    intro h
    have hreveal : Text.reveal ∘ Char.toUpper = Char.toUpper ∘ Text.reveal :=
      funext Text.reveal_toUpper
    rw [number?, number?, Text.toList_revealAll, Text.toList_revealAll, Text.toList_upperCase,
      Text.flatMap_upperChars h, List.map_map, hreveal, ← List.map_map, Text.strip_map_toUpper,
      Numeral.parse?_map_toUpper]
  -- one of the two texts is a numeral: then so is the other
  by_cases hs : (number? (Text.revealAll s)).isSome = true
  · exact hcase fun c hc => Text.upperChars_of_isPart (forall_of_number? hs c hc)
  by_cases hupper : (number? (Text.revealAll (Text.upperCase s))).isSome = true
  · refine hcase fun c hc => Text.upperChars_of_forall fun d hd => forall_of_number? hupper d ?_
    rw [Text.toList_upperCase]
    exact List.mem_flatMap_of_mem hc hd
  -- neither is
  · rw [Option.not_isSome_iff_eq_none] at hs hupper
    rw [hs, hupper]

/-! ### Words -/

namespace Word

variable {v w : Word} {ignoreCase : Bool} {n : Binary64}

/-- Texts that are the same, letter case aside, spell the same number. -/
theorem number?_of_sameText (hv : v.isNumber = false) (hw : w.isNumber = false)
    (h : sameText ignoreCase v w = true) : v.number? = w.number? := by
  cases v with
  | number => simp [isNumber] at hv
  | text s special =>
    cases w with
    | number => simp [isNumber] at hw
    | text t special' =>
      rw [number?, number?]
      rw [sameText, raw, raw] at h
      split at h
      · rw [← number?_upperCase s, ← number?_upperCase t, beq_iff_eq.mp h]
      · rw [beq_iff_eq.mp h]

/-- A text does not spell what is no number, so that its number equals itself. -/
theorem equals_of_number? (hv : v.isNumber = false) (hn : v.number? = some n) :
    n.equals n = true := by
  cases v with
  | number => simp [isNumber] at hv
  | text s special =>
    rw [number?, SharedValues.number?] at hn
    obtain ⟨m, -, hvalue⟩ := Option.map_eq_some_iff.mp hn
    have hnan : n.isNaN = false := by
      rw [← hvalue]
      exact m.isNaN_value
    simp [Binary64.equals, hnan]

end Word

end SharedValues
