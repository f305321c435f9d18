import SharedValues.Proofs.Number.Spelling

/-!
# The grammar of numerals

A numeral is a sign, a mantissa and a power of ten, of which only the mantissa has to be there, and
which has a digit.  The texts that spell a number are exactly the numerals.

A reader of numbers that also knows the names of infinity and of what is no number comes to the
same if it is given the texts only that have a digit and are made of the characters of numerals: the
names have no digit.  The test can be made byte by byte, since no byte of a character outside ASCII
is the one of an ASCII character.

## Main definitions

* `Numeral.IsNumeral` — the grammar.
* `Numeral.IsSpecialName`, `Numeral.IsLiteral` — names of special values, and what a reader that
  knows them accepts, such as `Numeral.literal?`.
* `Numeral.readBy` — a reader behind a test of the bytes.

## Main results

* `Numeral.parse?_isSome_iff` — the texts that are read are the numerals.
* `Numeral.readBy_isSome_iff` — the same of a reader behind a test of the bytes.
* `Numeral.not_isNumeral_of_isSpecialName` — the name of a special value is no numeral.
* `Numeral.isNumeral_strip_iff` — a numeral may have blanks around it.
-/

namespace SharedValues

/-! ### Texts between blanks -/

namespace Text

variable {cs : List Char}

/-- What is stripped off a text is blank. -/
theorem exists_strip (text : List Char) : ∃ before after, text = before ++ (strip text ++ after) ∧
    ∀ c ∈ before ++ after, isBlank c = true := by
  have hback := List.takeWhile_append_dropWhile (p := isBlank)
    (l := (text.dropWhile isBlank).reverse)
  refine ⟨text.takeWhile isBlank, ((text.dropWhile isBlank).reverse.takeWhile isBlank).reverse,
    ?_, List.forall_mem_append.mpr ⟨fun c hc => List.mem_takeWhile_imp hc, fun c hc => ?_⟩⟩
  · rw [strip, ← List.reverse_append, hback, List.reverse_reverse,
      List.takeWhile_append_dropWhile]
  · exact List.mem_takeWhile_imp (List.mem_reverse.mp hc)

/-- Blanks around a text that has none are stripped off. -/
theorem strip_append {before after : List Char} (hblank : ∀ c ∈ before ++ after, isBlank c = true)
    (hcs : ∀ c ∈ cs, isBlank c = false) (hne : cs ≠ []) :
    strip (before ++ (cs ++ after)) = cs := by
  obtain ⟨hbefore, hafter⟩ := List.forall_mem_append.mp hblank
  have hstop : ∀ cs rest : List Char, cs ≠ [] → (∀ c ∈ cs, isBlank c = false) →
      (cs ++ rest).dropWhile isBlank = cs ++ rest := by
    intro cs rest hne hcs
    obtain ⟨c, cs, rfl⟩ := List.exists_cons_of_ne_nil hne
    rw [List.cons_append, List.dropWhile_cons_of_neg (by simp [hcs c List.mem_cons_self])]
  rw [strip, List.dropWhile_append_of_pos hbefore, hstop cs after hne hcs, List.reverse_append,
    List.dropWhile_append_of_pos fun c hc => hafter c (List.mem_reverse.mp hc),
    ← List.append_nil cs.reverse, hstop cs.reverse [] (by simpa using hne)
      fun c hc => hcs c (List.mem_reverse.mp hc), List.append_nil, List.reverse_reverse]

end Text

namespace Numeral

variable {c : Char} {cs ds fs s m e rest : List Char}

/-! ### The grammar -/

/-- Some digits, one at least. -/
def IsDigits (cs : List Char) : Prop := cs ≠ [] ∧ ∀ c ∈ cs, c.isDigit = true

/-- An optional sign. -/
inductive IsSign : List Char → Prop
  /-- There is none. -/
  | none : IsSign []
  /-- A plus sign. -/
  | plus : IsSign ['+']
  /-- A minus sign. -/
  | minus : IsSign ['-']

/-- The digits before an exponent. -/
inductive IsMantissa : List Char → Prop
  /-- Digits. -/
  | whole {ds : List Char} : IsDigits ds → IsMantissa ds
  /-- Digits, a point, and further digits or none. -/
  | pointed {ds fs : List Char} : IsDigits ds → (∀ c ∈ fs, c.isDigit = true) →
    IsMantissa (ds ++ '.' :: fs)
  /-- A point and digits. -/
  | fraction {fs : List Char} : IsDigits fs → IsMantissa ('.' :: fs)

/-- An optional power of ten: a mark in either case, an optional sign and digits. -/
inductive IsExponent : List Char → Prop
  /-- There is none. -/
  | none : IsExponent []
  /-- A power of ten. -/
  | power {mark : Char} {s ds : List Char} : mark = 'e' ∨ mark = 'E' → IsSign s → IsDigits ds →
    IsExponent (mark :: (s ++ ds))

/-- **A numeral**: an optional sign, a mantissa, an optional power of ten, and nothing else. -/
inductive IsNumeral : List Char → Prop
  /-- The three parts. -/
  | mk {s m e : List Char} : IsSign s → IsMantissa m → IsExponent e → IsNumeral (s ++ (m ++ e))

/-! ### What is read is a numeral -/

theorem isDigits_takeDigits (h : (takeDigits cs).1 ≠ []) : IsDigits (takeDigits cs).1 :=
  ⟨h, fun _ hc => List.mem_takeWhile_imp hc⟩

theorem takeDigits_append_rest (cs : List Char) : (takeDigits cs).1 ++ (takeDigits cs).2 = cs :=
  List.takeWhile_append_dropWhile

/-- What is taken from the front is a sign. -/
theorem exists_isSign (cs : List Char) : ∃ s, IsSign s ∧ cs = s ++ (takeSign cs).2 := by
  unfold takeSign
  split
  · exact ⟨_, .minus, rfl⟩
  · exact ⟨_, .plus, rfl⟩
  · exact ⟨_, .none, rfl⟩

/-- An exponent is a mark, a sign and digits to the end of the text. -/
theorem isExponent_of_exponent? (h : (exponent? cs).isSome = true) : IsExponent cs := by
  cases cs with
  | nil => exact .none
  | cons mark cs =>
    obtain ⟨s, hs, hsplit⟩ := exists_isSign cs
    have hdigits := takeDigits_append_rest (takeSign cs).2
    unfold exponent? at h
    dsimp only at h
    split at h
    -- behind the mark there must be a sign, if any, some digits, and nothing else
    · next hmark =>
      split at h
      · simp at h
      · next hrest =>
        rw [Bool.or_eq_true, not_or, List.isEmpty_iff, Bool.not_eq_true', Bool.not_eq_false,
          List.isEmpty_iff] at hrest
        rw [hrest.2, List.append_nil] at hdigits
        rw [hsplit, ← hdigits]
        exact .power hmark hs (isDigits_takeDigits hrest.1)
    · simp at h

/-- The digits before and after a point are a mantissa if there is any. -/
theorem isMantissa_of_takeFraction
    (h : ¬((takeDigits cs).1 = [] ∧ (takeFraction (takeDigits cs).2).1 = [])) :
    ∃ m, IsMantissa m ∧ cs = m ++ (takeFraction (takeDigits cs).2).2 := by
  have hsplit := takeDigits_append_rest cs
  have hdigits : (takeDigits cs).1 ≠ [] → IsDigits (takeDigits cs).1 := isDigits_takeDigits
  generalize (takeDigits cs).1 = ds, (takeDigits cs).2 = rest at h hsplit hdigits ⊢
  unfold takeFraction at h ⊢
  split at h
  · next rest =>
    -- with a point there may be digits on either side of it, on one at least
    have hfraction := takeDigits_append_rest rest
    have hfs : ∀ c ∈ (takeDigits rest).1, c.isDigit = true := fun _ hc => List.mem_takeWhile_imp hc
    by_cases hds : ds = []
    · refine ⟨'.' :: (takeDigits rest).1, .fraction (isDigits_takeDigits fun hnil => ?_), ?_⟩
      · exact h ⟨hds, hnil⟩
      · rw [← hsplit, hds, List.nil_append, List.cons_append, hfraction]
    · refine ⟨ds ++ '.' :: (takeDigits rest).1, .pointed (hdigits hds) hfs, ?_⟩
      rw [← hsplit, List.append_assoc, List.cons_append, hfraction]
  · exact ⟨ds, .whole (hdigits fun hds => h ⟨hds, rfl⟩), hsplit.symm⟩

/-- **A text that is read is a numeral.** -/
theorem isNumeral_of_parse? (h : (parse? cs).isSome = true) : IsNumeral cs := by
  obtain ⟨s, hs, hsign⟩ := exists_isSign cs
  unfold parse? at h
  dsimp only at h
  split at h
  · simp at h
  · next hsome =>
    rw [Bool.and_eq_true, List.isEmpty_iff, List.isEmpty_iff] at hsome
    obtain ⟨m, hm, hmantissa⟩ := isMantissa_of_takeFraction hsome
    rw [Option.isSome_map] at h
    rw [hsign, hmantissa]
    exact .mk hs hm (isExponent_of_exponent? h)

/-! ### Numerals are read -/

/-- No digit and no point is left in front of an exponent. -/
theorem IsExponent.head (he : IsExponent e) : ∀ c ∈ e.head?, c.isDigit = false ∧ c ≠ '.' := by
  cases he with
  | none => simp
  | power hmark =>
    simp only [List.head?_cons, Option.mem_some_iff, forall_eq']
    rcases hmark with rfl | rfl <;> decide

/-- A mantissa begins with a digit or a point. -/
theorem IsMantissa.exists_cons (hm : IsMantissa m) :
    ∃ c cs, m = c :: cs ∧ (c.isDigit = true ∨ c = '.') := by
  have hcons : ∀ ds, IsDigits ds → ∃ c cs, ds = c :: cs ∧ c.isDigit = true := by
    intro ds hds
    obtain ⟨c, cs, rfl⟩ := List.exists_cons_of_ne_nil hds.1
    exact ⟨c, cs, rfl, hds.2 c List.mem_cons_self⟩
  cases hm with
  | whole hds =>
    obtain ⟨c, cs, rfl, hc⟩ := hcons _ hds
    exact ⟨c, cs, rfl, .inl hc⟩
  | pointed hds =>
    obtain ⟨c, cs, rfl, hc⟩ := hcons _ hds
    exact ⟨c, _, rfl, .inl hc⟩
  | fraction => exact ⟨'.', _, rfl, .inr rfl⟩

/-- A sign is taken from the front of a text that goes on with something else. -/
theorem IsSign.takeSign_eq (hs : IsSign s) (hminus : c ≠ '-') (hplus : c ≠ '+') :
    (takeSign (s ++ c :: cs)).2 = c :: cs := by
  cases hs with
  | none => rw [List.nil_append, takeSign_of_ne hminus hplus]
  | plus => rfl
  | minus => rfl

/-- An exponent is read to the end of the text. -/
theorem IsExponent.isSome (he : IsExponent e) : (exponent? e).isSome = true := by
  cases he with
  | none => rfl
  | @power mark s ds hmark hs hds =>
    obtain ⟨c, cs, rfl⟩ := List.exists_cons_of_ne_nil hds.1
    have hc := hds.2 c List.mem_cons_self
    have hsign : (takeSign (s ++ c :: cs)).2 = c :: cs :=
      hs.takeSign_eq (by rintro rfl; simp at hc) (by rintro rfl; simp at hc)
    unfold exponent?
    dsimp only
    rw [if_pos hmark, hsign, takeDigits_eq_self hds.2]
    cases (takeSign (s ++ c :: cs)).1 <;> rfl

/-- A mantissa is read up to the exponent. -/
theorem IsMantissa.take_eq (hm : IsMantissa m) (he : ∀ c ∈ e.head?, c.isDigit = false ∧ c ≠ '.') :
    ∃ ds fs rest, takeDigits (m ++ e) = (ds, rest) ∧ takeFraction rest = (fs, e) ∧
      ¬(ds = [] ∧ fs = []) := by
  -- what comes behind the mantissa stops the digits
  have hstop := fun c hc => (he c hc).1
  have hpoint : ∀ cs, ∀ c ∈ ('.' :: cs).head?, c.isDigit = false := by simp
  cases hm with
  | whole hds =>
    refine ⟨m, [], e, takeDigits_append hds.2 hstop, ?_, fun h => hds.1 h.1⟩
    cases e with
    | nil => rfl
    | cons c cs => exact takeFraction_of_ne (he c rfl).2
  | @pointed ds fs hds hfs =>
    refine ⟨ds, fs, '.' :: (fs ++ e), ?_, takeDigits_append hfs hstop, fun h => hds.1 h.1⟩
    rw [List.append_assoc, List.cons_append, takeDigits_append hds.2 (hpoint _)]
  | @fraction fs hfs =>
    refine ⟨[], fs, '.' :: (fs ++ e), ?_, takeDigits_append hfs.2 hstop, fun h => hfs.1 h.2⟩
    exact takeDigits_append (List.forall_mem_nil _) (hpoint _)

/-- **A numeral is read.** -/
theorem IsNumeral.isSome (h : IsNumeral cs) : (parse? cs).isSome = true := by
  obtain ⟨hs, hm, he⟩ := h
  next s m e =>
  obtain ⟨ds, fs, rest, hdigits, hfraction, hsome⟩ := hm.take_eq he.head
  obtain ⟨c, m', hcons, hc⟩ := hm.exists_cons
  -- the mantissa does not start with a sign, so none is taken from it
  have hsign : (takeSign (s ++ (m ++ e))).2 = m ++ e := by
    rw [hcons, List.cons_append]
    rcases hc with hc | rfl
    · exact hs.takeSign_eq (by rintro rfl; simp at hc) (by rintro rfl; simp at hc)
    · exact hs.takeSign_eq (by decide) (by decide)
  unfold parse?
  -- the parts are taken one after the other, and each leaves what comes next
  dsimp only
  rw [hsign, hdigits]
  dsimp only
  rw [hfraction, if_neg (by simpa using hsome), Option.isSome_map]
  exact he.isSome

/-- **The texts that are read are the numerals.** -/
theorem parse?_isSome_iff : (parse? cs).isSome = true ↔ IsNumeral cs :=
  ⟨isNumeral_of_parse?, IsNumeral.isSome⟩

/-! ### Names of special values -/

/-- The names of special values, in upper case. -/
def specialNames : List String := ["INF", "INFINITY", "NAN"]

/-- The name of a special value, in any case and with an optional sign. -/
inductive IsSpecialName : List Char → Prop
  /-- A sign and a name. -/
  | mk {s name : List Char} : IsSign s → String.ofList (name.map Char.toUpper) ∈ specialNames →
    IsSpecialName (s ++ name)

/-- What a reader accepts that knows the names of special values. -/
def IsLiteral (cs : List Char) : Prop := IsSpecialName cs ∨ IsNumeral cs

/-- A reader that knows the names of special values. -/
def literal? (cs : List Char) : Option Binary64 :=
  let (negative, name) := takeSign cs
  let upper := String.ofList (name.map Char.toUpper)
  if upper = "NAN" then some ⟨negative, ⟨Binary64.infinitePlace + 1 <<< 51, by decide⟩⟩
  else if upper ∈ specialNames then some (.ofPlace negative Binary64.infinitePlace)
  else (parse? cs).map value

/-- A name has no digit, and does not begin with a sign. -/
theorem specialNames_spec {name : List Char}
    (hname : String.ofList (name.map Char.toUpper) ∈ specialNames) :
    (∀ c ∈ name, c.isDigit = false) ∧ ∃ c cs, name = c :: cs ∧ c ≠ '-' ∧ c ≠ '+' := by
  -- the names are few, so what is said of them is looked up
  have hnames : ∀ upper ∈ specialNames, upper.toList.any Char.isDigit = false ∧
      upper.toList ≠ [] ∧ '-' ∉ upper.toList ∧ '+' ∉ upper.toList := by
    decide
  obtain ⟨hdigit, hne, hminus, hplus⟩ := hnames _ hname
  rw [String.toList_ofList] at hdigit hne hminus hplus
  rw [List.any_eq_false] at hdigit
  refine ⟨fun c hc => ?_, ?_⟩
  · rw [← Text.isDigit_toUpper, Bool.eq_false_iff]
    exact hdigit _ (List.mem_map_of_mem hc)
  -- the first character is none of the signs, as no character is
  · cases name with
    | nil => exact absurd rfl hne
    | cons c cs =>
      refine ⟨c, cs, rfl, ?_, ?_⟩
      · rintro rfl
        exact hminus (List.mem_map_of_mem List.mem_cons_self)
      · rintro rfl
        exact hplus (List.mem_map_of_mem List.mem_cons_self)

theorem isSpecialName_iff :
    IsSpecialName cs ↔ String.ofList ((takeSign cs).2.map Char.toUpper) ∈ specialNames := by
  constructor
  · rintro ⟨hs, hname⟩
    obtain ⟨-, c, cs, rfl, hminus, hplus⟩ := specialNames_spec hname
    rwa [hs.takeSign_eq hminus hplus]
  · intro hname
    obtain ⟨s, hs, hsign⟩ := exists_isSign cs
    rw [hsign]
    exact .mk hs hname

/-- The reader accepts the literals. -/
theorem literal?_isSome_iff (cs : List Char) : (literal? cs).isSome = true ↔ IsLiteral cs := by
  unfold literal? IsLiteral
  dsimp only
  rw [isSpecialName_iff]
  split_ifs with hnan hname
  · simp [hnan, specialNames]
  · simp [hname]
  · rw [Option.isSome_map, parse?_isSome_iff]
    simp [hname]

/-! ### A reader behind a test -/

/-- A byte that is an ASCII digit. -/
def isDigitByte (b : UInt8) : Bool := 48 ≤ b.toNat && b.toNat ≤ 57

/-- A byte that is an ASCII character of numerals. -/
def isMarkByte (b : UInt8) : Bool := isDigitByte b || [43, 45, 46, 101, 69].contains b.toNat

/-- The bytes of a text in UTF-8. -/
def bytes (cs : List Char) : List UInt8 := cs.flatMap String.utf8EncodeChar

/-- **A reader behind a test**: a text without the blanks at its ends is given to the reader only if
it has a digit among its bytes, and all its bytes are characters of numerals. -/
def readBy {α : Type} (read : List Char → Option α) (text : List Char) : Option α :=
  let cs := Text.strip text
  if cs.isEmpty || !(bytes cs).any isDigitByte || !(bytes cs).all isMarkByte then none else read cs

/-- The characters of numerals. -/
def isMark (c : Char) : Bool := c.isDigit || ['+', '-', '.', 'e', 'E'].contains c

/-- A character outside ASCII has bytes from 128 on. -/
theorem utf8EncodeChar_of_le (hc : 128 ≤ c.toNat) :
    ∃ b bs, String.utf8EncodeChar c = b :: bs ∧ ∀ a ∈ b :: bs, 128 ≤ a.toNat := by
  have hv : ¬c.val.toNat ≤ 127 := by
    have : c.toNat = c.val.toNat := rfl
    omega
  unfold String.utf8EncodeChar
  dsimp only
  rw [if_neg hv]
  -- two, three or four bytes, by the size of the code point
  split_ifs
  all_goals
    refine ⟨_, _, rfl, ?_⟩
    simp only [List.mem_cons, List.not_mem_nil, or_false, forall_eq_or_imp, forall_eq,
      UInt8.toNat_ofNat']
    omega

/-- No byte of a character outside ASCII is one of a numeral. -/
theorem isMarkByte_of_le {b : UInt8} (hb : 128 ≤ b.toNat) :
    isDigitByte b = false ∧ isMarkByte b = false := by
  have hdigit : isDigitByte b = false := by
    simp only [isDigitByte, Bool.and_eq_false_iff, decide_eq_false_iff_not]
    omega
  refine ⟨hdigit, ?_⟩
  simp only [isMarkByte, hdigit, Bool.false_or, List.contains_eq_mem, decide_eq_false_iff_not,
    List.mem_cons, List.not_mem_nil, or_false]
  omega

/-- The marks of numerals are ASCII characters. -/
theorem isMark_of_le (hc : 128 ≤ c.toNat) : c.isDigit = false ∧ isMark c = false := by
  have hdigit : c.isDigit = false := by
    by_contra h
    rw [Bool.not_eq_false, Char.isDigit, Bool.and_eq_true, decide_eq_true_eq,
      decide_eq_true_eq] at h
    have : c.toNat ≤ 57 := UInt32.le_iff_toNat_le.mp h.2
    omega
  refine ⟨hdigit, ?_⟩
  simp only [isMark, hdigit, Bool.false_or, List.contains_eq_mem, decide_eq_false_iff_not,
    List.mem_cons, List.not_mem_nil, or_false]
  rintro (rfl | rfl | rfl | rfl | rfl) <;> revert hc <;> decide

/-- The bytes and the marks of ASCII. -/
theorem ascii_spec (hc : c.toNat < 128) :
    ((String.utf8EncodeChar c).any isDigitByte = c.isDigit ∧
      (String.utf8EncodeChar c).all isMarkByte = isMark c) ∧
      (isMark c = true → Text.isBlank c = false) :=
  Text.forall_ascii (p := fun c => ((String.utf8EncodeChar c).any isDigitByte = c.isDigit ∧
    (String.utf8EncodeChar c).all isMarkByte = isMark c) ∧
    (isMark c = true → Text.isBlank c = false)) (by decide +kernel) hc

/-- The bytes of a character tell whether it is a digit, and whether it is a mark of numerals. -/
theorem utf8EncodeChar_spec (c : Char) :
    (String.utf8EncodeChar c).any isDigitByte = c.isDigit ∧
      (String.utf8EncodeChar c).all isMarkByte = isMark c := by
  by_cases hc : c.toNat < 128
  · exact (ascii_spec hc).1
  · obtain ⟨b, bs, hbytes, hhigh⟩ := utf8EncodeChar_of_le (Nat.le_of_not_lt hc)
    obtain ⟨hdigit, hmark⟩ := isMark_of_le (Nat.le_of_not_lt hc)
    rw [hbytes, hdigit, hmark]
    refine ⟨List.any_eq_false.mpr fun a ha => ?_, ?_⟩
    · rw [(isMarkByte_of_le (hhigh a ha)).1]
      exact Bool.false_ne_true
    · rw [List.all_cons, (isMarkByte_of_le (hhigh b List.mem_cons_self)).2, Bool.false_and]

/-- A digit is looked for byte by byte. -/
theorem any_bytes (cs : List Char) : (bytes cs).any isDigitByte = cs.any Char.isDigit := by
  rw [bytes, List.any_flatMap]
  exact congrArg cs.any (funext fun c => (utf8EncodeChar_spec c).1)

/-- The characters are tested byte by byte. -/
theorem all_bytes (cs : List Char) : (bytes cs).all isMarkByte = cs.all isMark := by
  rw [bytes, List.all_flatMap]
  exact congrArg cs.all (funext fun c => (utf8EncodeChar_spec c).2)

/-- No mark is a blank. -/
theorem isBlank_of_isMark (hc : isMark c = true) : Text.isBlank c = false := by
  by_cases hlow : c.toNat < 128
  · exact (ascii_spec hlow).2 hc
  · rw [(isMark_of_le (Nat.le_of_not_lt hlow)).2] at hc
    exact absurd hc Bool.false_ne_true

theorem isMark_of_isDigit (hc : c.isDigit = true) : isMark c = true := by simp [isMark, hc]

theorem IsSign.forall_isMark (hs : IsSign s) : ∀ c ∈ s, isMark c = true ∧ c.isDigit = false := by
  cases hs <;> simp [isMark]

theorem IsMantissa.forall_isMark (hm : IsMantissa m) : ∀ c ∈ m, isMark c = true := by
  have hpoint : isMark '.' = true := by decide
  cases hm with
  | whole hds => exact fun c hc => isMark_of_isDigit (hds.2 c hc)
  | pointed hds hfs =>
    refine List.forall_mem_append.mpr ⟨fun c hc => isMark_of_isDigit (hds.2 c hc), ?_⟩
    exact List.forall_mem_cons.mpr ⟨hpoint, fun c hc => isMark_of_isDigit (hfs c hc)⟩
  | fraction hfs =>
    exact List.forall_mem_cons.mpr ⟨hpoint, fun c hc => isMark_of_isDigit (hfs.2 c hc)⟩

theorem IsMantissa.exists_isDigit (hm : IsMantissa m) : ∃ c ∈ m, c.isDigit = true := by
  have hfirst : ∀ ds, IsDigits ds → ∃ c ∈ ds, c.isDigit = true := by
    intro ds hds
    obtain ⟨c, hc⟩ := List.exists_mem_of_ne_nil ds hds.1
    exact ⟨c, hc, hds.2 c hc⟩
  cases hm with
  | whole hds => exact hfirst _ hds
  | pointed hds =>
    obtain ⟨c, hc, hdigit⟩ := hfirst _ hds
    exact ⟨c, List.mem_append_left _ hc, hdigit⟩
  | fraction hfs =>
    obtain ⟨c, hc, hdigit⟩ := hfirst _ hfs
    exact ⟨c, List.mem_cons_of_mem _ hc, hdigit⟩

theorem IsExponent.forall_isMark (he : IsExponent e) : ∀ c ∈ e, isMark c = true := by
  cases he with
  | none => simp
  | power hmark hs hds =>
    refine List.forall_mem_cons.mpr ⟨by rcases hmark with rfl | rfl <;> decide, ?_⟩
    exact List.forall_mem_append.mpr
      ⟨fun c hc => (hs.forall_isMark c hc).1, fun c hc => isMark_of_isDigit (hds.2 c hc)⟩

/-- A numeral consists of marks, and has a digit. -/
theorem IsNumeral.spec (h : IsNumeral cs) : cs.all isMark = true ∧ cs.any Char.isDigit = true := by
  obtain ⟨hs, hm, he⟩ := h
  obtain ⟨c, hc, hdigit⟩ := hm.exists_isDigit
  rw [List.all_eq_true, List.any_eq_true]
  refine ⟨List.forall_mem_append.mpr ⟨fun c hc => (hs.forall_isMark c hc).1, ?_⟩, ?_⟩
  · exact List.forall_mem_append.mpr ⟨hm.forall_isMark, he.forall_isMark⟩
  · exact ⟨c, List.mem_append_right _ (List.mem_append_left _ hc), hdigit⟩

/-- The name of a special value has no digit. -/
theorem IsSpecialName.any_isDigit (h : IsSpecialName cs) : cs.any Char.isDigit = false := by
  obtain ⟨hs, hname⟩ := h
  rw [List.any_eq_false]
  intro c hc
  rw [Bool.not_eq_true]
  rcases List.mem_append.mp hc with hc | hc
  · exact (hs.forall_isMark c hc).2
  · exact (specialNames_spec hname).1 c hc

/-- **The name of a special value is no numeral**, whatever its case and its sign. -/
theorem not_isNumeral_of_isSpecialName (h : IsSpecialName cs) : ¬IsNumeral cs := fun hn =>
  Bool.false_ne_true (h.any_isDigit.symm.trans hn.spec.2)

/-- **A reader that knows the names of special values reads numerals only behind the test.** -/
theorem readBy_isSome_iff {α : Type} {read : List Char → Option α}
    (hread : ∀ cs, (read cs).isSome = true ↔ IsLiteral cs) (text : List Char) :
    (readBy read text).isSome = true ↔ IsNumeral (Text.strip text) := by
  unfold readBy
  dsimp only
  rw [any_bytes, all_bytes]
  generalize Text.strip text = cs
  constructor
  · intro h
    split at h
    · exact absurd h Bool.false_ne_true
    · next htest =>
      rw [Bool.or_eq_true, Bool.or_eq_true, not_or, not_or, Bool.not_eq_true',
        Bool.not_eq_false] at htest
      -- what the reader accepts besides numerals is a name, which has no digits
      rcases (hread cs).mp h with hname | hn
      · exact absurd (htest.1.2.symm.trans hname.any_isDigit) (by decide)
      · exact hn
  · intro hn
    -- the blanks in front and behind do not matter, and a numeral is more than blanks
    have hnil : cs.isEmpty = false := by
      rw [List.isEmpty_eq_false_iff]
      rintro rfl
      exact absurd hn.spec.2 (by decide)
    rw [hnil, hn.spec.1, hn.spec.2, if_neg (by decide)]
    exact (hread cs).mpr (.inr hn)

/-- **Numerals may have blanks around them**, and have none inside. -/
theorem isNumeral_strip_iff (text : List Char) : IsNumeral (Text.strip text) ↔
    ∃ before cs after, text = before ++ (cs ++ after) ∧
      (∀ c ∈ before ++ after, Text.isBlank c = true) ∧ IsNumeral cs := by
  constructor
  · intro h
    obtain ⟨before, after, htext, hblank⟩ := Text.exists_strip text
    exact ⟨before, _, after, htext, hblank, h⟩
  · rintro ⟨before, cs, after, rfl, hblank, h⟩
    have hcs : ∀ c ∈ cs, Text.isBlank c = false := fun c hc =>
      isBlank_of_isMark (List.all_eq_true.mp h.spec.1 c hc)
    have hne : cs ≠ [] := by
      rintro rfl
      exact absurd h.spec.2 (by decide)
    rwa [Text.strip_append hblank hcs hne]

end Numeral

end SharedValues
