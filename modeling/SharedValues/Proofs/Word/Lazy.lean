import Mathlib.Data.Bool.Basic
import SharedValues.Session.Command

/-!
# Words with caches

A word can keep the forms that it was asked for: its raw text, its printable text, its key and its
number are each found out once.  Which of them are there, and whether a text has been tried in vain
for its number, is all that changes.  Here words are kept that way, and what they answer is compared
with the forms of a word that keeps nothing, of which it is only known whether it is settled.

## Main definitions

* `LazyWord` — a word with its caches, and `LazyWord.ofWord`, a word as it is made.
* `LazyWord.rawValue`, …, `LazyWord.print` — its forms, each kept when it has been found out.
* `LazyWord.StandsFor` — what is kept is right, and what is settled is known.
* `LazyWord.Advances` — what is known does not get lost.

## Main results

* `StandsFor.rawValue`, …, `StandsFor.print` — every form is the one of the word, and stays right.
* `StandsFor.tell` — the same of all forms.
* `Advances.tell`, `Advances.print` — a form that is asked for adds to what is known.
-/

namespace SharedValues

/-- A word with the forms that it keeps. -/
structure LazyWord where
  /-- The raw text, if it is known. -/
  raw? : Option String
  /-- The printable text, if it was asked for. -/
  printable? : Option String := none
  /-- The key, if it was asked for. -/
  key? : Option String := none
  /-- The number.  It stands at zero until the text has been found to spell another one. -/
  number : Binary64
  /-- Which of the two forms are known. -/
  freshness : Freshness
  /-- Whether the text has been found to spell no number. -/
  failed : Bool := false
  /-- Whether the text must not be read apart. -/
  special : Bool := false

/-- The forms of a word. -/
inductive Form where
  /-- The raw text. -/
  | raw
  /-- The printable text. -/
  | printable
  /-- The key. -/
  | key
  /-- The number, zero standing for none. -/
  | number
  /-- Whether there is a number. -/
  | isNumber
  /-- The number, if there is one. -/
  | number?
  deriving DecidableEq, Repr

/-- The question that asks for a form. -/
def Form.question : Form → Question
  | raw => .raw
  | printable => .printable
  | key => .key
  | number => .number
  | isNumber => .isNumber
  | number? => .number?

/-- A form of a word, as an answer. -/
def Word.form (w : Word) : Form → Reply
  | .raw => .text w.raw
  | .printable => .text w.printable
  | .key => .text w.key
  | .number => .number w.value
  | .isNumber => .flag w.number?.isSome
  | .number? => w.number?.elim .null .number

/-- Whether a word is settled after it was asked for its number: a text is if it has one. -/
def Word.isTried (settled : Bool) (w : Word) : Bool :=
  settled || (!w.isNumber && w.number?.isSome)

namespace LazyWord

variable {w : Word} {c : LazyWord} {settled : Bool}

/-- A word as it is made. -/
def ofWord : Word → LazyWord
  | .text raw special => { raw? := some raw, number := .zero, freshness := .text, special }
  | .number value => { raw? := none, number := value, freshness := .number }

/-! ### The forms -/

/-- The raw text.  A number is formatted the first time. -/
def rawValue (c : LazyWord) : String × LazyWord :=
  let raw := c.raw?.getD (formatNumber c.number)
  let freshness := if c.freshness = .number then .clean else c.freshness
  (raw, { c with raw? := some raw, freshness })

/-- The printable text. -/
def printableValue (c : LazyWord) : String × LazyWord :=
  match c.printable? with
  | some printable => (printable, c)
  | none =>
    let (raw, c) := c.rawValue
    let printable := Text.revealAll raw
    (printable, { c with printable? := some printable })

/-- The key. -/
def keyValue (c : LazyWord) : String × LazyWord :=
  match c.key? with
  | some key => (key, c)
  | none =>
    let (printable, c) := c.printableValue
    let key := Text.upperCase printable
    (key, { c with key? := some key })

/-- The number.  A text is tried once. -/
def numberValue (c : LazyWord) : Binary64 × LazyWord :=
  if c.freshness = .text ∧ c.failed = false then
    let (printable, c) := c.printableValue
    match SharedValues.number? printable with
    | some number => (number, { c with number, freshness := .clean })
    | none => (.zero, { c with number := .zero, failed := true })
  else (c.number, c)

/-- Whether the word has a number. -/
def converts (c : LazyWord) : Bool × LazyWord :=
  let (_, c) := c.numberValue
  (c.freshness != .text, c)

/-- The number, if there is one. -/
def tryNumber (c : LazyWord) : Option Binary64 × LazyWord :=
  let (number, c) := c.numberValue
  let (converts, c) := c.converts
  (if converts then some number else none, c)

/-- The written form. -/
def print (o : PrintOptions) (c : LazyWord) : String × LazyWord :=
  if c.freshness ≠ .text then c.rawValue
  else
    let (printable, c) := c.printableValue
    if o.depthLimit = some 0 then ("...", c)
    else if !o.full then (String.ofList (Word.clipped o.widthLimit printable.toList), c)
    else
      let (raw, c) := c.rawValue
      (String.ofList (Word.quoted raw.toList), c)

/-- A form, as an answer. -/
def tell (c : LazyWord) : Form → Reply × LazyWord
  | .raw => c.rawValue.map .text id
  | .printable => c.printableValue.map .text id
  | .key => c.keyValue.map .text id
  | .number => c.numberValue.map .number id
  | .isNumber => c.converts.map .flag id
  | .number? => c.tryNumber.map (·.elim .null .number) id

/-! ### What is kept is right -/

/-- **A word with caches stands for a word** that is settled or not: the forms that it keeps are the
ones of the word, and the flags tell what is known of it. -/
structure StandsFor (c : LazyWord) (w : Word) (settled : Bool) : Prop where
  /-- What is known of the word. -/
  freshness_eq : c.freshness = w.freshness settled
  /-- The raw text that is kept. -/
  raw_eq : ∀ t, c.raw? = some t → t = w.raw
  /-- The printable text that is kept. -/
  printable_eq : ∀ t, c.printable? = some t → t = w.printable
  /-- The key that is kept. -/
  key_eq : ∀ t, c.key? = some t → t = w.key
  /-- Only a number has no raw text. -/
  raw_none : c.raw? = none → w = .number c.number
  /-- A number none of whose texts has been asked for keeps none. -/
  untold : c.freshness = .number → c.printable? = none ∧ c.key? = none
  /-- A word that is treated as a number has the number that is kept. -/
  number_eq : w.isNumeric settled = true → w.number? = some c.number
  /-- Another one is kept at zero. -/
  number_zero : w.isNumeric settled = false → c.number = .zero
  /-- A text that was tried in vain has no number. -/
  failed : c.failed = true → w.number? = none
  /-- Whether it is special is as it was. -/
  special_eq : c.special = w.isSpecial

/-- A word stands for itself as it is made. -/
theorem standsFor_ofWord (w : Word) : (ofWord w).StandsFor w false := by
  cases w with
  | text raw special =>
    exact { freshness_eq := rfl, raw_eq := fun t ht => (Option.some.inj ht).symm,
            printable_eq := by simp [ofWord], key_eq := by simp [ofWord],
            raw_none := by simp [ofWord], untold := by simp [ofWord],
            number_eq := by simp [Word.isNumeric, Word.isNumber], number_zero := fun _ => rfl,
            failed := by simp [ofWord], special_eq := rfl }
  | number value =>
    exact { freshness_eq := rfl, raw_eq := by simp [ofWord], printable_eq := by simp [ofWord],
            key_eq := by simp [ofWord], raw_none := fun _ => rfl, untold := fun _ => ⟨rfl, rfl⟩,
            number_eq := fun _ => rfl, number_zero := by simp [Word.isNumeric, Word.isNumber],
            failed := by simp [ofWord], special_eq := rfl }

namespace StandsFor

/-- What is settled when a word is asked for a text: a number is. -/
theorem isNumeric_isNumeric (w : Word) (settled : Bool) :
    w.isNumeric (w.isNumeric settled) = w.isNumeric settled := by
  simp [Word.isNumeric]

/-- A number that is asked for its text is known in both forms. -/
theorem freshness_isNumeric (w : Word) (settled : Bool) :
    w.freshness (w.isNumeric settled) =
      if w.freshness settled = .number then .clean else w.freshness settled := by
  unfold Word.freshness Word.isNumeric
  cases settled <;> cases w.isNumber <;> rfl

/-- A word that was asked for its text is no number whose text is not known. -/
theorem freshness_isNumeric_ne (w : Word) (settled : Bool) :
    w.freshness (w.isNumeric settled) ≠ .number := by
  unfold Word.freshness Word.isNumeric
  cases settled <;> cases w.isNumber <;> simp

/-- A text is kept only if it was asked for, and a number is settled then. -/
theorem isNumeric_eq_self (hc : c.StandsFor w settled) (hkept : c.freshness ≠ .number) :
    w.isNumeric settled = settled := by
  rw [hc.freshness_eq] at hkept
  revert hkept
  unfold Word.freshness Word.isNumeric
  cases settled <;> cases w.isNumber <;> simp

theorem freshness_eq_text_iff (hc : c.StandsFor w settled) :
    c.freshness = .text ↔ w.isNumeric settled = false := by
  rw [hc.freshness_eq]
  unfold Word.freshness Word.isNumeric
  cases settled <;> cases w.isNumber <;> simp

theorem rawValue (hc : c.StandsFor w settled) :
    c.rawValue.1 = w.raw ∧ c.rawValue.2.StandsFor w (w.isNumeric settled) := by
  -- an absent raw text is the number's, and only a word made from a number lacks one
  have hraw : c.raw?.getD (formatNumber c.number) = w.raw := by
    cases hr : c.raw? with
    | some t => exact hc.raw_eq t hr
    | none => rw [hc.raw_none hr]; rfl
  have hfreshness : c.rawValue.2.freshness = w.freshness (w.isNumeric settled) := by
    rw [freshness_isNumeric, ← hc.freshness_eq]
    rfl
  exact ⟨hraw, {
    freshness_eq := hfreshness
    raw_eq := fun t ht => (Option.some.inj ht).symm.trans hraw
    printable_eq := hc.printable_eq
    key_eq := hc.key_eq
    raw_none := by simp [LazyWord.rawValue]
    -- asking for the raw text leaves no word untold, whatever its freshness was
    untold := fun h => absurd (hfreshness.symm.trans h) (freshness_isNumeric_ne w settled)
    number_eq := by rw [isNumeric_isNumeric]; exact hc.number_eq
    number_zero := by rw [isNumeric_isNumeric]; exact hc.number_zero
    failed := hc.failed
    special_eq := hc.special_eq }⟩

theorem printableValue (hc : c.StandsFor w settled) :
    c.printableValue.1 = w.printable ∧
      c.printableValue.2.StandsFor w (w.isNumeric settled) := by
  unfold LazyWord.printableValue
  cases hp : c.printable? with
  | some t =>
    -- a printable text is cached only once the raw text is known, so nothing is settled again
    have hkept : c.freshness ≠ .number := fun h => by simp [(hc.untold h).1] at hp
    refine ⟨hc.printable_eq t hp, ?_⟩
    rwa [hc.isNumeric_eq_self hkept]
  | none =>
    -- the printable text is revealed from the raw one, which is asked for first
    obtain ⟨hraw, hc'⟩ := hc.rawValue
    have hprintable : Text.revealAll c.rawValue.1 = w.printable := by
      rw [hraw]
      rfl
    exact ⟨hprintable, { hc' with
      printable_eq := fun t ht => (Option.some.inj ht).symm.trans hprintable
      untold := fun h =>
        absurd (hc'.freshness_eq.symm.trans h) (freshness_isNumeric_ne w settled) }⟩

theorem keyValue (hc : c.StandsFor w settled) :
    c.keyValue.1 = w.key ∧ c.keyValue.2.StandsFor w (w.isNumeric settled) := by
  unfold LazyWord.keyValue
  cases hk : c.key? with
  | some t =>
    -- as with the printable text, a cached key means that the raw text was asked for before
    have hkept : c.freshness ≠ .number := fun h => by simp [(hc.untold h).2] at hk
    refine ⟨hc.key_eq t hk, ?_⟩
    rwa [hc.isNumeric_eq_self hkept]
  | none =>
    obtain ⟨hprintable, hc'⟩ := hc.printableValue
    have hkey : Text.upperCase c.printableValue.1 = w.key := by
      rw [hprintable]
      rfl
    exact ⟨hkey, { hc' with
      key_eq := fun t ht => (Option.some.inj ht).symm.trans hkey
      untold := fun h =>
        absurd (hc'.freshness_eq.symm.trans h) (freshness_isNumeric_ne w settled) }⟩

/-- The number of a text is the one that its printable text spells. -/
theorem number?_printable (hw : w.isNumber = false) :
    SharedValues.number? w.printable = w.number? := by
  cases w with
  | text raw special => rfl
  | number value => simp [Word.isNumber] at hw

/-- The word is settled when it has turned out to have a number. -/
theorem settle {n : Binary64} (hc : c.StandsFor w settled) (hw : w.number? = some n)
    (hkept : c.freshness = .text) :
    StandsFor { c with number := n, freshness := .clean } w true where
  freshness_eq := rfl
  raw_eq := hc.raw_eq
  printable_eq := hc.printable_eq
  key_eq := hc.key_eq
  raw_none := fun h => by
    have hnumeric := hc.freshness_eq_text_iff.mp hkept
    rw [hc.raw_none h] at hnumeric
    simp [Word.isNumeric, Word.isNumber] at hnumeric
  untold := by simp
  number_eq := fun _ => hw
  number_zero := by simp [Word.isNumeric]
  failed := fun h => by simp [hc.failed h] at hw
  special_eq := hc.special_eq

/-- The word is tried no more when it has turned out to have no number. -/
theorem give_up (hc : c.StandsFor w settled) (hw : w.number? = none) :
    StandsFor { c with number := .zero, failed := true } w settled where
  freshness_eq := hc.freshness_eq
  raw_eq := hc.raw_eq
  printable_eq := hc.printable_eq
  key_eq := hc.key_eq
  raw_none := fun h => by
    rw [hc.raw_none h] at hw
    simp [Word.number?] at hw
  untold := hc.untold
  number_eq := fun h => by simp [hc.number_eq h] at hw
  number_zero := fun _ => rfl
  failed := fun _ => hw
  special_eq := hc.special_eq

theorem numberValue (hc : c.StandsFor w settled) :
    c.numberValue.1 = w.value ∧ c.numberValue.2.StandsFor w (w.isTried settled) := by
  unfold LazyWord.numberValue Word.value
  by_cases hnumeric : w.isNumeric settled = true
  · -- the number is known
    have htried : w.isTried settled = settled := by
      revert hnumeric
      unfold Word.isTried Word.isNumeric
      cases settled <;> cases w.isNumber <;> simp
    have htext : c.freshness ≠ .text := fun h => by simp [hc.freshness_eq_text_iff.mp h] at hnumeric
    rw [if_neg fun h => htext h.1, htried, hc.number_eq hnumeric]
    exact ⟨rfl, hc⟩
  have hnumeric := Bool.eq_false_of_not_eq_true hnumeric
  have htext := hc.freshness_eq_text_iff.mpr hnumeric
  obtain ⟨rfl, hw⟩ : settled = false ∧ w.isNumber = false := Bool.or_eq_false_iff.mp hnumeric
  have htried : w.isTried false = w.number?.isSome := by simp [Word.isTried, hw]
  rw [htried]
  by_cases hfailed : c.failed = true
  · -- the text was tried in vain
    rw [if_neg fun h => by simp [hfailed] at h, hc.failed hfailed]
    exact ⟨hc.number_zero hnumeric, hc⟩
  obtain ⟨hprintable, hc'⟩ := hc.printableValue
  rw [hnumeric] at hc'
  rw [if_pos ⟨htext, Bool.eq_false_of_not_eq_true hfailed⟩]
  dsimp only
  rw [hprintable, number?_printable hw]
  cases hn : w.number? with
  | some n => exact ⟨rfl, hc'.settle hn (hc'.freshness_eq_text_iff.mpr hnumeric)⟩
  | none => exact ⟨rfl, hc'.give_up hn⟩

/-- After it was asked for its number, a word is treated as a number exactly if it has one. -/
theorem isNumeric_isTried (hc : c.StandsFor w settled) :
    w.isNumeric (w.isTried settled) = w.number?.isSome := by
  have hsome : w.isNumeric settled = true → w.number?.isSome = true := fun h => by
    rw [hc.number_eq h]
    rfl
  revert hsome
  unfold Word.isTried Word.isNumeric
  cases settled <;> cases w.isNumber <;> cases w.number?.isSome <;> simp

theorem converts (hc : c.StandsFor w settled) :
    c.converts.1 = w.number?.isSome ∧ c.converts.2.StandsFor w (w.isTried settled) := by
  obtain ⟨-, hc'⟩ := hc.numberValue
  refine ⟨?_, hc'⟩
  have htext := hc'.freshness_eq_text_iff
  rw [hc.isNumeric_isTried] at htext
  show (c.numberValue.2.freshness != .text) = w.number?.isSome
  cases hsome : w.number?.isSome <;> simp [htext, hsome]

theorem isTried_isTried (w : Word) (settled : Bool) :
    w.isTried (w.isTried settled) = w.isTried settled := by
  simp [Word.isTried]

theorem tryNumber (hc : c.StandsFor w settled) :
    c.tryNumber.1 = w.number? ∧ c.tryNumber.2.StandsFor w (w.isTried settled) := by
  obtain ⟨hnumber, hc'⟩ := hc.numberValue
  obtain ⟨hconverts, hc''⟩ := hc'.converts
  rw [isTried_isTried] at hc''
  refine ⟨?_, hc''⟩
  unfold LazyWord.tryNumber
  dsimp only
  rw [hnumber, hconverts]
  unfold Word.value
  cases w.number? <;> rfl

theorem print (hc : c.StandsFor w settled) (o : PrintOptions) :
    (c.print o).1 = w.render settled o ∧ (c.print o).2.StandsFor w (w.isNumeric settled) := by
  unfold LazyWord.print Word.render
  by_cases hnumeric : w.isNumeric settled = true
  · have htext : c.freshness ≠ .text := fun h => by simp [hc.freshness_eq_text_iff.mp h] at hnumeric
    rw [if_pos htext, if_pos hnumeric]
    exact hc.rawValue
  have htext := hc.freshness_eq_text_iff.mpr (Bool.eq_false_of_not_eq_true hnumeric)
  rw [if_neg (not_not.mpr htext), if_neg hnumeric]
  -- a word of text is printed from its printable text, and in full from its raw text as well
  obtain ⟨hprintable, hc'⟩ := hc.printableValue
  obtain ⟨hraw, hc''⟩ := hc'.rawValue
  rw [isNumeric_isNumeric] at hc''
  dsimp only
  rw [hprintable, hraw]
  by_cases hdepth : o.depthLimit = some 0
  · rw [if_pos hdepth, if_pos hdepth]
    exact ⟨rfl, hc'⟩
  rw [if_neg hdepth, if_neg hdepth]
  cases o.full with
  | false => exact ⟨rfl, hc'⟩
  | true => exact ⟨rfl, hc''⟩

end StandsFor

end LazyWord

/-- A form is a text. -/
def Form.isText : Form → Bool
  | raw | printable | key => true
  | number | isNumber | number? => false

/-- Whether a word is settled after it was asked for a form. -/
def Form.settles (settled : Bool) (w : Word) (f : Form) : Bool :=
  if f.isText then w.isNumeric settled else w.isTried settled

/-- **Every form is the one of the word**, and what is kept stays right. -/
theorem LazyWord.StandsFor.tell {c : LazyWord} {w : Word} {settled : Bool}
    (hc : c.StandsFor w settled) (f : Form) :
    (c.tell f).1 = w.form f ∧ (c.tell f).2.StandsFor w (f.settles settled w) := by
  cases f with
  | raw => exact ⟨congrArg Reply.text hc.rawValue.1, hc.rawValue.2⟩
  | printable => exact ⟨congrArg Reply.text hc.printableValue.1, hc.printableValue.2⟩
  | key => exact ⟨congrArg Reply.text hc.keyValue.1, hc.keyValue.2⟩
  | number => exact ⟨congrArg Reply.number hc.numberValue.1, hc.numberValue.2⟩
  | isNumber => exact ⟨congrArg Reply.flag hc.converts.1, hc.converts.2⟩
  | number? =>
    exact ⟨congrArg (·.elim Reply.null Reply.number) hc.tryNumber.1, hc.tryNumber.2⟩

/-! ### What is known does not get lost -/

namespace LazyWord

/-- **What is known of a word may only grow**: its other form becomes known, and a text that was
tried in vain is not tried again. -/
structure Advances (c c' : LazyWord) : Prop where
  /-- The flag stays, or tells that both forms are known. -/
  freshness : c'.freshness = c.freshness ∨ c'.freshness = .clean
  /-- A failure stays. -/
  failed : c.failed = true → c'.failed = true

namespace Advances

variable {c c' c'' : LazyWord}

theorem refl (c : LazyWord) : c.Advances c := ⟨.inl rfl, id⟩

theorem trans (h : c.Advances c') (h' : c'.Advances c'') : c.Advances c'' where
  freshness := by
    rcases h'.freshness with heq | hclean
    · rw [heq]
      exact h.freshness
    · exact .inr hclean
  failed := h'.failed ∘ h.failed

theorem rawValue (c : LazyWord) : c.Advances c.rawValue.2 where
  freshness := by
    simp only [LazyWord.rawValue]
    split_ifs
    · exact .inr rfl
    · exact .inl rfl
  failed := id

theorem printableValue (c : LazyWord) : c.Advances c.printableValue.2 := by
  unfold LazyWord.printableValue
  cases c.printable? with
  | some t => exact refl c
  | none => exact ⟨(rawValue c).freshness, (rawValue c).failed⟩

theorem keyValue (c : LazyWord) : c.Advances c.keyValue.2 := by
  unfold LazyWord.keyValue
  cases c.key? with
  | some t => exact refl c
  | none => exact ⟨(printableValue c).freshness, (printableValue c).failed⟩

theorem numberValue (c : LazyWord) : c.Advances c.numberValue.2 := by
  unfold LazyWord.numberValue
  split_ifs with htry
  · dsimp only
    cases SharedValues.number? c.printableValue.1 with
    | some n => exact ⟨.inr rfl, (printableValue c).failed⟩
    | none => exact ⟨(printableValue c).freshness, fun _ => rfl⟩
  · exact refl c

theorem tryNumber (c : LazyWord) : c.Advances c.tryNumber.2 :=
  (numberValue c).trans (numberValue _)

theorem print (c : LazyWord) (o : PrintOptions) : c.Advances (c.print o).2 := by
  unfold LazyWord.print
  split_ifs
  · exact rawValue c
  · exact printableValue c
  · exact printableValue c
  · exact (printableValue c).trans (rawValue _)

theorem tell (c : LazyWord) (f : Form) : c.Advances (c.tell f).2 := by
  cases f with
  | raw => exact rawValue c
  | printable => exact printableValue c
  | key => exact keyValue c
  | number => exact numberValue c
  | isNumber => exact numberValue c
  | number? => exact tryNumber c

end Advances

end LazyWord

end SharedValues
