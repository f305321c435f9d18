import SharedValues.Proofs.Number.Grammar
import SharedValues.Proofs.Session.Forms

/-!
# Words that are numbers

A text word has a number exactly if the text that it displays is a numeral, blanks around it aside.
Stand-ins count as the characters that they stand for, so that a sign or a blank may come from one.
It makes no difference whether the word was asked before, nor whether the reader of numbers behind
the test knows names of special values.

## Main results

* `Session.converts_iff_isNumeral` — the grammar of the texts that convert to numbers.
-/

namespace SharedValues

namespace Session

variable {t : Session} {name raw : String} {special : Bool} {x : Addr}

/-- **A text converts to a number exactly if it is a numeral**, blanks around it aside: the session
says so, and so does a word with caches in any of its states, and a reader behind the test of the
bytes that accepts all literals.  The name of a special value does not convert, and there is no
number exactly if the conversion fails. -/
theorem converts_iff_isNumeral (hname : t.value? name = some x)
    (hx : t.store.heap.body x = .word (.text raw special)) {read : List Char → Option Binary64}
    (hread : ∀ cs, (read cs).isSome = true ↔ Numeral.IsLiteral cs) :
    let text := (Text.revealAll raw).toList
    ∃ (converts : Bool) (number? : Option Binary64),
      (t.step (.ask name .isNumber)).1 = .reply (.flag converts) ∧
      (t.step (.ask name .number?)).1 = .reply (number?.elim .null .number) ∧
      (converts = true ↔ Numeral.IsNumeral (Text.strip text)) ∧
      (converts = true ↔ ∃ before cs after, text = before ++ (cs ++ after) ∧
        (∀ c ∈ before ++ after, Text.isBlank c = true) ∧ Numeral.IsNumeral cs) ∧
      (Numeral.IsSpecialName (Text.strip text) → converts = false) ∧
      (number? = none ↔ converts = false) ∧
      converts = (Numeral.readBy read text).isSome ∧
      ∀ (c : LazyWord) (settled : Bool), c.StandsFor (.text raw special) settled →
        c.converts.1 = converts ∧ c.tryNumber.1 = number? := by
  intro text
  let w := Word.text raw special
  have hnumber : w.number? = (Numeral.parse? (Text.strip text)).map Numeral.value := rfl
  have hconverts : w.number?.isSome = true ↔ Numeral.IsNumeral (Text.strip text) := by
    rw [hnumber, Option.isSome_map, Numeral.parse?_isSome_iff]
  refine ⟨w.number?.isSome, w.number?, answer_of_form hname hx .isNumber,
    answer_of_form hname hx .number?, hconverts,
    hconverts.trans (Numeral.isNumeral_strip_iff text), fun hspecial => ?_, ?_, ?_,
    fun c settled hc => ⟨hc.converts.1, hc.tryNumber.1⟩⟩
  · rw [Bool.eq_false_iff, ne_eq, hconverts]
    exact Numeral.not_isNumeral_of_isSpecialName hspecial
  · rw [Option.isSome_eq_false_iff, Option.isNone_iff_eq_none]
  · rw [Bool.eq_iff_iff, hconverts, Numeral.readBy_isSome_iff hread]

/-- A blank and a minus sign that are stood in for. -/
theorem converts_stand_ins :
    let t := (run [.make (.text "\x03\x13.5e+1 " false) ⟨some "x", true⟩] {}).2
    (t.step (.ask "x" .isNumber)).1 = .reply (.flag true) := by
  intro t
  have hheld : t.value? "x" = some 0 ∧
      t.store.heap.body 0 = .word (.text "\x03\x13.5e+1 " false) := by
    decide +kernel
  obtain ⟨converts, -, hanswer, -, -, hnumeral, -⟩ :=
    converts_iff_isNumeral hheld.1 hheld.2 Numeral.literal?_isSome_iff
  -- what is converted is the text as displayed, with the stand-ins revealed
  have htext : (Text.revealAll "\x03\x13.5e+1 ").toList =
      [' '] ++ (['-', '.', '5', 'e', '+', '1'] ++ [' ']) := by
    decide +kernel
  have hfive : Numeral.IsDigits ['5'] := ⟨by simp, by simp⟩
  have hone : Numeral.IsDigits ['1'] := ⟨by simp, by simp⟩
  have hspelt : Numeral.IsNumeral ['-', '.', '5', 'e', '+', '1'] :=
    .mk .minus (.fraction hfive) (.power (.inl rfl) .plus hone)
  rw [hanswer, hnumeral.mpr ⟨[' '], _, [' '], htext, by simp [Text.isBlank], hspelt⟩]

end Session

end SharedValues
