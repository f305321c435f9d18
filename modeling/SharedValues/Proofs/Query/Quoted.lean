import SharedValues.Proofs.Query.Isomorphism
import SharedValues.Proofs.Query.Token
import SharedValues.Proofs.Word.Bank

/-!
# Words written in full

A word is written in full so that a reader gets its raw text back.  There are three ways to write
it: two bars for the empty text, bars around a text with control characters, and a backslash before
each character that has a stand-in for all other texts.  The first character tells the three apart,
and escaped texts are never taken for each other.

Between bars the stand-ins are revealed and nothing is escaped.  So a visible character between bars
does not tell whether the text has that character or the stand-in for it.

## Main results

* `Token.quoted_eq_quoted_iff` — which texts are quoted alike.
* `Heap.in_full_eq_iff` — which words are written alike in full.
* `Heap.blank_and_stand_in_written_alike` — there are different ones.
-/

namespace SharedValues

/-- A text has a control character in it. -/
def Text.hasControl (s : String) : Bool := s.toList.any isControl

namespace Token

variable {raw raw' : List Char}

/-- A text with control characters is revealed between bars. -/
theorem quoted_of_control (hraw : raw.any Text.isControl = true) :
    Word.quoted raw = '|' :: raw.map Text.reveal ++ ['|'] := by
  have hne : raw.isEmpty = false := by
    cases raw with
    | nil => simp at hraw
    | cons c raw => rfl
  rw [Word.quoted, hne, hraw]
  rfl

/-- A text between bars is longer than two bars, and an escaped text does not start with a bar. -/
theorem quoted_ne_of_control (hraw : raw.any Text.isControl = true)
    (hraw' : raw'.any Text.isControl = false) : Word.quoted raw ≠ Word.quoted raw' := by
  have hplain : ∀ c ∈ raw', Text.isControl c = false := by simpa using hraw'
  intro heq
  rw [quoted_of_control hraw, quoted_eq hplain] at heq
  split at heq
  · have hlength := congrArg List.length heq
    obtain rfl : raw = [] := by simpa using hlength
    simp at hraw
  · obtain ⟨c, rest, rfl⟩ := List.exists_cons_of_ne_nil ‹_›
    obtain ⟨d, rest', hhead, hd⟩ := exists_head_escaped c rest
    rw [hhead] at heq
    obtain rfl : '|' = d := (List.cons.inj heq).1
    revert hd
    decide

/-- **Texts are quoted alike** if they are the same, or if both are written between bars and are the
same once their stand-ins are revealed. -/
theorem quoted_eq_quoted_iff (raw raw' : List Char) :
    Word.quoted raw = Word.quoted raw' ↔ raw = raw' ∨
      raw.any Text.isControl = true ∧ raw'.any Text.isControl = true ∧
        raw.map Text.reveal = raw'.map Text.reveal := by
  cases hraw : raw.any Text.isControl <;> cases hraw' : raw'.any Text.isControl
  · rw [quoted_inj (by simpa using hraw) (by simpa using hraw')]
    simp
  · have hne : raw ≠ raw' := fun heq => by simp [heq, hraw'] at hraw
    simp [hne, (quoted_ne_of_control hraw' hraw).symm]
  · have hne : raw ≠ raw' := fun heq => by simp [heq, hraw'] at hraw
    simp [hne, quoted_ne_of_control hraw hraw']
  · rw [quoted_of_control hraw, quoted_of_control hraw']
    have hsame : raw = raw' → raw.map Text.reveal = raw'.map Text.reveal := congrArg _
    simpa using hsame

end Token

namespace Heap

variable {h : Heap} {σ : Settled} {x y : Addr} {v w : Word}

/-- A word in text form is written in full as its raw text is quoted, and nothing is settled. -/
theorem run_render_inFull (hx : h.body x = .word v) (hv : v.freshness (σ.contains x) = .text) :
    (h.render .bare .inFull x).run σ = (.ok (String.ofList (Word.quoted v.raw.toList)), σ) := by
  have hnumeric := Word.freshness_eq_text_iff.mp hv
  -- a fresh word is quoted from its raw text, and printing it asks for no number
  have hform : v.render (σ.contains x) .inFull = String.ofList (Word.quoted v.raw.toList) := by
    rw [Word.render, hnumeric]
    rfl
  have htold : σ.told x v = σ := by
    rw [Settled.told, (isNumeric_eq_false.mp hnumeric).2]
    rfl
  obtain ⟨n, hn⟩ : ∃ n, (h.blocks.size + 2) * (h.blocks.size + 2) = n + 1 :=
    Nat.exists_eq_succ_of_ne_zero (by positivity)
  have hrun : (h.render .bare .inFull x).run σ =
      (((h.renderOn [] .bare .inFull x).run σ).1.mapError Prod.fst,
        ((h.renderOn [] .bare .inFull x).run σ).2) := rfl
  rw [hrun, renderOn, hn, renderWithin_word n [] .bare .inFull hx, Query.run_renderWord, hform,
    htold]
  rfl

/-- **Which words are written alike in full.**  Two words in text form are written as the same text
exactly if their raw texts are the same, or if both of these have control characters in them and are
displayed alike. -/
theorem in_full_eq_iff (hx : h.body x = .word v) (hy : h.body y = .word w)
    (hv : v.freshness (σ.contains x) = .text) (hw : w.freshness (σ.contains y) = .text) :
    ∃ t u, (h.render .bare .inFull x).run σ = (.ok t, σ) ∧
      (h.render .bare .inFull y).run σ = (.ok u, σ) ∧
      (t = u ↔ v.raw = w.raw ∨ Text.hasControl v.raw = true ∧ Text.hasControl w.raw = true ∧
        v.printable = w.printable) := by
  refine ⟨_, _, run_render_inFull hx hv, run_render_inFull hy hw, ?_⟩
  rw [String.ofList_inj, Token.quoted_eq_quoted_iff, String.toList_inj]
  simp [Text.hasControl, Word.printable, ← String.toList_inj]

/-- A bar is told from the stand-in for a bar, which is the only one of the two between bars. -/
theorem bar_and_stand_in_told_apart :
    let s := (Session.run [.make (.text "a|b" false) ⟨some "x", true⟩,
      .make (.text "a\x1db" false) ⟨some "y", true⟩] {}).2.store
    s.heap.body 0 = .word (.text "a|b" false) ∧ s.heap.body 1 = .word (.text "a\x1db" false) ∧
      (Word.text "a|b" false).freshness (s.settled.contains 0) = .text ∧
      (Word.text "a\x1db" false).freshness (s.settled.contains 1) = .text ∧
      ∃ t u, (s.heap.render .bare .inFull 0).run s.settled = (.ok t, s.settled) ∧
        (s.heap.render .bare .inFull 1).run s.settled = (.ok u, s.settled) ∧ t ≠ u := by
  intro s
  have hwords : s.heap.body 0 = .word (.text "a|b" false) ∧
      s.heap.body 1 = .word (.text "a\x1db" false) ∧
      (Word.text "a|b" false).freshness (s.settled.contains 0) = .text ∧
      (Word.text "a\x1db" false).freshness (s.settled.contains 1) = .text := by
    decide +kernel
  obtain ⟨hx, hy, hv, hw⟩ := hwords
  obtain ⟨t, u, ht, hu, halike⟩ := in_full_eq_iff hx hy hv hw
  refine ⟨hx, hy, hv, hw, t, u, ht, hu, fun heq => ?_⟩
  -- the two raw texts differ, and only one of them has a control character
  have hnot : ¬((Word.text "a|b" false).raw = (Word.text "a\x1db" false).raw ∨
      Text.hasControl (Word.text "a|b" false).raw = true ∧
        Text.hasControl (Word.text "a\x1db" false).raw = true ∧
        (Word.text "a|b" false).printable = (Word.text "a\x1db" false).printable) := by
    simp [Word.raw, Text.hasControl, Text.isControl]
  exact hnot (halike.mp heq)

/-- **Different words can be written alike in full.**  A blank and the stand-in for a blank are the
same between bars, to which the other one of the two leads in either text. -/
theorem blank_and_stand_in_written_alike :
    let s := (Session.run [.make (.text "a b\x03c" false) ⟨some "x", true⟩,
      .make (.text "a\x03b c" false) ⟨some "y", true⟩] {}).2.store
    s.heap.body 0 = .word (.text "a b\x03c" false) ∧
      s.heap.body 1 = .word (.text "a\x03b c" false) ∧
      (Word.text "a b\x03c" false).freshness (s.settled.contains 0) = .text ∧
      (Word.text "a\x03b c" false).freshness (s.settled.contains 1) = .text ∧
      "a b\x03c" ≠ "a\x03b c" ∧
      ((s.heap.render .bare .inFull 0).run s.settled).1 = .ok "|a b c|" ∧
      ((s.heap.render .bare .inFull 1).run s.settled).1 = .ok "|a b c|" := by
  decide +kernel

end Heap

end SharedValues
