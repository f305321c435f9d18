import Mathlib.Data.List.Basic
import SharedValues.Word

/-!
# Reading full renderings

A word that is written in full is escaped: a backslash stands before every character that could be
taken for a blank, a bracket or a bar.  So a text that a full rendering writes can be told from
whatever follows it, as long as this starts with a blank or a closing bracket, and with it all the
texts inside of its brackets.  No two different texts are read in the same way.

## Main definitions

* `Token` — the texts of words without control characters, and of nested sequences of them.
* `Token.Ends` — a text that can follow.

## Main results

* `Token.escaped_append_inj` — an escaped text can be told from what follows.
* `Token.append_inj` — so can every token.
* `Token.bracketed_inj` — the texts inside of brackets can be told from each other.
-/

namespace SharedValues

namespace Token

/-- Further texts stand behind a blank each. -/
theorem intercalate_cons (t : List Char) (ts : List (List Char)) :
    [' '].intercalate (t :: ts) = t ++ ts.flatMap (' ' :: ·) := by
  induction ts generalizing t with
  | nil => simp
  | cons u ts ih =>
    rw [List.intercalate_cons_cons, ih u]
    simp

/-- A text without control characters, as a word is written in full. -/
def escaped (raw : List Char) : List Char :=
  raw.flatMap fun c => if Text.conceal c = c then [c] else ['\\', c]

/-- The brackets of a list or of an array. -/
def fence (square : Bool) : Char × Char := if square then ('[', ']') else ('\x7b', '\x7d')

/-- Texts inside of brackets. -/
def bracketed (square : Bool) (ts : List (List Char)) : List Char :=
  (fence square).1 :: [' '].intercalate ts ++ [(fence square).2]

/-- What follows a token is nothing, a blank, or a closing bracket. -/
def Ends (r : List Char) : Prop := ∀ c ∈ r.head?, c = ' ' ∨ c = ']' ∨ c = '\x7d'

end Token

open Token in
/-- **The texts that are written in full** for words without control characters, and for sequences
of such values. -/
inductive Token : List Char → Prop
  /-- A word. -/
  | word (raw : List Char) : (∀ c ∈ raw, Text.isControl c = false) → Token (Word.quoted raw)
  /-- A sequence. -/
  | sequence (square : Bool) (ts : List (List Char)) :
    (∀ t ∈ ts, Token t) → Token (bracketed square ts)

namespace Token

variable {c d : Char} {raw raw' r s t u : List Char} {ts us : List (List Char)}

/-! ### Escaped texts -/

/-- A character that has a stand-in is not one that has none. -/
theorem ne_of_conceal (hc : Text.conceal c = c) (hd : Text.conceal d ≠ d) : c ≠ d := by
  rintro rfl
  exact hd hc

theorem escaped_cons (c : Char) (raw : List Char) :
    escaped (c :: raw) = (if Text.conceal c = c then [c] else ['\\', c]) ++ escaped raw := rfl

/-- An escaped text starts with a backslash, or with a character that has no stand-in. -/
theorem exists_head_escaped (c : Char) (raw : List Char) :
    ∃ d rest, escaped (c :: raw) = d :: rest ∧ (d = '\\' ∨ Text.conceal d = d) := by
  rw [escaped_cons]
  split
  · next hc => exact ⟨c, _, rfl, Or.inr hc⟩
  · exact ⟨'\\', _, rfl, Or.inl rfl⟩

/-- Blanks and brackets, which end a token, have stand-ins. -/
theorem Ends.not_escaped (hr : Ends (c :: r)) : ¬(c = '\\' ∨ Text.conceal c = c) := by
  rcases hr c rfl with rfl | rfl | rfl <;> decide

/-- **An escaped text can be told from what follows.** -/
theorem escaped_append_inj (hr : Ends r) (hs : Ends s)
    (heq : escaped raw ++ r = escaped raw' ++ s) : raw = raw' ∧ r = s := by
  induction raw generalizing raw' with
  | nil =>
    cases raw' with
    | nil => exact ⟨rfl, heq⟩
    | cons d raw' =>
      obtain ⟨c, rest, hhead, hc⟩ := exists_head_escaped d raw'
      rw [hhead] at heq
      obtain rfl : r = c :: (rest ++ s) := heq
      exact absurd hc hr.not_escaped
  | cons c raw ih =>
    cases raw' with
    | nil =>
      obtain ⟨d, rest, hhead, hd⟩ := exists_head_escaped c raw
      rw [hhead] at heq
      obtain rfl : d :: (rest ++ r) = s := heq
      exact absurd hd hs.not_escaped
    | cons d raw' =>
      rw [escaped_cons, escaped_cons] at heq
      obtain ⟨hcd, hrest⟩ : c = d ∧ escaped raw ++ r = escaped raw' ++ s := by
        -- a backslash is escaped itself, so it is never taken for a character that is not
        have hback : Text.conceal '\\' ≠ '\\' := by decide
        split at heq
        · next hc =>
          split at heq
          · exact List.cons.inj heq
          · exact absurd (List.cons.inj heq).1 (ne_of_conceal hc hback)
        · split at heq
          · next hd => exact absurd (List.cons.inj heq).1.symm (ne_of_conceal hd hback)
          · exact List.cons.inj (List.cons.inj heq).2
      obtain ⟨rfl, rfl⟩ := ih hrest
      exact ⟨by rw [hcd], rfl⟩

/-- A word without control characters is escaped, or written as two bars if it is empty. -/
theorem quoted_eq (hraw : ∀ c ∈ raw, Text.isControl c = false) :
    Word.quoted raw = if raw = [] then ['|', '|'] else escaped raw := by
  have hany : raw.any Text.isControl = false := by simpa using hraw
  unfold Word.quoted
  rw [hany]
  cases raw <;> rfl

/-- A word starts with a bar, a backslash, or a character that has no stand-in. -/
theorem exists_head_quoted (hraw : ∀ c ∈ raw, Text.isControl c = false) :
    ∃ c rest, Word.quoted raw = c :: rest ∧ (c = '|' ∨ c = '\\' ∨ Text.conceal c = c) := by
  rw [quoted_eq hraw]
  split
  · exact ⟨'|', _, rfl, Or.inl rfl⟩
  · obtain ⟨c, raw, rfl⟩ := List.exists_cons_of_ne_nil ‹_›
    obtain ⟨d, rest, hhead, hd⟩ := exists_head_escaped c raw
    exact ⟨d, rest, hhead, Or.inr hd⟩

/-- A word can be told from what follows. -/
theorem quoted_append_inj (hraw : ∀ c ∈ raw, Text.isControl c = false)
    (hraw' : ∀ c ∈ raw', Text.isControl c = false) (hr : Ends r) (hs : Ends s)
    (heq : Word.quoted raw ++ r = Word.quoted raw' ++ s) : raw = raw' ∧ r = s := by
  -- no escaped text starts with a bar
  have hbar : ∀ {c raw r s}, escaped (c :: raw) ++ r ≠ '|' :: s := by
    intro c raw r s heq
    obtain ⟨d, rest, hhead, hd⟩ := exists_head_escaped c raw
    rw [hhead] at heq
    obtain rfl := (List.cons.inj heq).1
    revert hd
    decide
  rw [quoted_eq hraw, quoted_eq hraw'] at heq
  cases raw with
  | nil =>
    cases raw' with
    | nil => exact ⟨rfl, List.append_cancel_left heq⟩
    | cons d raw' => exact absurd heq.symm hbar
  | cons c raw =>
    cases raw' with
    | nil => exact absurd heq hbar
    | cons d raw' => exact escaped_append_inj hr hs heq

/-! ### Brackets -/

theorem ends_nil : Ends [] := by simp [Ends]

/-- The rest of a sequence can follow an element. -/
theorem ends_rest (square : Bool) (ts : List (List Char)) (r : List Char) :
    Ends (ts.flatMap (' ' :: ·) ++ (fence square).2 :: r) := by
  cases ts with
  | nil => cases square <;> simp [Ends, fence]
  | cons t ts => simp [Ends]

/-- A token does not start with what can follow one. -/
theorem exists_head (ht : Token t) :
    ∃ c rest, t = c :: rest ∧ c ≠ ' ' ∧ c ≠ ']' ∧ c ≠ '\x7d' := by
  cases ht with
  | word raw hraw =>
    obtain ⟨c, rest, hhead, hc⟩ := exists_head_quoted hraw
    refine ⟨c, rest, hhead, ?_⟩
    refine ⟨?_, ?_, ?_⟩ <;> rintro rfl <;> revert hc <;> decide
  | sequence square ts _ => exact ⟨_, _, rfl, by cases square <;> decide⟩

/-- A word does not start with a bracket. -/
theorem quoted_ne_bracketed (hraw : ∀ c ∈ raw, Text.isControl c = false) (square : Bool)
    (ts : List (List Char)) : Word.quoted raw ++ r ≠ bracketed square ts ++ s := by
  intro heq
  obtain ⟨c, rest, hhead, hc⟩ := exists_head_quoted hraw
  rw [hhead] at heq
  obtain rfl : c = (fence square).1 := (List.cons.inj heq).1
  revert hc
  cases square <;> decide

/-- The further elements of a sequence can be told from each other if each of them can be told from
what follows. -/
theorem rest_append_inj {square : Bool}
    (hinj : ∀ t ∈ ts, ∀ {u r s}, Token u → Ends r → Ends s → t ++ r = u ++ s → t = u ∧ r = s)
    (hus : ∀ u ∈ us, Token u)
    (heq : ts.flatMap (' ' :: ·) ++ (fence square).2 :: r =
      us.flatMap (' ' :: ·) ++ (fence square).2 :: s) : ts = us ∧ r = s := by
  -- a closing fence is no blank, so the end of the tokens is told from one more token
  have hfence : (fence square).2 ≠ ' ' := by cases square <;> decide
  induction ts generalizing us with
  | nil =>
    cases us with
    | nil => exact ⟨rfl, (List.cons.inj heq).2⟩
    | cons u us => exact absurd (List.cons.inj heq).1 hfence
  | cons t ts ih =>
    cases us with
    | nil => exact absurd (List.cons.inj heq).1.symm hfence
    | cons u us =>
      rw [List.flatMap_cons, List.flatMap_cons, List.append_assoc, List.append_assoc] at heq
      -- what follows the first token starts with a blank or a fence, so the tokens end at one place
      obtain ⟨rfl, hrest⟩ := hinj t List.mem_cons_self (hus u List.mem_cons_self)
        (ends_rest square ts r) (ends_rest square us s) (List.cons.inj heq).2
      obtain ⟨rfl, rfl⟩ := ih (fun t ht => hinj t (List.mem_cons_of_mem _ ht))
        (fun u hu => hus u (List.mem_cons_of_mem _ hu)) hrest
      exact ⟨rfl, rfl⟩

/-- The elements of a sequence can be told from each other. -/
theorem bracketed_append_inj {square square' : Bool} (hts : ∀ t ∈ ts, Token t)
    (hinj : ∀ t ∈ ts, ∀ {u r s}, Token u → Ends r → Ends s → t ++ r = u ++ s → t = u ∧ r = s)
    (hus : ∀ u ∈ us, Token u)
    (heq : bracketed square ts ++ r = bracketed square' us ++ s) :
    square = square' ∧ ts = us ∧ r = s := by
  have hopen := (List.cons.inj heq).1
  obtain rfl : square = square' := by
    revert hopen
    cases square <;> cases square' <;> decide
  have hinner : [' '].intercalate ts ++ (fence square).2 :: r =
      [' '].intercalate us ++ (fence square).2 :: s := by
    simpa [bracketed] using (List.cons.inj heq).2
  -- no token starts with a closing bracket
  have hclose : ∀ {t r s}, Token t → t ++ r ≠ (fence square).2 :: s := by
    intro t r s ht heq
    obtain ⟨c, rest, rfl, -, hsquare, hcurly⟩ := ht.exists_head
    have hc := (List.cons.inj heq).1
    cases square
    · exact hcurly hc
    · exact hsquare hc
  refine ⟨rfl, ?_⟩
  cases ts with
  | nil =>
    cases us with
    | nil => exact ⟨rfl, (List.cons.inj hinner).2⟩
    | cons u us =>
      rw [List.intercalate_nil, intercalate_cons, List.append_assoc] at hinner
      exact absurd hinner.symm (hclose (hus u List.mem_cons_self))
  | cons t ts =>
    cases us with
    | nil =>
      rw [List.intercalate_nil, intercalate_cons, List.append_assoc] at hinner
      exact absurd hinner (hclose (hts t List.mem_cons_self))
    | cons u us =>
      rw [intercalate_cons, intercalate_cons, List.append_assoc, List.append_assoc] at hinner
      obtain ⟨rfl, hrest⟩ := hinj t List.mem_cons_self (hus u List.mem_cons_self)
        (ends_rest square ts r) (ends_rest square us s) hinner
      obtain ⟨rfl, rfl⟩ := rest_append_inj (fun t ht => hinj t (List.mem_cons_of_mem _ ht))
        (fun u hu => hus u (List.mem_cons_of_mem _ hu)) hrest
      exact ⟨rfl, rfl⟩

/-- **A token can be told from what follows.** -/
theorem append_inj (ht : Token t) (hu : Token u) (hr : Ends r) (hs : Ends s)
    (heq : t ++ r = u ++ s) : t = u ∧ r = s := by
  induction ht generalizing u r s with
  | word raw hraw =>
    cases hu with
    | word raw' hraw' =>
      obtain ⟨rfl, rfl⟩ := quoted_append_inj hraw hraw' hr hs heq
      exact ⟨rfl, rfl⟩
    | sequence square us _ => exact absurd heq (quoted_ne_bracketed hraw square us)
  | sequence square ts hts ih =>
    cases hu with
    | word raw' hraw' => exact absurd heq.symm (quoted_ne_bracketed hraw' square ts)
    | sequence square' us hus =>
      obtain ⟨rfl, rfl, rfl⟩ := bracketed_append_inj hts (fun t ht _ _ _ => ih t ht) hus heq
      exact ⟨rfl, rfl⟩

/-- The texts inside of brackets can be told from each other. -/
theorem bracketed_inj {square square' : Bool} (hts : ∀ t ∈ ts, Token t) (hus : ∀ u ∈ us, Token u) :
    bracketed square ts = bracketed square' us ↔ square = square' ∧ ts = us := by
  refine ⟨fun heq => ?_, by rintro ⟨rfl, rfl⟩; rfl⟩
  obtain ⟨hsquare, hus, -⟩ := bracketed_append_inj (r := []) (s := []) hts
    (fun t ht _ _ _ => (hts t ht).append_inj) hus (by rw [heq])
  exact ⟨hsquare, hus⟩

/-- Words that are written alike have the same text. -/
theorem quoted_inj (hraw : ∀ c ∈ raw, Text.isControl c = false)
    (hraw' : ∀ c ∈ raw', Text.isControl c = false) :
    Word.quoted raw = Word.quoted raw' ↔ raw = raw' := by
  refine ⟨fun heq => ?_, congrArg _⟩
  exact (quoted_append_inj hraw hraw' ends_nil ends_nil (by rw [heq])).1

end Token

end SharedValues
