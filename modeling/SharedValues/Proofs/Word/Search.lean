import Mathlib.Data.List.Forall2
import SharedValues.Proofs.Word.Characters

/-!
# The search for one word in another

A word is sought in another one character by character.  An occurrence is a part of the text with as
many characters as the text sought, each of which matches the one in its place; the search finds the
leftmost occurrence.  That is also what is found in the bytes of the texts, be it that the bytes of
the text sought are compared with those at every offset, or that its characters are compared with
the ones from the start of every character on.

Two texts are equal with case ignored if their upper-case forms are the same as a whole, which says
less: a character may have an upper-case form of several characters, and then equal texts need not
contain each other.

## Main definitions

* `Text.Occurs`, `Text.Leftmost` — an occurrence of a text in another one, and the leftmost one.
* `Text.findOffset?` — the offset in the bytes at which the search finds a text.
* `Store.Finds` — what is answered about the search for a word.

## Main results

* `Text.seek?_spec` — the search finds the leftmost occurrence.
* `Text.findOffset?_eq` — the bytes are cut where it starts.
* `word_search` — a word finds another one.
* `contains_of_equal` — which equal words contain each other.
-/

namespace SharedValues

open Heap Operation

namespace Text

variable {ignoreCase : Bool} {same : Char → Char → Bool} {a b : Char}
  {hay needle p m q rest cs ds : List Char}

/-! ### Occurrences -/

/-- Two characters match: they are the same, or their upper-case forms are if case is ignored. -/
def Match (ignoreCase : Bool) (a b : Char) : Prop :=
  if ignoreCase then upperChars a = upperChars b else a = b

/-- **An occurrence** of `needle` in `hay`: the part `m`, between `p` and `q`. -/
structure Occurs (ignoreCase : Bool) (hay needle p m q : List Char) : Prop where
  /-- It is a part of the text. -/
  split : hay = p ++ m ++ q
  /-- Its characters match the ones sought, one by one. -/
  letters : List.Forall₂ (Match ignoreCase) m needle

/-- The occurrence with the fewest characters before it. -/
structure Leftmost (ignoreCase : Bool) (hay needle p m q : List Char) : Prop
    extends Occurs ignoreCase hay needle p m q where
  /-- No other one has fewer. -/
  least : ∀ p' m' q', Occurs ignoreCase hay needle p' m' q' → p.length ≤ p'.length

/-- The comparison of two characters. -/
def matching (ignoreCase : Bool) : Char → Char → Bool :=
  if ignoreCase then sameLetter else (· == ·)

theorem matching_eq_true_iff : matching ignoreCase a b = true ↔ Match ignoreCase a b := by
  cases ignoreCase
  · exact beq_iff_eq
  · exact beq_iff_eq

/-- A text starts like another one if it starts with a match of it. -/
theorem startsLike_iff : startsLike same hay needle = true ↔
    ∃ m q, hay = m ++ q ∧ List.Forall₂ (fun a b => same a b = true) m needle := by
  induction needle generalizing hay with
  | nil =>
    rw [startsLike]
    exact ⟨fun _ => ⟨[], hay, rfl, .nil⟩, fun _ => rfl⟩
  | cons n needle ih =>
    cases hay with
    | nil =>
      rw [startsLike]
      refine ⟨fun h => absurd h Bool.false_ne_true, ?_⟩
      -- no letter is left in the text, so it cannot match one of the sought word
      rintro ⟨m, q, hsplit, hletters⟩
      obtain ⟨rfl, -⟩ := List.append_eq_nil_iff.mp hsplit.symm
      cases hletters
    | cons h hay =>
      rw [startsLike, Bool.and_eq_true, ih]
      constructor
      · rintro ⟨hsame, m, q, rfl, hletters⟩
        exact ⟨h :: m, q, rfl, .cons hsame hletters⟩
      · rintro ⟨m, q, hsplit, hletters⟩
        cases hletters with
        | cons hsame hletters =>
          obtain ⟨rfl, rfl⟩ := List.cons.inj hsplit
          exact ⟨hsame, _, q, rfl, hletters⟩

/-- **The search goes from left to right**: it stops at the first place where the rest of the text
starts like the text sought, or there is no such place. -/
theorem fromMatch?_spec (same : Char → Char → Bool) (hne : needle ≠ []) (hay : List Char) :
    (∃ p rest, hay = p ++ rest ∧ startsLike same rest needle = true ∧
      (∀ p' rest', hay = p' ++ rest' → startsLike same rest' needle = true →
        p.length ≤ p'.length) ∧
      fromMatch? same needle hay = some rest) ∨
    ((∀ p rest, hay = p ++ rest → startsLike same rest needle = false) ∧
      fromMatch? same needle hay = none) := by
  have hnil : startsLike same [] needle = false := by
    obtain ⟨n, ns, rfl⟩ := List.exists_cons_of_ne_nil hne
    rfl
  induction hay with
  | nil =>
    refine .inr ⟨fun p rest hsplit => ?_, rfl⟩
    rwa [(List.append_eq_nil_iff.mp hsplit.symm).2]
  | cons h hay ih =>
    rw [fromMatch?]
    -- a match at the first position is the leftmost; otherwise the positions all shift by one
    by_cases hstart : startsLike same (h :: hay) needle = true
    · refine .inl ⟨[], h :: hay, rfl, hstart, fun _ _ _ _ => Nat.zero_le _, if_pos hstart⟩
    · rw [if_neg hstart]
      rcases ih with ⟨p, rest, rfl, hrest, hleast, hfound⟩ | ⟨hmissing, hfound⟩
      · refine .inl ⟨h :: p, rest, rfl, hrest, ?_, hfound⟩
        intro p' rest' hsplit hrest'
        -- a match at the front was ruled out, so every other one starts in the tail
        cases p' with
        | nil => exact absurd (hsplit ▸ hrest') hstart
        | cons h' p' => exact Nat.succ_le_succ (hleast p' rest' (List.cons.inj hsplit).2 hrest')
      · refine .inr ⟨fun p rest hsplit => ?_, hfound⟩
        cases p with
        | nil =>
          obtain rfl : h :: hay = rest := hsplit
          exact Bool.eq_false_of_not_eq_true hstart
        | cons h' p => exact hmissing p rest (List.cons.inj hsplit).2

/-- What starts like the text sought starts with an occurrence. -/
theorem startsLike_matching_iff : startsLike (matching ignoreCase) rest needle = true ↔
    ∃ m q, rest = m ++ q ∧ List.Forall₂ (Match ignoreCase) m needle := by
  simp only [startsLike_iff, matching_eq_true_iff]

theorem seek?_eq (hne : needle ≠ []) :
    seek? ignoreCase hay needle = fromMatch? (matching ignoreCase) needle hay := by
  cases ignoreCase
  · rw [seek?, if_neg Bool.false_ne_true, if_neg (by simpa using hne)]
    rfl
  · rfl

/-- **The search finds the leftmost occurrence**, or there is none. -/
theorem seek?_spec (ignoreCase : Bool) (hay : List Char) (hne : needle ≠ []) :
    (∃ p m q, Leftmost ignoreCase hay needle p m q ∧
      seek? ignoreCase hay needle = some (m ++ q)) ∨
    ((∀ p m q, ¬Occurs ignoreCase hay needle p m q) ∧ seek? ignoreCase hay needle = none) := by
  rw [seek?_eq hne]
  rcases fromMatch?_spec (matching ignoreCase) hne hay with
    ⟨p, rest, hsplit, hrest, hleast, hfound⟩ | ⟨hmissing, hfound⟩
  -- the rest that starts with a match is the match and what follows it
  · obtain ⟨m, q, rfl, hletters⟩ := startsLike_matching_iff.mp hrest
    refine .inl ⟨p, m, q, ⟨⟨?_, hletters⟩, ?_⟩, hfound⟩
    · rw [hsplit, List.append_assoc]
    · rintro p' m' q' ⟨hsplit', hletters'⟩
      rw [List.append_assoc] at hsplit'
      exact hleast p' (m' ++ q') hsplit' (startsLike_matching_iff.mpr ⟨m', q', rfl, hletters'⟩)
  · refine .inr ⟨?_, hfound⟩
    rintro p m q ⟨hsplit, hletters⟩
    rw [List.append_assoc] at hsplit
    have hrest := hmissing p (m ++ q) hsplit
    rw [startsLike_matching_iff.mpr ⟨m, q, rfl, hletters⟩] at hrest
    exact absurd hrest (by simp)

/-- There is one leftmost occurrence. -/
theorem Leftmost.seek?_eq_some (hl : Leftmost ignoreCase hay needle p m q) (hne : needle ≠ []) :
    seek? ignoreCase hay needle = some (m ++ q) := by
  rcases seek?_spec ignoreCase hay hne with ⟨p', m', q', hl', hfound⟩ | ⟨hmissing, -⟩
  · have hlength : p.length = p'.length :=
      Nat.le_antisymm (hl.least _ _ _ hl'.toOccurs) (hl'.least _ _ _ hl.toOccurs)
    have hsplit := hl.split.symm.trans hl'.split
    rw [List.append_assoc, List.append_assoc] at hsplit
    rw [hfound, (List.append_inj hsplit hlength).2]
  · exact absurd hl.toOccurs (hmissing p m q)

/-- One of the occurrences is the leftmost. -/
theorem Occurs.exists_leftmost (hoccurs : Occurs ignoreCase hay needle p m q)
    (hne : needle ≠ []) : ∃ p m q, Leftmost ignoreCase hay needle p m q := by
  rcases seek?_spec ignoreCase hay hne with ⟨p, m, q, hl, -⟩ | ⟨hmissing, -⟩
  · exact ⟨p, m, q, hl⟩
  · exact absurd hoccurs (hmissing p m q)

theorem seek?_eq_none (hne : needle ≠ [])
    (hmissing : ∀ p m q, ¬Occurs ignoreCase hay needle p m q) :
    seek? ignoreCase hay needle = none := by
  rcases seek?_spec ignoreCase hay hne with ⟨p, m, q, hl, -⟩ | ⟨-, hnone⟩
  · exact absurd hl.toOccurs (hmissing p m q)
  · exact hnone

/-- The empty text occurs everywhere, but a search that ignores case does not look for it in the
empty text. -/
theorem isSome_seek?_iff (hne : ignoreCase = true → needle ≠ []) :
    (seek? ignoreCase hay needle).isSome = true ↔
      ∃ p m q, Occurs ignoreCase hay needle p m q := by
  by_cases hnil : needle = []
  · subst hnil
    obtain rfl : ignoreCase = false := by simpa using hne
    exact ⟨fun _ => ⟨[], [], hay, rfl, .nil⟩, fun _ => rfl⟩
  · rcases seek?_spec ignoreCase hay hnil with ⟨p, m, q, hl, hfound⟩ | ⟨hmissing, hfound⟩
    · rw [hfound]
      exact ⟨fun _ => ⟨p, m, q, hl.toOccurs⟩, fun _ => rfl⟩
    · rw [hfound]
      refine ⟨fun h => absurd h Bool.false_ne_true, ?_⟩
      rintro ⟨p, m, q, hoccurs⟩
      exact absurd hoccurs (hmissing p m q)

/-! ### Offsets -/

/-- The first offset at which the bytes of one text stand in those of another. -/
def findBytes? (hay needle : String) : Option ℕ :=
  (List.range (hay.utf8ByteSize + 1)).find? fun i =>
    decide ((hay.toByteArray.extract i (i + needle.utf8ByteSize)).data = needle.toByteArray.data)

/-- The offset at which the search finds a text.  The bytes are compared at every offset.  If case
is ignored, then the characters are, from the start of every one on. -/
def findOffset? (ignoreCase : Bool) (hay needle : String) : Option ℕ :=
  if ignoreCase then
    (offsets 0 hay.toList).find? fun i =>
      (cutFrom? hay i).any fun rest => startsLike sameLetter rest.toList needle.toList
  else findBytes? hay needle

/-- The characters are compared where the text is cut, and every cut is a text. -/
theorem find?_offsets (same : Char → Char → Bool) (p : String) (cs needle : List Char) :
    ((offsets p.utf8ByteSize cs).find? fun i =>
      (cutFrom? (p ++ String.ofList cs) i).any fun rest => startsLike same rest.toList needle) =
    (fromMatch? same needle cs).map fun rest =>
      (p ++ String.ofList cs).utf8ByteSize - (String.ofList rest).utf8ByteSize := by
  induction cs generalizing p with
  | nil => rfl
  | cons c cs ih =>
    rw [offsets, List.find?_cons, cutFrom?_append, Option.any_some, String.toList_ofList,
      fromMatch?]
    by_cases hstart : startsLike same (c :: cs) needle = true
    · rw [hstart, if_pos rfl, Option.map_some, String.utf8ByteSize_append, Nat.add_sub_cancel]
    · have hsplit : p ++ String.ofList (c :: cs) = (p ++ String.singleton c) ++ String.ofList cs :=
        String.toList_inj.mp (by simp)
      have hrest := ih (p ++ String.singleton c)
      rw [← hsplit, String.utf8ByteSize_append, String.utf8ByteSize_singleton] at hrest
      rw [Bool.eq_false_of_not_eq_true hstart, if_neg Bool.false_ne_true]
      exact hrest

/-- **The bytes of a text stand nowhere but where its characters do**: the first of them is the
first one of a character. -/
theorem extract_eq_iff {hay needle : String} (hne : needle ≠ "") {i : ℕ} :
    hay.toByteArray.extract i (i + needle.utf8ByteSize) = needle.toByteArray ↔
      ∃ p q, hay = p ++ needle ++ q ∧ i = p.utf8ByteSize := by
  constructor
  · intro hbytes
    have hsize := congrArg ByteArray.size hbytes
    have hpos : needle.utf8ByteSize ≠ 0 := mt String.utf8ByteSize_eq_zero_iff.mp hne
    rw [ByteArray.size_extract, String.size_toByteArray, String.size_toByteArray] at hsize
    -- the two byte strings are equally long, so the window lies within the text
    have hle : i + needle.utf8ByteSize ≤ hay.utf8ByteSize := by omega
    have hvalid := (String.Pos.Raw.isValidUTF8_extract_iff (s := hay) ⟨i⟩
      ⟨i + needle.utf8ByteSize⟩ (Nat.le_add_right ..) hle).mp (hbytes ▸ needle.isValidUTF8)
    have hcut : cut? hay i (i + needle.utf8ByteSize) = some needle := by
      -- a window that is valid UTF-8 is cut at boundaries, unless it is empty
      rcases hvalid with heq | ⟨hstart, hstop⟩
      · have : i = i + needle.utf8ByteSize := congrArg String.Pos.Raw.byteIdx heq
        omega
      · rw [cut?, if_pos ⟨hstart, hstop, Nat.le_add_right ..⟩, hbytes, fromUTF8?_toByteArray]
    obtain ⟨p, q, hsplit, hi, -⟩ := cut?_eq_some_iff.mp hcut
    exact ⟨p, q, hsplit, hi⟩
  · rintro ⟨p, q, rfl, rfl⟩
    exact extract_append p needle q

/-- The occurrences of a text whose case is not ignored. -/
theorem occurs_false_iff : Occurs false hay needle p m q ↔ m = needle ∧ hay = p ++ needle ++ q := by
  have hletters : List.Forall₂ (Match false) m needle ↔ m = needle := by
    show List.Forall₂ (fun a b => a = b) m needle ↔ m = needle
    rw [List.forall₂_eq_eq_eq]
  constructor
  · rintro ⟨hsplit, hm⟩
    obtain rfl := hletters.mp hm
    exact ⟨rfl, hsplit⟩
  · rintro ⟨rfl, hsplit⟩
    exact ⟨hsplit, hletters.mpr rfl⟩

theorem extract_eq_iff_occurs {hay needle : String} (hne : needle ≠ "") {i : ℕ} :
    hay.toByteArray.extract i (i + needle.utf8ByteSize) = needle.toByteArray ↔
      ∃ p q, Occurs false hay.toList needle.toList p needle.toList q ∧
        i = (String.ofList p).utf8ByteSize := by
  rw [extract_eq_iff hne]
  constructor
  · rintro ⟨p, q, rfl, rfl⟩
    refine ⟨p.toList, q.toList, occurs_false_iff.mpr ⟨rfl, by simp⟩, ?_⟩
    rw [String.ofList_toList]
  · rintro ⟨p, q, hoccurs, rfl⟩
    refine ⟨String.ofList p, String.ofList q, String.toList_inj.mp ?_, rfl⟩
    simpa using (occurs_false_iff.mp hoccurs).2

/-- The first of the offsets is the one of the leftmost occurrence. -/
theorem findBytes?_eq {hay needle : String} (hne : needle ≠ "") {p m q : List Char}
    (hl : Leftmost false hay.toList needle.toList p m q) :
    findBytes? hay needle = some (String.ofList p).utf8ByteSize := by
  obtain ⟨rfl, hsplit⟩ := occurs_false_iff.mp hl.toOccurs
  rw [findBytes?, List.find?_range_eq_some, decide_eq_true_iff, ← ByteArray.ext_iff,
    extract_eq_iff_occurs hne]
  refine ⟨⟨p, q, hl.toOccurs, rfl⟩, ?_, ?_⟩
  · have hhay : hay = String.ofList p ++ (needle ++ String.ofList q) :=
      String.toList_inj.mp (by simp [hsplit])
    rw [hhay, String.utf8ByteSize_append, List.mem_range]
    omega
  · -- an earlier offset would be the one of an occurrence with fewer characters before it
    intro j hj
    rw [Bool.not_eq_true', decide_eq_false_iff_not, ← ByteArray.ext_iff, extract_eq_iff_occurs hne]
    rintro ⟨p', q', hoccurs, rfl⟩
    have hsplit' := hoccurs.split
    rw [hsplit, List.append_assoc, List.append_assoc] at hsplit'
    obtain ⟨ds, rfl⟩ : p <+: p' := List.prefix_of_prefix_length_le ⟨_, rfl⟩
      ⟨_, hsplit'.symm⟩ (hl.least _ _ _ hoccurs)
    rw [String.ofList_append, String.utf8ByteSize_append] at hj
    omega

theorem findBytes?_eq_none {hay needle : String} (hne : needle ≠ "")
    (hmissing : ∀ p m q, ¬Occurs false hay.toList needle.toList p m q) :
    findBytes? hay needle = none := by
  rw [findBytes?, List.find?_range_eq_none]
  intro i _
  rw [Bool.not_eq_true', decide_eq_false_iff_not, ← ByteArray.ext_iff, extract_eq_iff_occurs hne]
  rintro ⟨p, q, hoccurs, -⟩
  exact hmissing _ _ _ hoccurs

/-- **What is found in the bytes is where the leftmost occurrence starts.** -/
theorem findOffset?_eq {hay needle : String} (hne : needle ≠ "") {p m q : List Char}
    (hl : Leftmost ignoreCase hay.toList needle.toList p m q) :
    findOffset? ignoreCase hay needle = some (String.ofList p).utf8ByteSize := by
  cases ignoreCase with
  | false => exact findBytes?_eq hne hl
  | true =>
    have hfound := hl.seek?_eq_some (mt String.toList_eq_nil_iff.mp hne)
    have hfind := find?_offsets sameLetter "" hay.toList needle.toList
    rw [String.empty_append, String.ofList_toList] at hfind
    have hhay : hay = String.ofList p ++ String.ofList (m ++ q) :=
      String.toList_inj.mp (by simpa using hl.split)
    rw [seek?, if_pos rfl] at hfound
    refine hfind.trans ?_
    rw [hfound, Option.map_some]
    conv_lhs => rw [hhay, String.utf8ByteSize_append, Nat.add_sub_cancel]

theorem findOffset?_eq_none {hay needle : String} (hne : needle ≠ "")
    (hmissing : ∀ p m q, ¬Occurs ignoreCase hay.toList needle.toList p m q) :
    findOffset? ignoreCase hay needle = none := by
  cases ignoreCase with
  | false => exact findBytes?_eq_none hne hmissing
  | true =>
    have hnone := seek?_eq_none (mt String.toList_eq_nil_iff.mp hne) hmissing
    have hfind := find?_offsets sameLetter "" hay.toList needle.toList
    rw [String.empty_append, String.ofList_toList] at hfind
    rw [seek?, if_pos rfl] at hnone
    refine hfind.trans ?_
    rw [hnone, Option.map_none]

end Text

/-! ### The search for a word -/

/-- **What is answered about the search** for the word `y` in the word `x`, whose raw texts are
`needle` and `hay`. -/
structure Store.Finds (s : Store) (ignoreCase : Bool) (x y : Addr) (hay needle : String) :
    Prop where
  /-- Whether there is an occurrence. -/
  contains : ∃ b, (((Comparison.wordContains ignoreCase).run x y).run s).1 = .ok b ∧
    (b = true ↔ ∃ p m q, Text.Occurs ignoreCase hay.toList needle.toList p m q)
  /-- One of the occurrences is the leftmost. -/
  leftmost : (∃ p m q, Text.Occurs ignoreCase hay.toList needle.toList p m q) →
    ∃ p m q, Text.Leftmost ignoreCase hay.toList needle.toList p m q
  /-- From there on the text is given back.  The bytes are cut at that place. -/
  found : ∀ p m q, Text.Leftmost ignoreCase hay.toList needle.toList p m q →
    s.Makes (Sequence.fromMember ignoreCase x y) (m ++ q) ∧
      Text.findOffset? ignoreCase hay needle = some (String.ofList p).utf8ByteSize ∧
      Text.cutFrom? hay (String.ofList p).utf8ByteSize = some (String.ofList (m ++ q))
  /-- If there is none, then the empty text is. -/
  missing : (∀ p m q, ¬Text.Occurs ignoreCase hay.toList needle.toList p m q) →
    s.Makes (Sequence.fromMember ignoreCase x y) [] ∧
      Text.findOffset? ignoreCase hay needle = none

section Words

variable {s : Store} {x y : Addr} {v w : Word} {ignoreCase : Bool} {rest : Option (List Char)}

theorem run_wordContains (hx : s.heap.body x = .word w) (hy : s.heap.body y = .word v) :
    (((Comparison.wordContains ignoreCase).run x y).run s).1
      = .ok (Text.seek? ignoreCase w.raw.toList v.raw.toList).isSome := by
  refine result_of_ensures ((ensures_assert_word hx).mpr ((ensures_assert_word hy).mpr
    (ensures_bind.mpr ?_)))
  refine (ensures_ask_of_ok (Query.run_wordSeek? ..)).mpr (ensures_pure.mpr ?_)
  rw [Word.seek?, Option.isSome_map]

theorem makes_fromMember (hx : s.heap.body x = .word w) (hy : s.heap.body y = .word v)
    (hseek : Text.seek? ignoreCase w.raw.toList v.raw.toList = rest) :
    s.Makes (Sequence.fromMember ignoreCase x y) (rest.getD []) := by
  refine (makes_ofCharacters _ (rest.getD [])).of_run (τ := (s.settled.told x w).told y v) ?_
  rw [Sequence.fromMember, run_look_bind, hx]
  show (demand (·.word y) >>= fun v => w.fromMember ignoreCase x y v).run s = _
  rw [run_bind, demand, run_check, word_eq_ok hy]
  show (w.fromMember ignoreCase x y v).run s = _
  rw [Word.fromMember, run_bind, run_ask (Query.run_wordSeek? ..), Word.seek?, hseek]
  cases rest <;> rfl

/-- **The search for a word** that is not empty. -/
theorem word_search (hx : s.heap.body x = .word w) (hy : s.heap.body y = .word v)
    (hne : v.raw ≠ "") (ignoreCase : Bool) : s.Finds ignoreCase x y w.raw v.raw where
  contains := ⟨_, run_wordContains hx hy,
    Text.isSome_seek?_iff fun _ => mt String.toList_eq_nil_iff.mp hne⟩
  leftmost := by
    rintro ⟨p, m, q, hoccurs⟩
    exact hoccurs.exists_leftmost (mt String.toList_eq_nil_iff.mp hne)
  found p m q hl := by
    have hraw : w.raw = String.ofList p ++ String.ofList (m ++ q) :=
      String.toList_inj.mp (by simpa using hl.split)
    refine ⟨makes_fromMember hx hy (hl.seek?_eq_some (mt String.toList_eq_nil_iff.mp hne)),
      Text.findOffset?_eq hne hl, ?_⟩
    rw [hraw, Text.cutFrom?_append]
  missing hmissing :=
    have hnone := Text.seek?_eq_none (mt String.toList_eq_nil_iff.mp hne) hmissing
    ⟨makes_fromMember hx hy hnone, Text.findOffset?_eq_none hne hmissing⟩

/-- The first character matches at every place of `éÉé`, the second one behind the last of them. -/
theorem overlapping_search :
    let s := (Session.run [.make (.text "éÉéaÉA" false) ⟨some "x", true⟩,
      .make (.text "éa" false) ⟨some "y", true⟩] {}).2.store
    (Word.text "éa" false).raw ≠ "" ∧ s.Finds true 0 1 "éÉéaÉA" "éa" ∧
      s.Makes (Sequence.fromMember true 0 1) "éaÉA".toList ∧
      Text.findOffset? true "éÉéaÉA" "éa" = some 4 := by
  intro s
  have hbody : s.heap.body 0 = .word (.text "éÉéaÉA" false) ∧
      s.heap.body 1 = .word (.text "éa" false) := by
    decide +kernel
  obtain ⟨hhay, hneedle⟩ := hbody
  have hne : (Word.text "éa" false).raw ≠ "" := by decide
  have hfinds : s.Finds true 0 1 "éÉéaÉA" "éa" := word_search hhay hneedle hne true
  have hchars : "éa".toList ≠ [] := by decide
  have hseek : Text.seek? true "éÉéaÉA".toList "éa".toList = some "éaÉA".toList := by
    decide +kernel
  have hsome : (Text.seek? true "éÉéaÉA".toList "éa".toList).isSome = true := by rw [hseek]; rfl
  -- what is before the leftmost occurrence is known from what is found
  obtain ⟨p, m, q, hl⟩ := hfinds.leftmost
    ((Text.isSome_seek?_iff fun _ => hchars).mp hsome)
  have hrest : m ++ q = "éaÉA".toList :=
    Option.some.inj ((hl.seek?_eq_some hchars).symm.trans hseek)
  have hbefore : p = "éÉ".toList := by
    have hsplit : "éÉ".toList ++ "éaÉA".toList = p ++ "éaÉA".toList :=
      hl.split.trans (by rw [List.append_assoc, hrest])
    exact (List.append_cancel_right hsplit).symm
  obtain ⟨hmade, hoffset, -⟩ := hfinds.found p m q hl
  rw [hrest] at hmade
  rw [hbefore] at hoffset
  exact ⟨hne, hfinds, hmade, hoffset⟩

/-! ### Equal words -/

namespace Text

variable {a b m n p q cs : List Char}

/-- Every character has an upper-case form. -/
theorem upperChars_ne_nil (c : Char) : upperChars c ≠ [] := by
  have hexpansions : (caseExpansions.all fun p => !p.2.isEmpty) = true := by decide +kernel
  unfold upperChars
  split
  · simp
  split
  · next cs hcs =>
    obtain ⟨_, _, hsplit, -⟩ := List.lookup_eq_some_iff.mp hcs
    have hsome := List.all_eq_true.mp hexpansions (c, cs) (by simp [hsplit])
    simpa using hsome
  split <;> simp

theorem flatMap_upperChars_eq_nil_iff : cs.flatMap upperChars = [] ↔ cs = [] := by
  cases cs with
  | nil => exact Iff.rfl
  | cons c cs => simp [upperChars_ne_nil c]

/-- The form of a text in which it is compared: all of its characters together. -/
def folded (ignoreCase : Bool) (cs : List Char) : List Char :=
  if ignoreCase then cs.flatMap upperChars else cs

theorem folded_append (ignoreCase : Bool) (cs ds : List Char) :
    folded ignoreCase (cs ++ ds) = folded ignoreCase cs ++ folded ignoreCase ds := by
  cases ignoreCase
  · rfl
  · exact List.flatMap_append

theorem folded_eq_nil_iff : folded ignoreCase cs = [] ↔ cs = [] := by
  cases ignoreCase
  · exact Iff.rfl
  · exact flatMap_upperChars_eq_nil_iff

theorem folded_eq_of_match (h : List.Forall₂ (Match ignoreCase) m n) :
    folded ignoreCase m = folded ignoreCase n := by
  induction h with
  | nil => rfl
  | @cons c d cs ds hmatch _ ih =>
    have hone : folded ignoreCase [c] = folded ignoreCase [d] := by
      cases ignoreCase
      · exact congrArg (fun c => [c]) hmatch
      · exact congrArg (· ++ []) hmatch
    rw [← List.singleton_append, folded_append, ih, hone, ← folded_append, List.singleton_append]

/-- **Of two texts that are the same as a whole, one is contained in the other only as a whole**:
nothing of it is left over. -/
theorem exists_occurs_iff (hfold : folded ignoreCase a = folded ignoreCase b) :
    (∃ p m q, Occurs ignoreCase a b p m q) ↔ List.Forall₂ (Match ignoreCase) a b := by
  constructor
  · rintro ⟨p, m, q, rfl, hletters⟩
    -- the folded texts are equally long, so no letter stands before the occurrence or behind it
    have hlength := congrArg List.length hfold
    rw [folded_append, folded_append, ← folded_eq_of_match hletters, List.length_append,
      List.length_append] at hlength
    have hp : folded ignoreCase p = [] := List.eq_nil_of_length_eq_zero (by omega)
    have hq : folded ignoreCase q = [] := List.eq_nil_of_length_eq_zero (by omega)
    obtain rfl := folded_eq_nil_iff.mp hp
    obtain rfl := folded_eq_nil_iff.mp hq
    rwa [List.nil_append, List.append_nil]
  · intro hletters
    exact ⟨[], a, [], by simp, hletters⟩

theorem forall₂_match_comm :
    List.Forall₂ (Match ignoreCase) a b ↔ List.Forall₂ (Match ignoreCase) b a := by
  have hflip : flip (Match ignoreCase) = Match ignoreCase := by
    funext c d
    cases ignoreCase
    · exact propext eq_comm
    · exact propext eq_comm
  constructor
  · intro h
    exact (hflip ▸ h).flip
  · intro h
    exact (hflip ▸ h).flip

/-- Upper-case forms of one character each can be told apart in the text as a whole. -/
theorem forall₂_of_flatMap_upperChars (hfold : a.flatMap upperChars = b.flatMap upperChars)
    (hone : ∀ c ∈ a ++ b, (upperChars c).length = 1) : List.Forall₂ (Match true) a b := by
  induction a generalizing b with
  | nil =>
    obtain rfl := flatMap_upperChars_eq_nil_iff.mp hfold.symm
    exact .nil
  | cons c cs ih =>
    cases b with
    | nil => exact absurd (flatMap_upperChars_eq_nil_iff.mp hfold) (List.cons_ne_nil c cs)
    | cons d ds =>
      rw [List.flatMap_cons, List.flatMap_cons] at hfold
      -- two forms of one character each are taken off at the same place
      have hlength : (upperChars c).length = (upperChars d).length :=
        (hone c (by simp)).trans (hone d (by simp)).symm
      obtain ⟨hhead, htail⟩ := List.append_inj hfold hlength
      refine .cons hhead (ih htail fun e he => hone e ?_)
      rcases List.mem_append.mp he with he | he <;> simp [he]

theorem forall₂_match_of_folded (hfold : folded ignoreCase a = folded ignoreCase b)
    (hone : ignoreCase = true → ∀ c ∈ a ++ b, (upperChars c).length = 1) :
    List.Forall₂ (Match ignoreCase) a b := by
  cases ignoreCase with
  | false =>
    show List.Forall₂ (fun a b => a = b) a b
    rwa [List.forall₂_eq_eq_eq]
  | true => exact forall₂_of_flatMap_upperChars hfold (hone rfl)

end Text

variable {a b : String} {special special' : Bool}

theorem sameText_iff : Word.sameText ignoreCase (.text a special) (.text b special') = true ↔
    Text.folded ignoreCase a.toList = Text.folded ignoreCase b.toList := by
  cases ignoreCase with
  | false => exact beq_iff_eq.trans String.toList_inj.symm
  | true =>
    refine beq_iff_eq.trans (String.toList_inj.symm.trans ?_)
    rw [Text.toList_upperCase, Text.toList_upperCase]
    exact Iff.rfl

theorem run_wordEqual (hx : s.heap.body x = .word (.text a special))
    (hy : s.heap.body y = .word (.text b special')) (hxs : s.settled.contains x = false)
    (hys : s.settled.contains y = false) :
    (((Comparison.wordEqual ignoreCase).run x y).run s).1
      = .ok (Word.sameText ignoreCase (.text a special) (.text b special')) := by
  have hrun : (Query.wordsEqual ignoreCase x (.text a special) y (.text b special') :
      Query Fault Bool).run s.settled = _ := Query.run_wordsEqual ..
  rw [Word.isNumeric_text, Word.isNumeric_text, hxs, hys, if_neg Bool.false_ne_true,
    if_neg Bool.false_ne_true] at hrun
  exact result_of_ensures ((ensures_assert_word hx).mpr ((ensures_assert_word hy).mpr
    ((ensures_ask_of_ok hrun).mpr rfl)))

/-- **Which equal words contain each other.**  Two words in text form are equal; if case is ignored,
they are not both empty.  Then each of them contains the other exactly if their characters match one
by one.  They do if case is not ignored, or if every character has one upper-case form. -/
theorem contains_of_equal (hx : s.heap.body x = .word (.text a special))
    (hy : s.heap.body y = .word (.text b special')) (hxs : s.settled.contains x = false)
    (hys : s.settled.contains y = false) (hne : ignoreCase = true → b ≠ "")
    (hequal : (((Comparison.wordEqual ignoreCase).run x y).run s).1 = .ok true) :
    (∃ r, (((Comparison.wordContains ignoreCase).run x y).run s).1 = .ok r ∧
      (r = true ↔ List.Forall₂ (Text.Match ignoreCase) a.toList b.toList)) ∧
    (∃ r, (((Comparison.wordContains ignoreCase).run y x).run s).1 = .ok r ∧
      (r = true ↔ List.Forall₂ (Text.Match ignoreCase) a.toList b.toList)) ∧
    ((ignoreCase = true → ∀ c ∈ a.toList ++ b.toList, (Text.upperChars c).length = 1) →
      (((Comparison.wordContains ignoreCase).run x y).run s).1 = .ok true ∧
      (((Comparison.wordContains ignoreCase).run y x).run s).1 = .ok true) := by
  rw [run_wordEqual hx hy hxs hys] at hequal
  have hfold := sameText_iff.mp (Except.ok.inj hequal)
  -- the folding empties no text, so if one of the two words is empty the other one is
  have hsome : ignoreCase = true → a.toList ≠ [] ∧ b.toList ≠ [] := by
    intro hcase
    have hb : b.toList ≠ [] := mt String.toList_eq_nil_iff.mp (hne hcase)
    refine ⟨fun ha => hb ?_, hb⟩
    rw [ha] at hfold
    exact Text.folded_eq_nil_iff.mp (hfold.symm.trans (Text.folded_eq_nil_iff.mpr rfl))
  have hleft := (Text.isSome_seek?_iff fun h => (hsome h).2).trans (Text.exists_occurs_iff hfold)
  have hright := (Text.isSome_seek?_iff fun h => (hsome h).1).trans
    (Text.exists_occurs_iff hfold.symm)
  rw [Text.forall₂_match_comm] at hright
  have hrun : (((Comparison.wordContains ignoreCase).run x y).run s).1 = _ :=
    run_wordContains hx hy
  have hrun' : (((Comparison.wordContains ignoreCase).run y x).run s).1 = _ :=
    run_wordContains hy hx
  refine ⟨⟨_, hrun, hleft⟩, ⟨_, hrun', hright⟩, fun hone => ?_⟩
  have hletters := Text.forall₂_match_of_folded hfold hone
  rw [hrun, hrun']
  exact ⟨congrArg _ (hleft.mpr hletters), congrArg _ (hright.mpr hletters)⟩

/-- Words that differ in case contain each other. -/
theorem equal_contained :
    let s := (Session.run [.make (.text "straSSe" false) ⟨some "x", true⟩,
      .make (.text "STRASSE" true) ⟨some "y", true⟩] {}).2.store
    s.heap.body 0 = .word (.text "straSSe" false) ∧ s.heap.body 1 = .word (.text "STRASSE" true) ∧
      s.settled.contains 0 = false ∧ s.settled.contains 1 = false ∧
      (true = true → "STRASSE" ≠ "") ∧
      (((Comparison.wordEqual true).run 0 1).run s).1 = .ok true ∧
      (((Comparison.wordContains true).run 0 1).run s).1 = .ok true ∧
      (((Comparison.wordContains true).run 1 0).run s).1 = .ok true := by
  intro s
  have hfacts : s.heap.body 0 = .word (.text "straSSe" false) ∧
      s.heap.body 1 = .word (.text "STRASSE" true) ∧ s.settled.contains 0 = false ∧
      s.settled.contains 1 = false ∧
      (((Comparison.wordEqual true).run 0 1).run s).1 = .ok true := by
    decide +kernel
  obtain ⟨hx, hy, hxs, hys, hequal⟩ := hfacts
  have hne : true = true → "STRASSE" ≠ "" := fun _ => by decide
  obtain ⟨-, -, hboth⟩ := contains_of_equal hx hy hxs hys hne hequal
  have hone : ("straSSe".toList ++ "STRASSE".toList).all
      (fun c => (Text.upperChars c).length == 1) = true := by decide +kernel
  obtain ⟨hleft, hright⟩ := hboth fun _ c hc => beq_iff_eq.mp (List.all_eq_true.mp hone c hc)
  exact ⟨hx, hy, hxs, hys, hne, hequal, hleft, hright⟩

/-- A character whose upper-case form has two characters is equal to these two, but neither of the
words contains the other. -/
theorem equal_not_contained :
    let s := (Session.run [.make (.text "ß" false) ⟨some "x", true⟩,
      .make (.text "SS" false) ⟨some "y", true⟩] {}).2.store
    s.heap.body 0 = .word (.text "ß" false) ∧ s.heap.body 1 = .word (.text "SS" false) ∧
      s.settled.contains 0 = false ∧ s.settled.contains 1 = false ∧
      (((Comparison.wordEqual true).run 0 1).run s).1 = .ok true ∧
      (((Comparison.wordContains true).run 0 1).run s).1 = .ok false ∧
      (((Comparison.wordContains true).run 1 0).run s).1 = .ok false := by
  decide +kernel

end Words

end SharedValues
