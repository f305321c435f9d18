import SharedValues.Proofs.Chain.Shared
import SharedValues.Proofs.Sequence.Report
import SharedValues.Proofs.Word.Bank
import SharedValues.Proofs.Word.Offsets

/-!
# Ways to the characters of a word

The number of characters, a cursor, an index, and the parts at both ends are found in ways of their
own: some count characters, and some cut the bytes of the text at an offset.  All of them find the
characters of the raw text, whether the word is a text or a number, and none of them cuts a
character apart.

## Main definitions

* `Store.Makes` — an operation makes a new word with some characters.
* `Store.Spells` — all that can be asked of a word by its characters is answered for one text.

## Main results

* `ensures_drain_word` — a cursor goes over the characters, from wherever it has come to.
* `word_access` — a word spells its raw text.
-/

namespace SharedValues

open Heap Operation

/-- The word at an address is the text with the given characters. -/
def Heap.HasText (h : Heap) (y : Addr) (cs : List Char) : Prop :=
  h.body y = .word (.text (String.ofList cs) false)

theorem Heap.hasText_text (h : Heap) (cs : List Char) :
    (h.text (String.ofList cs)).2.HasText (h.text (String.ofList cs)).1 cs :=
  (body_alloc ..).trans (if_pos rfl)

theorem Heap.HasText.of_grown {h g : Heap} {y : Addr} {cs : List Char} {new : List Addr}
    (hy : h.HasText y cs) (hg : h.Grown g new) : g.HasText y cs :=
  (hg.body_eq (live_of_body hy (by simp))).trans hy

/-- An operation makes a new word with the given characters, and nothing else. -/
def Store.Makes (s : Store) (op : Operation Addr) (cs : List Char) : Prop :=
  ∃ y t, op.run s = (.ok y, t) ∧ s.heap.Grown t.heap [y] ∧ t.heap.HasText y cs

namespace Part

/-- The name of the operation that asks for a part. -/
def op : Part → Op
  | first => .first
  | last => .last
  | butFirst => .butFirst
  | butLast => .butLast

/-- The operation that asks for a part. -/
def operation : Part → Addr → Operation Addr
  | first => Sequence.first
  | last => Sequence.last
  | butFirst => Sequence.butFirst
  | butLast => Sequence.butLast

end Part

/-- **All ways to the characters of the word `x` agree** on a text. -/
structure Store.Spells (s : Store) (x : Addr) (raw : String) : Prop where
  /-- The number of characters. -/
  size : ((ask (Sequence.size x)).run s).1 = .ok raw.toList.length
  /-- A new cursor goes over words of one character each.  So does a walk by the offsets of bytes,
  which never comes to one inside of a character. -/
  cursor : ∀ n, ∃ ys t, (Cursor.start x >>= Cursor.drain n).run s = (.ok ys, t) ∧
    List.Forall₂ (fun y c => t.heap.HasText y [c]) ys (raw.toList.take n) ∧
    Text.read? raw n 0 = some (raw.toList.take n)
  /-- Which indices mean a character. -/
  inRange : ∀ index : ℤ, ((ask (Sequence.inRange x index)).run s).1
    = .ok (decide (1 ≤ index ∧ index ≤ raw.toList.length))
  /-- The character at an index, counted from one. -/
  item : ∀ index : ℤ, 1 ≤ index ∧ index ≤ raw.toList.length →
    ∃ c, raw.toList[(index - 1).toNat]? = some c ∧ s.Makes (Sequence.item x index) [c]
  /-- There is no character at another index. -/
  refused : ∀ index : ℤ, ¬(1 ≤ index ∧ index ≤ raw.toList.length) →
    ((Sequence.item x index).run s).1
      = .error (.refused (.outOfRange .word index raw.toList.length))
  /-- The first character and the others. -/
  front : raw ≠ "" → ∃ c rest, s.Makes (Sequence.first x) [c] ∧
    s.Makes (Sequence.butFirst x) rest ∧ [c] ++ rest = raw.toList
  /-- The last character and the others. -/
  back : raw ≠ "" → ∃ rest c, s.Makes (Sequence.butLast x) rest ∧
    s.Makes (Sequence.last x) [c] ∧ rest ++ [c] = raw.toList
  /-- What is cut out of the bytes for one of these is a text, and it is the one that is made. -/
  cut : raw ≠ "" → ∀ part : Part, ∃ cs, part.cut? raw = some (String.ofList cs) ∧
    s.Makes (part.operation x) cs
  /-- The empty word has none of them. -/
  empty : raw = "" → ∀ part : Part, ((part.operation x).run s).1
    = .error (.refused (.emptySequence part.op .word))

section Characters

variable {s : Store} {h : Heap} {x base : Addr} {w : Word} {c : Char} {cs : List Char}
  {taken : ℕ}

/-! ### Questions for the characters -/

theorem Query.run_characters (w : Word) (x : Addr) (σ : Settled) :
    (w.characters x).run σ = (.ok w.raw.toList, σ.told x w) := by
  rw [Word.characters, run_bind, run_rawText]
  rfl

theorem Query.run_charactersOf (hx : h.body x = .word w) (σ : Settled) :
    (Cursor.charactersOf h x).run σ = (.ok w.raw.toList, σ.told x w) := by
  rw [Cursor.charactersOf, word_eq_ok hx]
  exact run_characters w x σ

theorem Query.run_size_word (hx : h.body x = .word w) (σ : Settled) :
    (Sequence.size x h).run σ = (.ok w.raw.toList.length, σ.told x w) := by
  rw [Sequence.size, hx, run_bind, run_characters]
  rfl

/-- The number of characters is not asked for when the index is below one. -/
theorem Query.run_inRange_word (hx : h.body x = .word w) (index : ℤ) (σ : Settled) :
    (Sequence.inRange x index h).run σ =
      (.ok (decide (1 ≤ index ∧ index ≤ w.raw.toList.length)),
        if index < 1 then σ else σ.told x w) := by
  rw [Sequence.inRange, hx]
  dsimp only
  by_cases hindex : index < 1
  · rw [if_pos hindex, if_pos hindex, decide_eq_false (by omega)]
    rfl
  · have hdecide : decide (1 ≤ index ∧ index ≤ (w.raw.toList.length : ℤ))
        = decide (index ≤ (w.raw.toList.length : ℤ)) := by
      rw [Bool.decide_and, decide_eq_true (by omega), Bool.true_and]
    rw [if_neg hindex, if_neg hindex, hdecide, run_bind, run_characters]
    rfl

/-! ### Words that are made -/

/-- A new word with some characters. -/
theorem makes_ofCharacters (s : Store) (cs : List Char) : s.Makes (Word.ofCharacters cs) cs :=
  ⟨_, _, rfl, (Grown.refl s.heap).alloc _, hasText_text s.heap cs⟩

/-- What is made after something has been settled is made from the same heap. -/
theorem Store.Makes.of_run {op op' : Operation Addr} {τ : Settled}
    (hmade : Store.Makes { s with settled := τ } op' cs)
    (hrun : op.run s = op'.run { s with settled := τ }) : s.Makes op cs := by
  obtain ⟨y, t, ht, hgrown, hy⟩ := hmade
  exact ⟨y, t, hrun.trans ht, hgrown, hy⟩

/-- The characters are asked for, and a word is made of some of them. -/
theorem run_part (hx : s.heap.body x = .word w) (part : Part) :
    (part.operation x).run s =
      (Word.someCharacters part.op x w >>= fun cs => Word.ofCharacters (part.of cs)).run s := by
  cases part with
  | first => exact (run_look_bind ..).trans (by rw [hx]; rfl)
  | last => exact (run_look_bind ..).trans (by rw [hx]; rfl)
  | butFirst => exact (run_look_bind ..).trans (by rw [hx]; rfl)
  | butLast => exact (run_look_bind ..).trans (by rw [hx]; rfl)

theorem run_ask_characters (s : Store) (x : Addr) (w : Word) :
    (ask fun _ => w.characters x).run s =
      (.ok w.raw.toList, { s with settled := s.settled.told x w }) :=
  run_ask (Query.run_characters w x s.settled)

theorem makes_part (hx : s.heap.body x = .word w) (hne : w.raw ≠ "") (part : Part) :
    s.Makes (part.operation x) (part.of w.raw.toList) := by
  refine (makes_ofCharacters _ (part.of w.raw.toList)).of_run (τ := s.settled.told x w) ?_
  have hsome : w.raw.toList.isEmpty = false := by simpa using hne
  rw [run_part hx, run_bind, Word.someCharacters, run_bind, run_ask_characters]
  dsimp only
  rw [hsome]
  rfl

theorem run_part_of_empty (hx : s.heap.body x = .word w) (hempty : w.raw = "") (part : Part) :
    ((part.operation x).run s).1 = .error (.refused (.emptySequence part.op .word)) := by
  have hnone : w.raw.toList.isEmpty = true := by simpa using hempty
  rw [run_part hx, run_bind, Word.someCharacters, run_bind, run_ask_characters]
  dsimp only
  rw [hnone]
  rfl

/-! ### Indices -/

/-- The character that an index means, or none. -/
theorem run_item_word (hx : s.heap.body x = .word w) (index : ℤ) :
    (Sequence.item x index).run s =
      ((if 1 ≤ index then w.raw.toList[index.toNat - 1]? else none).elim
        (throw (Fault.refused (.outOfRange .word index w.raw.toList.length)))
        fun c => Word.ofCharacters [c]).run { s with settled := s.settled.told x w } := by
  rw [Sequence.item, run_look_bind, hx]
  show (w.item x index).run s = _
  rw [Word.item, run_bind, run_ask_characters]
  dsimp only
  cases if 1 ≤ index then w.raw.toList[index.toNat - 1]? else none <;> rfl

theorem makes_item (hx : s.heap.body x = .word w) {index : ℤ}
    (hindex : 1 ≤ index ∧ index ≤ w.raw.toList.length) :
    ∃ c, w.raw.toList[(index - 1).toNat]? = some c ∧ s.Makes (Sequence.item x index) [c] := by
  have hlt : index.toNat - 1 < w.raw.toList.length := by omega
  have hslot : (index - 1).toNat = index.toNat - 1 := by omega
  refine ⟨w.raw.toList[index.toNat - 1], ?_, ?_⟩
  · rw [hslot, List.getElem?_eq_getElem hlt]
  · refine (makes_ofCharacters _ _).of_run (τ := s.settled.told x w) ?_
    rw [run_item_word hx, if_pos hindex.1, List.getElem?_eq_getElem hlt]
    rfl

theorem run_item_word_of_not_inRange (hx : s.heap.body x = .word w) {index : ℤ}
    (hindex : ¬(1 ≤ index ∧ index ≤ w.raw.toList.length)) :
    ((Sequence.item x index).run s).1
      = .error (.refused (.outOfRange .word index w.raw.toList.length)) := by
  have hnone : (if 1 ≤ index then w.raw.toList[index.toNat - 1]? else none) = none := by
    split_ifs with hlow
    · exact List.getElem?_eq_none (by omega)
    · rfl
  rw [run_item_word hx, hnone]
  rfl

/-! ### Cursors -/

theorem Query.run_hasMore_word (hx : h.body base = .word w) (taken : ℕ) (σ : Settled) :
    (Cursor.hasMore (.word base taken) h).run σ =
      (.ok (decide (taken < w.raw.toList.length)), σ.told base w) := by
  rw [Cursor.hasMore, run_bind, run_charactersOf hx]
  rfl

/-- Behind the last character a cursor stops. -/
theorem ensures_next_word_end {Q : Option Addr × Cursor → Store → Prop} {E : Fault → Store → Prop}
    (hx : s.heap.body base = .word w) (hend : w.raw.toList[taken]? = none) :
    Ensures (Cursor.next (.word base taken)) s Q E ↔
      Q (none, .word base taken) { s with settled := s.settled.told base w } := by
  have hmore := Query.run_hasMore_word hx taken s.settled
  rw [decide_eq_false (Nat.not_lt.mpr (List.getElem?_eq_none_iff.mp hend))] at hmore
  exact ensures_bind.trans (ensures_ask_of_ok hmore)

/-- Before a character it makes a word of it. -/
theorem ensures_next_word {Q : Option Addr × Cursor → Store → Prop} {E : Fault → Store → Prop}
    (hx : s.heap.body base = .word w) (hc : w.raw.toList[taken]? = some c) :
    Ensures (Cursor.next (.word base taken)) s Q E ↔
      Q (some (s.heap.text (String.ofList [c])).1, .word base (taken + 1))
        { heap := (s.heap.text (String.ofList [c])).2
          settled := (s.settled.told base w).told base w } := by
  have hmore := Query.run_hasMore_word hx taken s.settled
  rw [decide_eq_true (List.getElem?_eq_some_iff.mp hc).1] at hmore
  refine ensures_bind.trans ((ensures_ask_of_ok hmore).trans ?_)
  refine ensures_bind.trans ((ensures_ask_of_ok (s := { s with settled := _ })
    (Query.run_charactersOf hx _)).trans ?_)
  rw [hc]
  exact Iff.rfl

/-- **A cursor goes over the characters**, from wherever it has come to, and makes a word of each
of them. -/
theorem ensures_drain_word (hx : s.heap.body base = .word w) (n taken : ℕ) :
    Ensures (Cursor.drain n (.word base taken)) s
      (fun ys t => s.heap.Grown t.heap ys.reverse ∧
        List.Forall₂ (fun y c => t.heap.HasText y [c]) ys ((w.raw.toList.drop taken).take n))
      fun _ _ => False := by
  induction n generalizing s taken with
  | zero => exact ensures_pure.mpr ⟨.refl _, .nil⟩
  | succ n ih =>
    rw [Cursor.drain]
    refine ensures_bind.mpr ?_
    -- the cursor ends where the raw text does: past the last character it hands out nothing
    cases hc : w.raw.toList[taken]? with
    | none =>
      refine (ensures_next_word_end hx hc).mpr (ensures_pure.mpr ⟨.refl _, ?_⟩)
      rw [List.drop_eq_nil_of_le (List.getElem?_eq_none_iff.mp hc), List.take_nil]
      exact .nil
    | some c =>
      refine (ensures_next_word hx hc).mpr (ensures_bind.mpr ?_)
      -- each item is a new one-letter word, and the words handed out before it keep their texts
      have hgrown : s.heap.Grown (s.heap.text (String.ofList [c])).2 [_] :=
        (Grown.refl s.heap).alloc _
      have hmade := hasText_text s.heap [c]
      have hword := (hgrown.body_eq (live_of_body hx (by simp))).trans hx
      refine (ih (s := { s with heap := _, settled := _ }) hword (taken + 1)).mono ?_ fun _ _ => id
      rintro ys t ⟨hlater, hys⟩
      obtain ⟨hlt, rfl⟩ := List.getElem?_eq_some_iff.mp hc
      rw [List.drop_eq_getElem_cons hlt, List.take_succ_cons]
      refine ensures_pure.mpr ⟨?_, .cons (hmade.of_grown hlater) hys⟩
      rw [List.reverse_cons]
      exact hgrown.trans hlater

/-- So does a new cursor. -/
theorem run_drain_word (hx : s.heap.body x = .word w) (n : ℕ) :
    ∃ ys t, (Cursor.start x >>= Cursor.drain n).run s = (.ok ys, t) ∧
      List.Forall₂ (fun y c => t.heap.HasText y [c]) ys (w.raw.toList.take n) := by
  refine Ensures.exists_ok (ensures_bind.mpr (ensures_bind.mpr (ensures_look.mpr ?_)))
  rw [hx]
  refine ensures_bind.mpr (ensures_share.mpr (ensures_pure.mpr ?_))
  have hshared : (s.heap.retain x).body x = .word w := (body_retain ..).trans hx
  exact (ensures_drain_word (s := { s with heap := _ }) hshared n 0).mono (fun _ _ h => h.2)
    fun _ _ => id

/-! ### All of them -/

/-- **All ways to the characters of a word agree** on its raw text, which a number has too. -/
theorem word_access (hx : s.heap.body x = .word w) : s.Spells x w.raw where
  size := by rw [run_ask (Query.run_size_word hx _)]
  cursor n := by
    -- a cursor at the start reads the whole text, which is the case of nothing behind it
    obtain ⟨ys, t, hrun, hys⟩ := run_drain_word hx n
    have hread := Text.read?_append n "" w.raw
    rw [String.empty_append] at hread
    exact ⟨ys, t, hrun, hys, hread⟩
  inRange index := by rw [run_ask (Query.run_inRange_word hx index _)]
  item _ hindex := makes_item hx hindex
  refused _ hindex := run_item_word_of_not_inRange hx hindex
  front hne := by
    have hfirst := makes_part hx hne .first
    have hothers := makes_part hx hne .butFirst
    obtain ⟨c, cs, hcs⟩ := List.exists_cons_of_ne_nil (mt String.toList_eq_nil_iff.mp hne)
    rw [hcs] at hfirst hothers ⊢
    exact ⟨c, cs, hfirst, hothers, rfl⟩
  back hne := by
    have hothers := makes_part hx hne .butLast
    have hlast := makes_part hx hne .last
    -- the raw text is not empty, so it splits at its last character as it did at its first
    rcases List.eq_nil_or_concat w.raw.toList with hnil | ⟨cs, c, hcs⟩
    · exact absurd (String.toList_eq_nil_iff.mp hnil) hne
    · rw [hcs, List.concat_eq_append] at hothers hlast ⊢
      rw [Part.of, List.dropLast_concat] at hothers
      rw [Part.of, List.getLast?_concat] at hlast
      exact ⟨cs, c, hothers, hlast, rfl⟩
  cut hne part := ⟨_, part.cut?_eq w.raw, makes_part hx hne part⟩
  empty hempty part := run_part_of_empty hx hempty part

/-- A text with characters of one, two, three and four bytes, and a number. -/
theorem mixed_access :
    let s := (Session.run [.make (.text "aé€😀" false) ⟨some "x", true⟩,
      .make (.number (.ofNat 20)) ⟨some "y", true⟩] {}).2.store
    s.Spells 0 "aé€😀" ∧ s.Spells 1 "20" ∧
      Part.last.cut? "aé€😀" = some "😀" ∧ Part.butLast.cut? "aé€😀" = some "aé€" := by
  intro s
  have hbody : s.heap.body 0 = .word (.text "aé€😀" false) ∧
      s.heap.body 1 = .word (.number (.ofNat 20)) := by
    decide +kernel
  obtain ⟨htext, hnumber⟩ := hbody
  have hraw : (Word.number (.ofNat 20)).raw = "20" := by decide +kernel
  have hparts := fun part : Part => part.cut?_eq "aé€😀"
  exact ⟨word_access htext, hraw ▸ word_access hnumber, hparts .last, hparts .butLast⟩

end Characters

end SharedValues
