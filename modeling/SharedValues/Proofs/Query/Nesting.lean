import SharedValues.Proofs.Query.Isomorphism
import SharedValues.Proofs.Query.Token

/-!
# Equal values and equal texts

A comparison goes down two values side by side, and keeps a trail of the pairs that it is inside of.
A rendering goes down one of them, and keeps the sequences that it is writing.  For lists and arrays
that are not within themselves neither of the two records ever answers: a sequence is compared
element by element, and written by all of its elements, wherever it is met.  So both are determined
by the same tree.

What is left is to read the tree back from the text.  Words are told apart because they are escaped,
and the sequences around them because their texts are tokens.

## Main definitions

* `Heap.Nesting` — lists and arrays within each other, over words in text form.
* `Heap.fullText` — the text of a value, as it is shown in full.

## Main results

* `Nesting.written_eq` — a nesting is written in the same way wherever it is met.
* `Nesting.token` — the text of a nesting can be told from what follows.
* `Nesting.run_equalWithin` — the comparison of two nestings, inside of others.
* `equal_iff_shown_alike` — nestings are equal exactly if they are shown alike.
-/

namespace SharedValues

open Operation

namespace Heap

variable {h : Heap} {σ : Settled} {a b x y : Addr} {n m : ℕ} {writing writing' : List Addr}

/-- **A nesting**: lists and arrays within each other, over words in text form without control
characters.  Lists keep the right sizes, and no value is within one of its parts. -/
structure Nesting (h : Heap) (σ : Settled) (x : Addr) : Prop where
  /-- There are words, lists and arrays. -/
  form : ∀ a, h.Within x a → h.kind a = .word ∨ h.IsSequence a
  /-- The words are in text form, without control characters. -/
  word : ∀ a w, h.Within x a → h.body a = .word w →
    w.freshness (σ.contains a) = .text ∧ ∀ c ∈ w.raw.toList, Text.isControl c = false
  /-- The sizes of lists are the lengths of their chains. -/
  list : ∀ a l, h.Within x a → h.body a = .list l → ∃ cs, h.Chain l.head cs ∧ l.size = cs.length
  /-- No value is within one of its parts. -/
  acyclic : ∀ a, h.Within x a → ∀ b ∈ h.parts a, ¬h.Within b a

namespace Nesting

theorem part (hx : h.Nesting σ x) (hb : b ∈ h.parts x) : h.Nesting σ b where
  form a ha := hx.form a (.part hb ha)
  word a w ha := hx.word a w (.part hb ha)
  list a l ha := hx.list a l (.part hb ha)
  acyclic a ha := hx.acyclic a (.part hb ha)

theorem element (hx : h.Nesting σ x) (hseq : h.IsSequence x) (hb : b ∈ (h.elements x).found) :
    h.Nesting σ b ∧ h.Within x b ∧ ¬h.Within b x := by
  rw [← parts_of_sequence hseq] at hb
  exact ⟨hx.part hb, .part hb .refl, hx.acyclic x .refl b hb⟩

theorem legible (hx : h.Nesting σ x) : h.Legible x := by
  refine legible_of_kind_ne (fun a l ha hl => ?_) fun a ha => ?_
  · obtain ⟨cs, hcs, -⟩ := hx.list a l ha hl
    exact hcs.linked
  · rcases hx.form a ha with hkind | hseq
    · simp [hkind]
    · exact hseq.kind_ne

/-- From the elements of a sequence to the sequence: there are fewer values within them. -/
theorem induction {motive : ∀ x, h.Nesting σ x → Prop}
    (word : ∀ {x w} (hx : h.Nesting σ x), h.body x = .word w → motive x hx)
    (sequence : ∀ {x} (hx : h.Nesting σ x) (hseq : h.IsSequence x),
      (∀ b (hb : b ∈ (h.elements x).found), motive b (hx.element hseq hb).1) → motive x hx)
    {x : Addr} (hx : h.Nesting σ x) : motive x hx := by
  induction hk : h.places (h.Within x) using Nat.strong_induction_on generalizing x with
  | h k ih =>
    subst hk
    rcases hx.form x .refl with hkind | hseq
    · obtain ⟨w, hw⟩ := exists_word_of_kind hkind
      exact word hx hw
    · refine sequence hx hseq fun b hb => ih _ ?_ (hx.element hseq hb).1 rfl
      obtain ⟨-, hxb, hbx⟩ := hx.element hseq hb
      exact places_lt (fun c hc => hxb.trans hc) hseq.live .refl hbx

end Nesting

/-! ### Texts -/

/-- The text of a value, as it is shown in full. -/
def fullText (h : Heap) (σ : Settled) (x : Addr) : List Char :=
  (h.writtenOn σ [] .delimited .inFull x).toList

/-- Elements without limits are separated by blanks. -/
theorem writtenWalk_inFull (text : Addr → String) (found : List Addr) :
    writtenWalk text .inFull found = " ".intercalate (found.map text) := by
  cases found with
  | nil => rfl
  | cons e es => simp [writtenWalk, PrintOptions.inFull, texts, fitting]

namespace Nesting

/-- A word is shown as it is quoted. -/
theorem written_word (hx : h.Nesting σ x) {w : Word} (hw : h.body x = .word w)
    (hroom : h.Room n writing .delimited x) :
    (h.written σ n writing .delimited .inFull x).toList = Word.quoted w.raw.toList := by
  cases n with
  | zero => exact absurd hroom not_room_zero
  | succ n =>
    have htext := Word.freshness_eq_text_iff.mp (hx.word x w .refl hw).1
    rw [Heap.written_word _ _ _ _ _ hw, Word.render, htext]
    simp [PrintOptions.inFull]

/-- The elements of a sequence are shown inside of brackets, while it is being written. -/
theorem written_sequence (hseq : h.IsSequence x) (hnew : x ∉ writing) :
    (h.written σ (n + 1) writing .delimited .inFull x).toList =
      Token.bracketed (h.kind x == .list) ((h.elements x).found.map fun b =>
        (h.written σ n (x :: writing) .delimited .inFull b).toList) := by
  rw [written_delimited _ _ _ _ hseq, if_neg hnew, written_bare _ _ _ _ hseq]
  rw [show PrintOptions.inFull.deeper = .inFull from rfl, writtenWalk_inFull]
  rcases hseq with hkind | hkind <;>
    simp [hkind, brackets, Token.bracketed, Token.fence, Function.comp_def]

/-- **A nesting is shown in the same way wherever it is met**, as long as no sequence that is being
written is within it. -/
theorem written_eq (hx : h.Nesting σ x) (hn : h.Room n writing .delimited x)
    (hm : h.Room m writing' .delimited x) (hout : ∀ a ∈ writing, ¬h.Within x a)
    (hout' : ∀ a ∈ writing', ¬h.Within x a) :
    (h.written σ n writing .delimited .inFull x).toList =
      (h.written σ m writing' .delimited .inFull x).toList := by
  induction hx using Nesting.induction generalizing n m writing writing' with
  | word hx hw => rw [hx.written_word hw hn, hx.written_word hw hm]
  | @sequence x hx hseq ih =>
    cases n with
    | zero => exact absurd hn not_room_zero
    | succ n =>
      cases m with
      | zero => exact absurd hm not_room_zero
      | succ m =>
        have hnew : x ∉ writing := fun hmem => hout x hmem .refl
        have hnew' : x ∉ writing' := fun hmem => hout' x hmem .refl
        rw [written_sequence hseq hnew, written_sequence hseq hnew']
        refine congrArg _ (List.map_congr_left fun b hb => ?_)
        obtain ⟨-, hxb, hbx⟩ := hx.element hseq hb
        -- the sequence is now being written, and it is not within its element
        refine ih b hb ((hn.record hseq hnew).element hseq hb)
          ((hm.record hseq hnew').element hseq hb) ?_ ?_
        · exact List.forall_mem_cons.mpr ⟨hbx, fun a ha hba => hout a ha (hxb.trans hba)⟩
        · exact List.forall_mem_cons.mpr ⟨hbx, fun a ha hba => hout' a ha (hxb.trans hba)⟩

theorem fullText_word (hx : h.Nesting σ x) {w : Word} (hw : h.body x = .word w) :
    h.fullText σ x = Word.quoted w.raw.toList :=
  hx.written_word hw (room_start hx.legible [] .delimited)

theorem fullText_sequence (hx : h.Nesting σ x) (hseq : h.IsSequence x) :
    h.fullText σ x =
      Token.bracketed (h.kind x == .list) ((h.elements x).found.map (h.fullText σ)) := by
  have hroom := room_start hx.legible [] .delimited
  unfold fullText writtenOn
  generalize hlevels : (h.blocks.size + 2) * (h.blocks.size + 2) = levels at hroom
  cases levels with
  | zero => exact absurd hroom not_room_zero
  | succ n =>
    rw [written_sequence hseq List.not_mem_nil]
    refine congrArg _ (List.map_congr_left fun b hb => ?_)
    obtain ⟨hb', -, hbx⟩ := hx.element hseq hb
    rw [← hlevels]
    exact hb'.written_eq ((hroom.record hseq List.not_mem_nil).element hseq hb)
      (room_start hb'.legible [] .delimited) (by simpa using hbx) (by simp)

/-- The texts of nestings can be told from what follows. -/
theorem token (hx : h.Nesting σ x) : Token (h.fullText σ x) := by
  induction hx using Nesting.induction with
  | word hx hw =>
    rw [hx.fullText_word hw]
    exact .word _ (hx.word _ _ .refl hw).2
  | sequence hx hseq ih =>
    rw [hx.fullText_sequence hseq]
    refine .sequence _ _ fun t ht => ?_
    obtain ⟨b, hb, rfl⟩ := List.mem_map.mp ht
    exact ih b hb

/-- Words have the same text exactly if they are shown alike. -/
theorem fullText_eq_iff_of_words (hx : h.Nesting σ x) (hy : h.Nesting σ y) {v w : Word}
    (hv : h.body x = .word v) (hw : h.body y = .word w) :
    h.fullText σ x = h.fullText σ y ↔ v.raw = w.raw := by
  rw [hx.fullText_word hv, hy.fullText_word hw,
    Token.quoted_inj (hx.word x v .refl hv).2 (hy.word y w .refl hw).2, String.toList_inj]

/-- Sequences have elements that are shown alike exactly if they are. -/
theorem fullText_eq_iff_of_sequences (hx : h.Nesting σ x) (hy : h.Nesting σ y)
    (hseq : h.IsSequence x) (hseq' : h.IsSequence y) :
    h.fullText σ x = h.fullText σ y ↔ h.kind x = h.kind y ∧
      (h.elements x).found.map (h.fullText σ) = (h.elements y).found.map (h.fullText σ) := by
  have htokens : ∀ {z}, h.Nesting σ z → h.IsSequence z →
      ∀ t ∈ (h.elements z).found.map (h.fullText σ), Token t := by
    intro z hz hseqz t ht
    obtain ⟨b, hb, rfl⟩ := List.mem_map.mp ht
    exact (hz.element hseqz hb).1.token
  have hkinds : ((h.kind x == .list) = (h.kind y == .list)) ↔ h.kind x = h.kind y := by
    rcases hseq with hkind | hkind <;> rcases hseq' with hkind' | hkind' <;> simp [hkind, hkind']
  rw [hx.fullText_sequence hseq, hy.fullText_sequence hseq',
    Token.bracketed_inj (htokens hx hseq) (htokens hy hseq'), hkinds]

/-- A word is not shown like a sequence. -/
theorem fullText_ne_of_word (hx : h.Nesting σ x) (hy : h.Nesting σ y) {w : Word}
    (hw : h.body x = .word w) (hseq : h.IsSequence y) : h.fullText σ x ≠ h.fullText σ y := by
  rw [hx.fullText_word hw, hy.fullText_sequence hseq]
  intro heq
  exact Token.quoted_ne_bracketed (r := []) (s := []) (hx.word x w .refl hw).2 _ _ (by rw [heq])

/-- Values of different kinds are not shown alike. -/
theorem kind_eq_of_fullText (hx : h.Nesting σ x) (hy : h.Nesting σ y)
    (htext : h.fullText σ x = h.fullText σ y) : h.kind x = h.kind y := by
  rcases hx.form x .refl with hkind | hseq
  · rcases hy.form y .refl with hkind' | hseq'
    · rw [hkind, hkind']
    · obtain ⟨w, hw⟩ := exists_word_of_kind hkind
      exact absurd htext (hx.fullText_ne_of_word hy hw hseq')
  · rcases hy.form y .refl with hkind' | hseq'
    · obtain ⟨w, hw⟩ := exists_word_of_kind hkind'
      exact absurd htext.symm (hy.fullText_ne_of_word hx hw hseq)
    · exact ((hx.fullText_eq_iff_of_sequences hy hseq hseq').mp htext).1

end Nesting

/-! ### Comparisons -/

/-- Elements that compare equal if they have the same texts compare equal if the texts are the same
one by one. -/
theorem run_walksEqual_texts {ε : Type} {same : Addr → Addr → Query ε Bool} {halt : Fault → ε}
    {f g : Addr → List Char} {as bs : List Addr}
    (h : ∀ a ∈ as, ∀ b ∈ bs, (same a b).run σ = (.ok (decide (f a = g b)), σ)) :
    (walksEqual same halt as none bs none).run σ = (.ok (decide (as.map f = bs.map g)), σ) := by
  induction as generalizing bs with
  | nil => cases bs <;> rfl
  | cons a as ih =>
    cases bs with
    | nil => rfl
    | cons b bs =>
      have hrest := ih fun a ha b hb =>
        h a (List.mem_cons_of_mem _ ha) b (List.mem_cons_of_mem _ hb)
      rw [walksEqual, run_bind, h a List.mem_cons_self b List.mem_cons_self]
      -- the comparison goes on only after equal texts
      by_cases hab : f a = g b
      · simp only [hab, decide_true, if_true, List.map_cons, List.cons.injEq, true_and]
        exact hrest
      · simp [hab]
        rfl

namespace Nesting

/-- **Nestings compare equal exactly if they are shown alike**, and no word is settled by that. -/
theorem run_equalWithin (hx : h.Nesting σ x) (hy : h.Nesting σ y) {trail : Trail}
    (ht : h.Fits n trail) (hleft : ∀ p ∈ trail, ¬h.Within x p.1)
    (hright : ∀ p ∈ trail, ¬h.Within y p.2) :
    (h.equalWithin false n trail x y).run σ =
      (.ok (decide (h.fullText σ x = h.fullText σ y)), σ) := by
  induction n generalizing x y trail with
  | zero => exact absurd ht not_fits_zero
  | succ n ih =>
    by_cases hkind : h.kind x = h.kind y
    swap
    · rw [equalWithin, if_pos hkind, decide_eq_false (hkind ∘ hx.kind_eq_of_fullText hy)]
      rfl
    by_cases hsame : x = y
    · rw [equalWithin, if_neg (not_not.mpr hkind), if_pos hsame, hsame, decide_eq_true rfl]
      rfl
    rcases hx.form x .refl with hword | hseq
    · obtain ⟨v, hv⟩ := exists_word_of_kind hword
      obtain ⟨w, hw⟩ := exists_word_of_kind (hkind ▸ hword)
      rw [equalWithin, if_neg (not_not.mpr hkind), if_neg hsame, hv, hw]
      dsimp only
      rw [Query.run_wordsEqual, Word.freshness_eq_text_iff.mp (hx.word x v .refl hv).1,
        Word.freshness_eq_text_iff.mp (hy.word y w .refl hw).1]
      simp [Word.sameText, hx.fullText_eq_iff_of_words hy hv hw, beq_eq_decide]
    · have hseq' : h.IsSequence y := by
        unfold IsSequence at hseq ⊢
        rwa [← hkind]
      -- neither of the two is within itself, so they have not been entered
      have hnew : x ∉ trail.map Prod.fst := fun hmem => by
        obtain ⟨p, hp, rfl⟩ := List.mem_map.mp hmem
        exact hleft p hp .refl
      have hnew' : y ∉ trail.map Prod.snd := fun hmem => by
        obtain ⟨p, hp, rfl⟩ := List.mem_map.mp hmem
        exact hright p hp .refl
      have hiff := hx.fullText_eq_iff_of_sequences hy hseq hseq'
      rw [equalWithin_of_new hseq hkind hsame hnew hnew',
        hseq.extent_eq fun l hl => hx.list x l .refl hl,
        hseq'.extent_eq fun l hl => hy.list y l .refl hl]
      by_cases hlength : (h.elements x).found.length = (h.elements y).found.length
      swap
      · rw [if_pos hlength, decide_eq_false]
        · rfl
        · exact fun htext => hlength (by simpa using congrArg List.length (hiff.mp htext).2)
      rw [if_neg (not_not.mpr hlength), hx.legible.fault?, hy.legible.fault?]
      have helements : ∀ a ∈ (h.elements x).found, ∀ b ∈ (h.elements y).found,
          (h.equalWithin false n ((x, y) :: trail) a b).run σ =
            (.ok (decide (h.fullText σ a = h.fullText σ b)), σ) := by
        intro a ha b hb
        obtain ⟨hna, hxa, hax⟩ := hx.element hseq ha
        obtain ⟨hnb, hyb, hby⟩ := hy.element hseq' hb
        refine ih hna hnb (ht.enter hseq.live (Trail.level_eq_none_iff.mpr hnew)) ?_ ?_
        · exact List.forall_mem_cons.mpr ⟨hax, fun p hp hap => hleft p hp (hxa.trans hap)⟩
        · exact List.forall_mem_cons.mpr ⟨hby, fun p hp hbp => hright p hp (hyb.trans hbp)⟩
      rw [run_walksEqual_texts helements]
      simp [hiff, hkind]

end Nesting

/-! ### Equal exactly if shown alike -/

/-- **Equality and full rendering agree.**  Of two nestings the comparison has an answer, both have
a text in full, and they are equal exactly if the two texts are the same. -/
theorem equal_iff_shown_alike (hx : h.Nesting σ x) (hy : h.Nesting σ y) :
    ∃ r t u, (h.equal false x y).run σ = (.ok r, σ) ∧
      ((h.render .delimited .inFull x).run σ).1 = .ok t ∧
      ((h.render .delimited .inFull y).run σ).1 = .ok u ∧ (r = true ↔ t = u) := by
  refine ⟨decide (h.fullText σ x = h.fullText σ y), _, _,
    run_equal (hx.run_equalWithin hy (fits_nil h) (by simp) (by simp)),
    run_render hx.legible σ .delimited .inFull, run_render hy.legible σ .delimited .inFull, ?_⟩
  rw [decide_eq_true_eq, fullText, fullText, String.toList_inj]

/-- A value is a nesting if it is among some words, lists and arrays that are younger than their
parts, which are among them too. -/
theorem nesting_of_closed {S : List Addr} (hform : ∀ a ∈ S, h.kind a = .word ∨ h.IsSequence a)
    (hS : ∀ a ∈ S, ∀ b ∈ h.parts a, b ∈ S ∧ b < a)
    (hword : ∀ a ∈ S, ∀ w ∈ (h.body a).word?,
      w.freshness (σ.contains a) = .text ∧ w.raw.toList.any Text.isControl = false)
    (hlist : ∀ a ∈ S, ∀ l ∈ (h.body a).list?, ∃ cs, h.Chain l.head cs ∧ l.size = cs.length)
    (hx : x ∈ S) : h.Nesting σ x := by
  have hin : ∀ {a}, h.Within x a → a ∈ S := fun ha =>
    ha.mem (fun a ha b hb => (hS a ha b hb).1) hx
  -- parts have smaller addresses than the whole
  have hle : ∀ {a b}, a ∈ S → h.Within a b → b ∈ S ∧ b ≤ a := by
    intro a b ha hb
    induction hb with
    | refl => exact ⟨ha, Nat.le_refl _⟩
    | tail _ hpart ih =>
      obtain ⟨hmem, hlt⟩ := hS _ ih.1 _ hpart
      exact ⟨hmem, hlt.le.trans ih.2⟩
  exact {
    form := fun a ha => hform a (hin ha)
    word := by
      intro a w ha hw
      obtain ⟨hfresh, hcontrol⟩ := hword a (hin ha) w (by rw [hw]; rfl)
      exact ⟨hfresh, by simpa using hcontrol⟩
    list := fun a l ha hl => hlist a (hin ha) l (by rw [hl]; rfl)
    acyclic := by
      intro a ha b hb hba
      obtain ⟨hmem, hlt⟩ := hS a (hin ha) b hb
      exact absurd (hle hmem hba).2 (Nat.not_le_of_lt hlt) }

/-- Two words are not taken for one word with a blank in it. -/
theorem words_and_blank_told_apart :
    let s := (Session.run [
      .make (.array 1 [.list [.text "a" false, .text "b" false]]) ⟨some "x", true⟩,
      .make (.array 1 [.list [.text "a b" false]]) ⟨some "y", true⟩] {}).2.store
    s.heap.Nesting s.settled 6 ∧ s.heap.Nesting s.settled 10 ∧
      (s.heap.equal false 6 10).run s.settled = (.ok false, s.settled) ∧
      ((s.heap.render .delimited .inFull 6).run s.settled).1 ≠
        ((s.heap.render .delimited .inFull 10).run s.settled).1 := by
  intro s
  have hchain : s.heap.Chain 4 [4, 3] ∧ s.heap.Chain 8 [8] := by
    have hnothing : s.heap.kind 2 = .nothing := by decide +kernel
    exact ⟨.cons (by decide +kernel) (.cons (by decide +kernel) (.nil hnothing)),
      .cons (by decide +kernel) (.nil hnothing)⟩
  have hnesting : ∀ x ∈ [0, 1, 5, 6, 7, 9, 10], s.heap.Nesting s.settled x := by
    refine fun x hx => nesting_of_closed (by decide +kernel) (by decide +kernel)
      (by decide +kernel) (fun a ha l hl => ?_) hx
    -- both chains were made with the lists and end in the same nothing
    have hlists : ∀ a ∈ [0, 1, 5, 6, 7, 9, 10], ∀ l ∈ (s.heap.body a).list?,
        l.head = 4 ∧ l.size = 2 ∨ l.head = 8 ∧ l.size = 1 := by decide +kernel
    rcases hlists a ha l hl with ⟨hhead, hsize⟩ | ⟨hhead, hsize⟩
    · exact ⟨[4, 3], hhead ▸ hchain.1, hsize⟩
    · exact ⟨[8], hhead ▸ hchain.2, hsize⟩
  have hsix := hnesting 6 (by decide)
  have hten := hnesting 10 (by decide)
  have hfalse : ((s.heap.equal false 6 10).run s.settled).1 = .ok false := by decide +kernel
  obtain ⟨r, t, u, hrun, ht, hu, hiff⟩ := equal_iff_shown_alike hsix hten
  rw [hrun] at hfalse
  obtain rfl : r = false := Except.ok.inj hfalse
  refine ⟨hsix, hten, hrun, ?_⟩
  rw [ht, hu]
  exact fun heq => absurd (hiff.mpr (Except.ok.inj heq)) (by decide)

end Heap

end SharedValues
