import SharedValues.Proofs.Number.Numeral
import SharedValues.Proofs.Session.Forms
import SharedValues.Proofs.Session.Interrupted
import SharedValues.Proofs.Word.Search

/-!
# Names and keys

Names are equal if their raw texts are the same in upper case, but they are looked up by keys, which
are the printable texts in upper case.  The two go together because it makes no difference whether
stand-ins are revealed before or after a text is put into upper case: the only characters that the
two steps have in common are those of ASCII, no stand-in stands for a letter, and no character has
a stand-in in its upper-case form.

A stand-in and the character that it stands for have one key, so words with equal keys need not be
equal.

## Main results

* `Text.upperChars_reveal`, `Text.upperCase_revealAll` — stand-ins are revealed before or after.
* `Session.equal_names_have_equal_keys` — what the keys of two words say about their equality.
-/

namespace SharedValues

open Operation

namespace Text

variable {c d : Char} {cs : List Char}

/-! ### Stand-ins in upper case -/

/-- The character that takes the place of what is no character is not a stand-in. -/
theorem reveal_ofNat {n : ℕ} (hn : 32 ≤ n) : reveal (Char.ofNat n) = Char.ofNat n := by
  rcases toNat_ofNat_eq_or n with hsame | hzero
  · exact reveal_of_le (by omega)
  · have hnull : Char.ofNat n = '\x00' := Char.toNat_inj.mp hzero
    rw [hnull]
    decide

/-- No upper-case form has a stand-in, save the one of the stand-in itself. -/
theorem reveal_of_mem_upperChars (hc : 128 ≤ c.toNat) (hd : d ∈ upperChars c) : reveal d = d := by
  -- no entry of the two case tables has a target among the stand-ins
  have htables : (caseExpansions.all fun p => p.2.all fun d => 32 ≤ d.toNat) = true ∧
      (caseRuns.all fun r => 32 ≤ r.target) = true := by
    decide +kernel
  -- the reader tries the expansions first, then the runs, and leaves the rest as they are
  unfold upperChars at hd
  rw [if_neg (by omega)] at hd
  split at hd
  · next cs hcs =>
    obtain ⟨_, _, hsplit, -⟩ := List.lookup_eq_some_iff.mp hcs
    have hexpansion := List.all_eq_true.mp htables.1 (c, cs) (by simp [hsplit])
    exact reveal_of_le (of_decide_eq_true (List.all_eq_true.mp hexpansion d hd))
  split at hd
  · next n hn =>
    obtain rfl := List.mem_singleton.mp hd
    obtain ⟨r, hr, hcapital⟩ := List.exists_of_findSome?_eq_some hn
    have htarget := of_decide_eq_true (List.all_eq_true.mp htables.2 r hr)
    unfold CaseRun.capital? at hcapital
    split at hcapital
    · obtain rfl := Option.some.inj hcapital
      exact reveal_ofNat (by omega)
    · simp at hcapital
  · obtain rfl := List.mem_singleton.mp hd
    exact reveal_of_le (by omega)

/-- **A stand-in can be revealed before or after a character is put into upper case.** -/
theorem upperChars_reveal (c : Char) : upperChars (reveal c) = (upperChars c).map reveal := by
  by_cases hc : c.toNat < 128
  · have hrevealed : (reveal c).toNat < 128 :=
      forall_ascii (p := fun c => (reveal c).toNat < 128) (by decide +kernel) hc
    rw [upperChars, upperChars, if_pos hrevealed, if_pos hc, List.map_singleton, reveal_toUpper]
  · rw [reveal_of_le (by omega)]
    refine (List.map_id _).symm.trans (List.map_congr_left fun d hd => ?_)
    exact (reveal_of_mem_upperChars (by omega) hd).symm

theorem flatMap_upperChars_map_reveal (cs : List Char) :
    (cs.map reveal).flatMap upperChars = (cs.flatMap upperChars).map reveal := by
  rw [List.flatMap_map, List.map_flatMap]
  exact List.flatMap_congr fun c _ => upperChars_reveal c

theorem upperCase_revealAll (s : String) : upperCase (revealAll s) = revealAll (upperCase s) := by
  rw [← String.toList_inj, toList_upperCase, toList_revealAll, toList_revealAll, toList_upperCase,
    flatMap_upperChars_map_reveal]

/-- A text without stand-ins is what it displays. -/
theorem revealAll_of_forall {s : String} (hs : ∀ c ∈ s.toList, c ∉ standIns.map Prod.fst) :
    revealAll s = s := by
  rw [revealAll, List.map_congr_left fun c hc => ?_, List.map_id, String.ofList_toList]
  rw [reveal, List.lookup_eq_none_iff.mpr fun p hp => ?_, Option.getD_none, id]
  exact bne_iff_ne.mpr fun hcp => hs c hc (hcp ▸ List.mem_map_of_mem hp)

end Text

/-! ### Keys -/

namespace Word

variable {v w : Word}

theorem key_eq_revealAll (w : Word) : w.key = Text.revealAll (Text.upperCase w.raw) :=
  Text.upperCase_revealAll w.raw

/-- The key of a word without stand-ins is its raw text in upper case. -/
theorem key_of_forall (hw : ∀ c ∈ w.raw.toList, c ∉ Text.standIns.map Prod.fst) :
    w.key = Text.upperCase w.raw := by
  rw [key, printable, Text.revealAll_of_forall hw]

theorem key_eq_of_sameText (h : sameText true v w = true) : v.key = w.key := by
  rw [key_eq_revealAll, key_eq_revealAll, beq_iff_eq.mp h]

end Word

/-! ### Answers -/

namespace Session

variable {t : Session} {name other : String} {x y : Addr} {v w : Word}

theorem isNumeric_of_freshness {settled : Bool} (h : v.freshness settled = .text) :
    v.isNumeric settled = false := by
  cases settled <;> cases v <;> first | rfl | simp [Word.freshness, Word.isNumber] at h

/-- Two texts are compared. -/
theorem ensures_wordEqual {s : Store} {Q : Bool → Store → Prop} {E : Fault → Store → Prop}
    (hx : s.heap.body x = .word v) (hy : s.heap.body y = .word w)
    (hv : v.freshness (s.settled.contains x) = .text)
    (hw : w.freshness (s.settled.contains y) = .text) (ignoreCase : Bool)
    (hQ : Q (Word.sameText ignoreCase v w) s) :
    Ensures ((Comparison.wordEqual ignoreCase).run x y) s Q E := by
  have hrun : (Query.wordsEqual ignoreCase x v y w : Query Fault Bool).run s.settled = _ :=
    Query.run_wordsEqual ..
  rw [isNumeric_of_freshness hv, isNumeric_of_freshness hw, if_neg Bool.false_ne_true,
    if_neg Bool.false_ne_true] at hrun
  exact (ensures_assert_word hx).mpr ((ensures_assert_word hy).mpr
    ((ensures_ask_of_ok hrun).mpr hQ))

/-- Two texts in registers are compared. -/
theorem answer_of_wordEqual (hname : t.value? name = some x) (hother : t.value? other = some y)
    (hx : t.store.heap.body x = .word v) (hy : t.store.heap.body y = .word w)
    (hv : v.freshness (t.store.settled.contains x) = .text)
    (hw : w.freshness (t.store.settled.contains y) = .text) (ignoreCase : Bool) :
    (t.step (.compare name (.wordEqual ignoreCase) (.register other))).1 =
      .reply (.flag (Word.sameText ignoreCase v w)) := by
  refine (step_of_answer (P := fun _ => True) (ensures_bind.mpr (ensures_value_of hname
    (ensures_bind.mpr (ensures_promise_of ?_ (ensures_withOperand.mpr
      (ensures_eval_register hother (ensures_step_holding.mpr (ensures_bind.mpr
        (ensures_on.mpr ?_)))))))))).1
  · rintro k ⟨⟩
    rw [Heap.kind, hx]
    rfl
  -- the second value has one more handle, and is the same word
  have hx' : (t.store.heap.retain y).body x = .word v := (Heap.body_retain ..).trans hx
  have hy' : (t.store.heap.retain y).body y = .word w := (Heap.body_retain ..).trans hy
  exact ensures_wordEqual (s := { t.store with heap := t.store.heap.retain y }) hx' hy' hv hw
    ignoreCase (ensures_pure.mpr ⟨rfl, trivial⟩)

/-- **Equal names have equal keys**: of two words in text form the keys are the same if the two are
equal with case ignored.  If there is no stand-in in their raw texts, the two are equal exactly if
the keys are the same. -/
theorem equal_names_have_equal_keys (hname : t.value? name = some x)
    (hother : t.value? other = some y) (hx : t.store.heap.body x = .word v)
    (hy : t.store.heap.body y = .word w)
    (hv : v.freshness (t.store.settled.contains x) = .text)
    (hw : w.freshness (t.store.settled.contains y) = .text) :
    ∃ (equal : Bool) (key key' : String),
      (t.step (.compare name (.wordEqual true) (.register other))).1 = .reply (.flag equal) ∧
      (t.step (.ask name .key)).1 = .reply (.text key) ∧
      (t.step (.ask other .key)).1 = .reply (.text key') ∧
      (equal = true → key = key') ∧
      ((∀ c ∈ v.raw.toList ++ w.raw.toList, c ∉ Text.standIns.map Prod.fst) →
        key = key' → equal = true) := by
  refine ⟨Word.sameText true v w, v.key, w.key, answer_of_wordEqual hname hother hx hy hv hw true,
    answer_of_form hname hx .key, answer_of_form hother hy .key, Word.key_eq_of_sameText,
    fun hplain hkeys => ?_⟩
  rw [Word.key_of_forall fun c hc => hplain c (List.mem_append_left _ hc),
    Word.key_of_forall fun c hc => hplain c (List.mem_append_right _ hc)] at hkeys
  exact beq_iff_eq.mpr hkeys

/-- A letter whose capital takes two letters, and a bracket that is stood in for. -/
theorem keys_of_expanded_names :
    let t := (run [.make (.text "a\x11ß" false) ⟨some "x", true⟩,
      .make (.text "A\x11sS" true) ⟨some "y", true⟩] {}).2
    (t.step (.compare "x" (.wordEqual true) (.register "y"))).1 = .reply (.flag true) ∧
      (t.step (.ask "x" .key)).1 = .reply (.text "A[SS") ∧
      (t.step (.ask "y" .key)).1 = .reply (.text "A[SS") := by
  intro t
  have hheld : t.value? "x" = some 0 ∧ t.value? "y" = some 1 ∧
      t.store.heap.body 0 = .word (.text "a\x11ß" false) ∧
      t.store.heap.body 1 = .word (.text "A\x11sS" true) ∧
      t.store.settled.contains 0 = false ∧ t.store.settled.contains 1 = false ∧
      Word.sameText true (.text "a\x11ß" false) (.text "A\x11sS" true) = true ∧
      (Word.text "a\x11ß" false).key = "A[SS" := by
    decide +kernel
  obtain ⟨hx, hy, hbody, hbody', hsettled, hsettled', hsame, hkey⟩ := hheld
  have htext : Word.freshness (t.store.settled.contains 0) (.text "a\x11ß" false) = .text := by
    rw [hsettled]
    rfl
  have htext' : Word.freshness (t.store.settled.contains 1) (.text "A\x11sS" true) = .text := by
    rw [hsettled']
    rfl
  -- the keys are got from the theorem; only the spelling of the first is computed
  obtain ⟨equal, key, key', hcompared, hasked, hasked', hkeys, -⟩ :=
    equal_names_have_equal_keys hx hy hbody hbody' htext htext'
  have hanswer := answer_of_wordEqual hx hy hbody hbody' htext htext' true
  rw [hsame] at hanswer
  have hasked'' : (t.step (.ask "x" .key)).1 = .reply (.text "A[SS") :=
    hkey ▸ answer_of_form hx hbody .key
  obtain rfl : true = equal := by simpa using hanswer.symm.trans hcompared
  obtain rfl := hkeys rfl
  exact ⟨hcompared, hasked'', hasked'.trans (hasked.symm.trans hasked'')⟩

/-- A blank and its stand-in have one key, but are not equal. -/
example : (Word.text "a b" false).key = (Word.text "A\x03b" false).key ∧
    Word.sameText true (.text "a b" false) (.text "A\x03b" false) = false := by
  decide +kernel

end Session

end SharedValues
