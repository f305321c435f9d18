import SharedValues.Proofs.Word.Bank

/-!
# The forms of a word

Whatever a word was asked for before, by whatever commands, it has the forms that a copy of it has
which was just made.  All that changes is what is known of it, and that only grows: a word made from
a text or from a number turns out to be known in both forms, and a text that was tried in vain for
its number stays without one.

## Main results

* `Session.answer_of_form` — the forms of a word that a session answers with.
* `Session.word_of_copy` — a copy is the same word.
* `Session.forms_do_not_depend_on_order` — all forms are the ones of a copy.
-/

namespace SharedValues

open Heap Operation

namespace Session

variable {s t : Session} {name : String} {x : Addr} {w : Word}

/-! ### Answers -/

/-- A word in a register has its forms, whatever is settled. -/
theorem answer_of_form (hname : t.value? name = some x) (hx : t.store.heap.body x = .word w)
    (f : Form) : (t.step (.ask name f.question)).1 = .reply (w.form f) := by
  have hrun := (WordCall.form x f).run_operation (fun _ => w) (s := t.store) fun a ha => by
    obtain rfl : a = x := by simpa [WordCall.on] using ha
    exact hx
  refine (step_of_answer (P := fun _ => True) (ensures_bind.mpr (ensures_value_of hname
    (ensures_bind.mpr (ensures_on.mpr ((ensures_of_ok hrun).mpr ?_)))))).1
  exact ensures_pure.mpr ⟨rfl, trivial⟩

/-- What is known of a word in a register. -/
theorem answer_of_freshness (hname : t.value? name = some x)
    (hx : t.store.heap.body x = .word w) :
    (t.step (.ask name .freshness)).1 =
      .reply (.freshness (w.freshness (t.store.settled.contains x))) := by
  refine (step_of_answer (P := fun _ => True) (ensures_bind.mpr (ensures_value_of hname
    (ensures_bind.mpr (ensures_on.mpr ?_))))).1
  refine ensures_askWord (g := fun w settled => .freshness (w.freshness settled)) hx
    (r := t.store.settled.contains x) (σ := t.store.settled) rfl ?_
  exact ensures_pure.mpr ⟨rfl, trivial⟩

/-! ### Copies -/

/-- The word that a register is given. -/
theorem ensures_copy (t : Session) (w : Word) (copy : String) :
    Ensures (Step.perform (.make (.ofWord w) ⟨some copy, true⟩)) t
      (fun _ u => u.value? copy = some t.store.heap.blocks.size ∧
        (t.store.heap.alloc (.word w)).2.Thins u.store.heap) fun _ _ => False := by
  refine ensures_bind.mpr (ensures_bind.mpr (ensures_bound_of (by simp)
    (ensures_bind.mpr (ensures_get.mpr (ensures_on.mpr (ensures_make.mpr ?_))))))
  rw [Expr.eval_ofWord]
  refine ensures_bind.mpr (ensures_on.mpr (ensures_look.mpr ?_))
  refine ensures_bind.mpr (ensures_pure.mpr (ensures_bind.mpr ?_))
  exact (ensures_put copy _).mono
    (fun _ _ h => ensures_pure.mpr ⟨value?_of_lookup h.1, h.2⟩) fun _ _ => id

/-- **A copy is the same word.** -/
theorem word_of_copy (ht : t.Sound (fun held h => h.Exact held) 0) (w : Word) (copy : String) :
    let u := (t.step (.make (.ofWord w) ⟨some copy, true⟩)).2
    ∃ a, u.value? copy = some a ∧ u.store.heap.body a = .word w := by
  intro u
  have hsound : u.Sound (fun held h => h.Exact held) 0 :=
    kept_exact.step ht _ (Set.subset_univ _)
  obtain ⟨hvalue, hthins⟩ := step_of_ensures ((ensures_copy t w copy).mono (fun _ _ => id)
    fun _ _ => False.elim)
  have hlive : u.store.heap.Live t.store.heap.blocks.size :=
    (hsound.kept : u.store.heap.Exact _).live_of_held
      (Multiset.mem_add.mpr (.inl (mem_held_of_value? hvalue)))
  refine ⟨_, hvalue, (hthins.body_eq hlive).trans ?_⟩
  rw [body_alloc, if_pos rfl]

/-! ### Runs -/

/-- What is settled stays settled. -/
theorem concord_grown (σ₀ : Settled) : Concord fun _ σ τ => σ = τ ∧ σ₀ ≤ σ where
  steady _ hσ := hσ
  settle := by
    rintro h a w σ _ - - ⟨rfl, hσ⟩
    exact ⟨rfl, hσ.trans (Settled.le_insert σ a)⟩
  numeric := by
    rintro h a w σ _ - ⟨rfl, -⟩
    rfl

theorem settled_le_run (s : Session) (cs : List Command) :
    s.store.settled ≤ (s.run cs).2.store.settled := by
  have hstart : s.Synced (fun _ σ τ => σ = τ ∧ s.store.settled ≤ σ) s :=
    ⟨⟨rfl, rfl, le_refl _⟩, rfl, rfl, rfl⟩
  exact (run_synced (concord_grown _) hstart cs).store.settled.2

/-- Settled words have numbers, and go on to. -/
theorem backed_of_run (hs : s.store.settled.Backed s.store.heap) (cs : List Command) :
    (s.run cs).2.store.settled.Backed (s.run cs).2.store.heap := by
  have hstart : s.Synced (fun h σ τ => σ = τ ∧ σ.Backed h) s := ⟨⟨rfl, rfl, hs⟩, rfl, rfl, rfl⟩
  exact (run_synced concord_backed hstart cs).store.settled.2

/-- A word that is still in a register is the word that it was. -/
theorem word_of_run (hs : s.Sound (fun held h => h.Exact held) 0) (cs : List Command)
    (hname : (s.run cs).2.value? name = some x) (hx : s.store.heap.body x = .word w) :
    (s.run cs).2.store.heap.body x = .word w := by
  have hstart : s.Sound (fun held h => h.Exact held ∧ s.store.heap.Lasting h) 0 :=
    ⟨hs.sorted, hs.kept, .refl _⟩
  obtain ⟨hexact, hlasting⟩ :=
    ((kept_lasting s.store.heap).run cs (fun _ _ => Set.subset_univ _) hstart).kept
  exact hlasting.body_of_word hx
    (hexact.live_of_held (Multiset.mem_add.mpr (.inl (mem_held_of_value? hname))))

/-- What is known of a word only grows, and a word without a number stays a text. -/
theorem freshness_of_run (hs : s.store.settled.Backed s.store.heap) (cs : List Command)
    (hx : (s.run cs).2.store.heap.body x = .word w) :
    let known := w.freshness ((s.run cs).2.store.settled.contains x)
    (known = w.freshness (s.store.settled.contains x) ∨ known = .clean) ∧
      (w.number? = none → known = .text) := by
  intro known
  have hgrown := settled_le_run s cs x
  have hvalid := (backed_of_run hs cs).valid x w
  refine ⟨?_, fun hnone => ?_⟩
  -- a word may get settled, but it is never unsettled again
  · cases hold : s.store.settled.contains x with
    | true => exact .inl (by rw [← hgrown hold])
    | false =>
      cases hnew : (s.run cs).2.store.settled.contains x with
      | true => exact .inr (by simp [known, hnew, Word.freshness])
      | false => exact .inl (by simp [known, hnew])
  -- a text that converts to no number is never settled, as settled words have their numbers
  · have hsettled : (s.run cs).2.store.settled.contains x = false :=
      Bool.eq_false_of_not_eq_true fun h => by simp [hnone] at hvalid; exact hvalid h hx
    have hnumber : w.isNumber = false := by
      cases w with
      | text raw special => rfl
      | number value => simp [Word.number?] at hnone
    simp [known, hsettled, hnumber, Word.freshness]

/-! ### Words with caches -/

/-- After any calls, a word with caches has the forms of the word. -/
theorem tell_of_runAll (words : Addr → Word) (calls : List WordCall) (a : Addr) (f : Form) :
    ((WordCall.runAll calls (.ofWords words) a).tell f).1 = (words a).form f :=
  (((Bank.standsFor_ofWords words).runAll calls a).tell f).1

/-- A text that was tried in vain has no number, and is found to have none again. -/
theorem tell_of_failed (words : Addr → Word) (earlier later : List WordCall) (a : Addr) :
    let bank := WordCall.runAll earlier (.ofWords words)
    (bank a).failed = true →
      ((WordCall.runAll later bank a).tell .number).1 = .number .zero ∧
        ((WordCall.runAll later bank a).tell .isNumber).1 = .flag false := by
  intro bank hfailed
  have hnone : (words a).number? = none :=
    ((Bank.standsFor_ofWords words).runAll earlier a).failed hfailed
  rw [← WordCall.runAll_append, tell_of_runAll, tell_of_runAll]
  simp [Word.form, Word.value, hnone]

/-- **The forms of a word do not depend on the order in which they are asked for.**  After any
commands of a session, each form of a word is the one of a copy that was just made, and the one of a
word with caches after any calls.  What is known of the word only grows, and a text that was tried
in vain for its number stays without one.  The same is true of words with caches, and the words in a
heap answer every call as they do. -/
theorem forms_do_not_depend_on_order {made cs : List Command} (hs : (run made {}).2 = s)
    (ht : (s.run cs).2 = t) (hname : t.value? name = some x) (hx : s.store.heap.body x = .word w)
    (copy : String) :
    (∀ f : Form, ∃ r, (t.step (.ask name f.question)).1 = .reply r ∧
      ((t.step (.make (.ofWord w) ⟨some copy, true⟩)).2.step (.ask copy f.question)).1 = .reply r ∧
      ∀ (words : Addr → Word) (calls : List WordCall) (a : Addr), words a = w →
        ((WordCall.runAll calls (.ofWords words) a).tell f).1 = r) ∧
    (∃ known, (t.step (.ask name .freshness)).1 = .reply (.freshness known) ∧
      (known = w.freshness (s.store.settled.contains x) ∨ known = .clean) ∧
      (w.number? = none → known = .text)) ∧
    (∀ (words : Addr → Word) (earlier later : List WordCall) (a : Addr),
      let bank := WordCall.runAll earlier (.ofWords words)
      (bank a).Advances (WordCall.runAll later bank a) ∧
      ((bank a).failed = true →
        ((WordCall.runAll later bank a).tell .number).1 = .number .zero ∧
          ((WordCall.runAll later bank a).tell .isNumber).1 = .flag false)) ∧
    ∀ (u : Store) (words : Addr → Word) (bank : Bank) (call : WordCall),
      bank.StandsFor words u.settled → (∀ a ∈ call.on, u.heap.body a = .word (words a)) →
        (call.operation.run u).1 = .ok (call.run bank).1 ∧
          (call.run bank).2.StandsFor words (call.operation.run u).2.settled := by
  subst hs ht
  have hsound := exact_sound made
  have hsound' : ((run made {}).2.run cs).2.Sound (fun held h => h.Exact held) 0 :=
    kept_exact.run cs (fun _ _ => Set.subset_univ _) hsound
  have hword := word_of_run hsound cs hname hx
  refine ⟨fun f => ?_, ?_, fun words earlier later a => ?_, fun u words bank call hbank hu => ?_⟩
  -- the copy is a new word with the same text, so each form is told from the same data
  · obtain ⟨a, ha, hcopy⟩ := word_of_copy hsound' w copy
    refine ⟨w.form f, answer_of_form hname hword f, answer_of_form ha hcopy f, ?_⟩
    rintro words calls a rfl
    exact tell_of_runAll words calls a f
  · exact ⟨_, answer_of_freshness hname hword, freshness_of_run (backed_run made) cs hword⟩
  · exact ⟨Bank.advances_runAll later _ a, tell_of_failed words earlier later a⟩
  -- the lazy bank answers each call as the store does, from whatever was asked before
  · obtain ⟨hreply, hend⟩ := hbank.run call
    rw [call.run_operation words hu, hreply]
    exact ⟨rfl, hend⟩

/-- A word that was made from a text, asked for its key and compared with a number, spells the
number that a copy of it spells. -/
theorem forms_after_comparison :
    let s := (run [.make (.text "1.50" false) ⟨some "x", true⟩] {}).2
    let t := (s.run [.ask "x" .key, .compare "x" (.equal false) (.number (.ofNat 2))]).2
    let u := (t.step (.make (.text "1.50" false) ⟨some "y", true⟩)).2
    (t.step (.ask "x" .raw)).1 = (u.step (.ask "y" .raw)).1 ∧
      (t.step (.ask "x" .number?)).1 = (u.step (.ask "y" .number?)).1 := by
  intro s t u
  have hheld : t.value? "x" = some 0 ∧ s.store.heap.body 0 = .word (.text "1.50" false) := by
    decide +kernel
  obtain ⟨hforms, -⟩ := forms_do_not_depend_on_order rfl rfl hheld.1 hheld.2 "y"
  obtain ⟨_, hraw, hraw', -⟩ := hforms .raw
  obtain ⟨_, hnumber, hnumber', -⟩ := hforms .number?
  exact ⟨hraw.trans hraw'.symm, hnumber.trans hnumber'.symm⟩

end Session

end SharedValues
