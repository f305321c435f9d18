import SharedValues.Proofs.Heap.Lasting
import SharedValues.Proofs.Query.Repeat
import SharedValues.Proofs.Query.Written

/-!
# How a text is displayed

A word that was made from a text is displayed with its stand-ins revealed.  Asking for one of its
forms should not change that, but a text that is asked for its number and spells one is treated as a
number from then on, and numbers are displayed by their raw text.  So such a text is displayed with
its stand-ins left in place.

## Main definitions

* `Command.consults` — the commands that ask for the forms of the word in a register, or compare it.
* `Session.asksNumber` — some of these commands ask the word for its number.
* `Session.Shows` — the register still holds the word, settled or not.

## Main results

* `Shows.step`, `Shows.run` — what these commands settle.
* `Session.displayed_iff` — exactly when a text is still displayed with its stand-ins revealed.
* `Session.displayed_raw` — it not always is.
-/

namespace SharedValues

open Heap Operation

/-! ### Stand-ins -/

namespace Text

/-- A text is displayed as it is exactly if there are no stand-ins in it. -/
theorem revealAll_eq_self_iff {t : String} : revealAll t = t ↔ ∀ c ∈ t.toList, reveal c = c := by
  rw [← String.toList_inj, toList_revealAll]
  simpa using List.map_inj_left (f := reveal) (g := id) (l := t.toList)

end Text

/-- A text is displayed by its raw text if it is settled, and with its stand-ins revealed if not. -/
theorem Word.render_text (t : String) (special settled : Bool) :
    (Word.text t special).render settled {} = if settled then t else Text.revealAll t := by
  cases settled <;> simp [render, isNumeric, isNumber, raw, printable, clipped, Text.revealAll]

/-! ### Commands -/

/-- A question asks for a form of a word. -/
def Question.isForm : Question → Bool
  | raw | printable | key | number | isNumber | number? => true
  | _ => false

/-- A question asks a word for its number. -/
def Question.asksNumber : Question → Bool
  | number | isNumber | number? => true
  | _ => false

/-- A comparison tests whether two values are equal. -/
def Comparison.isEquality : Comparison → Bool
  | equal _ | wordEqual _ => true
  | _ => false

/-- A comparison tests whether a value is contained in another one. -/
def Comparison.isContainment : Comparison → Bool
  | contains .. | wordContains _ => true
  | _ => false

/-- A question writes a value without limits. -/
def Question.displays : Question → Bool
  | renderWord o | render _ o => o == {}
  | _ => false

/-- A command asks for a form of the word in a register, or compares it with another value. -/
def Command.consults (name : String) : Command → Bool
  | .ask x q => x == name && q.isForm
  | .compare x c _ => x == name && (c.isEquality || c.isContainment)
  | _ => false

/-- The word at an address is treated as a number. -/
def Store.treatsAsNumber (s : Store) (a : Addr) : Bool :=
  (s.heap.body a).word?.any (·.isNumeric (s.settled.contains a))

/-- A command on a word asks it for its number: directly, or because the word is tested for equality
with one that is treated as a number. -/
def Command.asksNumber (s : Session) : Command → Bool
  | .ask _ q => q.asksNumber
  | .compare _ c y =>
    c.isEquality &&
      match (Step.eval y).run s with
      | (.ok a, t) => t.store.treatsAsNumber a
      | (.error _, _) => false
  | _ => false

/-- Some command of a run on a word asks it for its number. -/
def Session.asksNumber : List Command → Session → Bool
  | [], _ => false
  | c :: cs, s => c.asksNumber s || asksNumber cs (s.step c).2

/-! ### What the commands settle -/

section Operations

variable {s : Store} {x y a : Addr} {t : String} {special : Bool}

/-- A text is treated as a number once it is settled. -/
theorem Word.isNumeric_text (t : String) (special settled : Bool) :
    (Word.text t special).isNumeric settled = settled := by
  simp [isNumeric, isNumber]

/-- A text that is asked for its number is settled if it spells one. -/
theorem Settled.contains_asked_text (σ : Settled) (a : Addr) (t : String) (special : Bool) :
    (σ.asked a (.text t special)).contains a =
      (σ.contains a || (number? (Text.revealAll t)).isSome) := by
  unfold asked
  cases h : (number? (Text.revealAll t)).isSome <;> simp [Word.isNumber, Word.number?, h]

/-- An operation on a word. -/
theorem ensures_assert_word {α : Type} {w : Word} {f : Word → Operation α}
    {Q : α → Store → Prop} {E : Fault → Store → Prop} (hx : s.heap.body x = .word w) :
    Ensures (assert (·.word x) >>= f) s Q E ↔ Ensures (f w) s Q E := by
  rw [ensures_bind, ensures_assert_of_ok (word_eq_ok hx)]

/-- A question about a word that asks for one of its forms. -/
theorem ensures_askWord {α : Type} {w : Word} {f : Word → Query Fault α} {g : Word → α → Reply}
    {r : α} {σ : Settled} {Q : Reply → Store → Prop} {E : Fault → Store → Prop}
    (hx : s.heap.body x = .word w) (hf : (f w).run s.settled = (.ok r, σ))
    (hQ : Q (g w r) { s with settled := σ }) :
    Ensures (do
      let w ← assert (·.word x)
      let a ← ask fun _ => f w
      return g w a) s Q E := by
  refine (ensures_assert_word hx).mpr (ensures_bind.mpr (ensures_ask ?_ ?_))
  · intro a τ hrun
    obtain ⟨⟨⟩, rfl⟩ := Prod.mk.inj (hf.symm.trans hrun)
    exact ensures_pure.mpr hQ
  · intro e τ hrun
    exact absurd (Prod.mk.inj (hf.symm.trans hrun)).1 (by simp)

/-- **What a question about the form of a text settles**: the text itself, if it is asked for its
number and spells one. -/
theorem Question.ensures_form (hx : s.heap.body x = .word (.text t special)) {q : Question}
    (hq : q.isForm = true) :
    Ensures (q.run x) s
      (fun _ u => u.settled.contains x = (s.settled.contains x ||
        q.asksNumber && (SharedValues.number? (Text.revealAll t)).isSome)) fun _ _ => False := by
  have hasked := Settled.contains_asked_text s.settled x t special
  generalize (SharedValues.number? (Text.revealAll t)).isSome = spells at hasked ⊢
  cases q with
  | raw | printable | key => exact ensures_askWord hx rfl (by simp [asksNumber])
  | number | isNumber | number? =>
    exact ensures_askWord hx (Query.run_numberOf ..) (by simpa [asksNumber] using hasked)
  | _ => simp [isForm] at hq

/-- A text that is tested for equality with another word is asked for its number if the other one is
treated as a number. -/
theorem Query.contains_wordsEqual {ε : Type} (ignoreCase : Bool) (σ : Settled) (w : Word) :
    ((wordsEqual ignoreCase x (.text t special) y w : Query ε Bool).run σ).2.contains x =
      (σ.contains x || w.isNumeric (σ.contains y) && (number? (Text.revealAll t)).isSome) := by
  rw [run_wordsEqual, Word.isNumeric_text]
  cases hx : σ.contains x with
  | true => simpa using Settled.le_asked σ y w x hx
  | false =>
    cases hw : w.isNumeric (σ.contains y) with
    | true => simp [Settled.contains_asked_text, hx]
    | false => simpa using hx

/-- Searching a text settles no text. -/
theorem Query.contains_wordSeek? {ε : Type} (ignoreCase : Bool) (σ : Settled) {w : Word}
    (hy : y = x → w = .text t special) :
    ((wordSeek? ignoreCase x (.text t special) y w : Query ε _).run σ).2.contains x =
      σ.contains x := by
  have hrun : ((wordSeek? ignoreCase x (.text t special) y w : Query ε _).run σ).2 =
      if w.isNumber then σ.insert y else σ := by
    unfold wordSeek? rawText
    cases w <;> rfl
  rw [hrun]
  split
  · next hw =>
    have hne : y ≠ x := by
      intro heq
      simp [hy heq, Word.isNumber] at hw
    simp [hne]
  · rfl

/-- A query that the store is asked, and that can have one result only. -/
theorem ensures_ask_query {α : Type} {q : Heap → Query Fault α} {r : α}
    (hq : Ensures (q s.heap) s.settled (fun a _ => a = r) fun _ _ => False) :
    Ensures (ask q) s (fun a _ => a = r) fun _ _ => False := by
  obtain ⟨a, σ, hrun, rfl⟩ := hq.exists_ok
  refine ensures_ask (fun b τ hb => ?_) fun f τ hf => ?_
  · exact Except.ok.inj (Prod.mk.inj (hb.symm.trans hrun)).1
  · exact absurd (Prod.mk.inj (hf.symm.trans hrun)).1 (by simp)

/-- The written form of a word does not depend on the style. -/
theorem Heap.ensures_render_word {h : Heap} {σ : Settled} {w : Word} (hx : h.body x = .word w)
    (style : Style) (o : PrintOptions) :
    Ensures (h.render style o x) σ (fun shown _ => shown = w.render (σ.contains x) o)
      fun _ _ => False := by
  obtain ⟨n, hn⟩ : ∃ n, (h.blocks.size + 2) * (h.blocks.size + 2) = n + 1 :=
    Nat.exists_eq_succ_of_ne_zero (by positivity)
  rw [render, renderOn, hn, renderWithin_word n [] style o hx]
  exact ensures_adapt.mpr ((ensures_renderWord (.refl h σ) hx o).mono (fun _ _ => And.left)
    fun _ _ => id)

/-- Whether a word is settled after a query that the store is asked. -/
theorem ensures_ask_settled {α : Type} {q : Heap → Query Fault α} {b : Bool}
    (hq : ((q s.heap).run s.settled).2.contains x = b) :
    Ensures (ask q) s (fun _ u => u.settled.contains x = b) fun _ u => u.settled.contains x = b :=
  ensures_ask (fun _ _ hrun => by rwa [hrun] at hq) fun _ _ hrun => by rwa [hrun] at hq

/-- Nothing but a word is treated as a number. -/
theorem Store.treatsAsNumber_of_word? (h : (s.heap.body a).word? = none) :
    s.treatsAsNumber a = false := by
  simp [treatsAsNumber, h]

theorem Store.treatsAsNumber_of_word {w : Word} (h : s.heap.body a = .word w) :
    s.treatsAsNumber a = w.isNumeric (s.settled.contains a) := by
  simp [treatsAsNumber, h, Body.word?]

/-- A text that is tested for equality is asked for its number if the other value is treated as a
number. -/
theorem Heap.contains_equal (hx : s.heap.body x = .word (.text t special)) (ignoreCase : Bool) :
    ((s.heap.equal ignoreCase x y).run s.settled).2.contains x = (s.settled.contains x ||
      s.treatsAsNumber y && (number? (Text.revealAll t)).isSome) := by
  have hrun : ((s.heap.equal ignoreCase x y).run s.settled).2 =
      ((s.heap.equalWithin ignoreCase (s.heap.blocks.size + 2) [] x y).run s.settled).2 := rfl
  rw [hrun, equalWithin, kind_of_word hx]
  -- only another word can make this one be treated as a number
  by_cases hy : .word ≠ s.heap.kind y
  · have hword : (s.heap.body y).word? = none := by
      cases hbody : s.heap.body y <;> simp_all [Heap.kind, Body.kind, Body.word?]
    rw [if_pos hy, Store.treatsAsNumber_of_word? hword, Bool.false_and, Bool.or_false]
    rfl
  rw [if_neg hy]
  obtain ⟨w, hw⟩ := exists_word_of_kind (not_not.mp hy).symm
  rw [Store.treatsAsNumber_of_word hw]
  -- a word is equal to itself without being read
  by_cases hxy : x = y
  · subst hxy
    obtain rfl := Body.word.inj (hx.symm.trans hw)
    rw [if_pos rfl, Word.isNumeric_text]
    exact (Bool.or_eq_left_iff_imp.mpr (fun h => (Bool.and_eq_true_iff.mp h).1)).symm
  · rw [if_neg hxy, hx, hw]
    exact Query.contains_wordsEqual ..

/-- An answer made from the result of a query. -/
theorem Query.settled_map {ε α β : Type} (q : Query ε α) (g : α → β) (σ : Settled) :
    ((do return g (← q) : Query ε β).run σ).2 = (q.run σ).2 := by
  rw [run_bind]
  rcases q.run σ with ⟨_ | _, _⟩ <;> rfl

/-- Searching a text for any value settles no text. -/
theorem Heap.contains_contains (hx : s.heap.body x = .word (.text t special))
    (hsame : ∀ {w : Word}, s.heap.body y = .word w → y = x → w = .text t special)
    (ignoreCase : Bool) :
    ((s.heap.contains ignoreCase x y).run s.settled).2.contains x = s.settled.contains x := by
  rw [Heap.contains, kind_of_word hx]
  dsimp only
  rw [Query.settled_map, searchWithin, hx]
  dsimp only
  cases hy : s.heap.body y with
  | word w =>
    dsimp only
    rw [Query.settled_map, Query.contains_wordSeek? ignoreCase s.settled (hsame hy)]
  | _ => rfl

/-- **What a test on a text settles**: the text itself, if it spells a number and is tested for
equality with a word that is treated as one. -/
theorem Comparison.ensures_settled (hx : s.heap.body x = .word (.text t special)) {c : Comparison}
    (hc : (c.isEquality || c.isContainment) = true) :
    Ensures (c.run x y) s
      (fun _ u => u.settled.contains x = (s.settled.contains x ||
        (c.isEquality && s.treatsAsNumber y) && (number? (Text.revealAll t)).isSome))
      fun _ u => u.settled.contains x = (s.settled.contains x ||
        (c.isEquality && s.treatsAsNumber y) && (number? (Text.revealAll t)).isSome) := by
  -- the second word is the first one if it is at its address
  have hsame : ∀ {w : Word}, s.heap.body y = .word w → y = x → w = .text t special := by
    rintro w hw rfl
    exact Body.word.inj (hw.symm.trans hx)
  cases c with
  | equal ignoreCase =>
    rw [Comparison.run]
    apply ensures_ask_settled
    rw [Heap.contains_equal hx, isEquality, Bool.true_and]
  | wordEqual ignoreCase =>
    rw [Comparison.run]
    refine (ensures_assert_word hx).mpr (ensures_bind.mpr (ensures_assert ?_ ?_))
    · intro w hw
      apply ensures_ask_settled
      rw [Query.contains_wordsEqual, isEquality, Store.treatsAsNumber_of_word (body_of_word hw),
        Bool.true_and]
    · intro r hr
      have hword : (s.heap.body y).word? = none := by
        cases hbody : s.heap.body y <;> simp_all [Heap.word, expect, Body.word?]
      simp [Store.treatsAsNumber_of_word? hword]
  | wordContains ignoreCase =>
    rw [Comparison.run]
    simp only [isEquality, Bool.false_and, Bool.or_false]
    refine (ensures_assert_word hx).mpr (ensures_bind.mpr (ensures_assert ?_ fun _ _ => rfl))
    intro w hw
    have hseek := ensures_ask_settled (q := fun _ => Query.wordSeek? ignoreCase x _ y w)
      (Query.contains_wordSeek? ignoreCase s.settled (hsame (body_of_word hw)))
    exact ensures_bind.mpr (hseek.mono (fun _ _ hu => ensures_pure.mpr hu) fun _ _ hu => hu)
  | contains ignoreCase mode =>
    rw [Comparison.run]
    simp only [isEquality, Bool.false_and, Bool.or_false]
    have hask := ensures_ask_settled (q := (·.contains ignoreCase x y))
      (Heap.contains_contains hx hsame ignoreCase)
    cases mode <;> dsimp only [Mode.call]
    case checked => exact hask
    all_goals exact ensures_promised.mpr hask
  | _ => simp [isEquality, isContainment] at hc

end Operations

/-! ### A command -/

namespace Session

variable {s : Session} {name : String} {x : Addr} {t : String} {special : Bool}

/-- A register holds a text, which is settled or not. -/
structure Shows (s : Session) (name : String) (x : Addr) (t : String) (special settled : Bool) :
    Prop where
  /-- Reference counts are exact. -/
  exact : s.Sound (fun held h => h.Exact held) 0
  /-- The register holds the text. -/
  value_eq : s.value? name = some x
  /-- The text. -/
  body_eq : s.store.heap.body x = .word (.text t special)
  /-- Whether the text is settled. -/
  contains_eq : s.store.settled.contains x = settled

/-- Making the second value of a command settles nothing. -/
theorem ensures_eval_settled (y : Expr) :
    Ensures (Step.eval y) s (fun _ u => u.store.settled = s.store.settled)
      fun _ u => u.store.settled = s.store.settled :=
  ensures_bind.mpr (ensures_bound rfl fun _ => rfl)

/-- **What a command settles** that asks for a form of a text, or compares it: the text itself, if
it is asked for its number and spells one. -/
theorem Shows.step {settled : Bool} (hs : s.Shows name x t special settled) {c : Command}
    (hc : c.consults name = true) :
    (s.step c).2.Shows name x t special
      (settled || c.asksNumber s && (number? (Text.revealAll t)).isSome) := by
  obtain ⟨hexact, hname, hx, rfl⟩ := hs
  let F : Multiset Addr → Heap → Prop := fun held h => h.Exact held ∧ s.store.heap.Lasting h
  have hF : Kept Set.univ F := kept_lasting s.store.heap
  have hown : s.Owns F s.registers 0 := ⟨rfl, hexact.kept, .refl _⟩
  -- words last, and the register keeps the text alive
  have hbody : ∀ {h : Heap} {extra : Multiset Addr}, F (s.registers.held + extra) h →
      h.body x = .word (.text t special) := fun hh =>
    hh.2.body_of_word hx (hh.1.live_of_held (Multiset.mem_add.mpr
      (Or.inl (mem_held_of_value? hname))))
  have hend : ∀ {u : Session} {b : Bool}, u.Owns F s.registers 0 →
      u.store.settled.contains x = b → u.Shows name x t special b := by
    rintro u b ⟨hregisters, hkept⟩ hb
    refine ⟨⟨hregisters ▸ hexact.sorted, ?_⟩, ?_, hbody hkept, hb⟩
    · rw [held, hregisters]
      exact hkept.1
    · rwa [value?, hregisters]
  apply step_of_ensures (P := fun u => u.Shows name x t special
    (s.store.settled.contains x || c.asksNumber s && (number? (Text.revealAll t)).isSome))
  cases c with
  | ask other q =>
    obtain ⟨rfl, hq⟩ : other = name ∧ q.isForm = true := by
      simpa [Command.consults] using hc
    have hreads : q ≠ .recount := by
      rintro rfl
      simp [Question.isForm] at hq
    have hkeeps : Keeps F _ (q.run x) s.store := (Question.reads x hreads).keeps hown.kept
    refine ensures_bind.mpr (ensures_value_of hname (ensures_bind.mpr (ensures_on.mpr ?_)))
    exact ((Question.ensures_form hx hq).and hkeeps).mono
      (fun _ u hu => ensures_pure.mpr (hend ⟨rfl, hu.2⟩ hu.1)) fun _ _ hu => hu.1.elim
  | compare other c y =>
    obtain ⟨rfl, htest⟩ : other = name ∧ (c.isEquality || c.isContainment) = true := by
      simpa [Command.consults] using hc
    have hkind : ∀ k, c.expects = some k → s.store.heap.kind x = k := by
      rw [Heap.kind, hx]
      cases c <;> simp [Comparison.expects, Body.kind]
    refine ensures_bind.mpr (ensures_value_of hname (ensures_bind.mpr ?_))
    refine ensures_promise_of hkind (ensures_bind.mpr ?_)
    have heval := ((hF.step_eval hown y).and (ensures_eval_settled (s := s) y))
    rw [Command.asksNumber]
    unfold Ensures at heval ⊢
    rcases hy : (Step.eval y).run s with ⟨_ | a, u⟩ <;> rw [hy] at heval
    · obtain ⟨hu, hsettled⟩ := heval
      exact hend hu (by simp [hsettled])
    obtain ⟨hu, hsettled⟩ := heval
    have hkeeps : Keeps F _ (c.run x a) u.store := (Comparison.reads x a c).keeps hu.kept
    have hrun := (Comparison.ensures_settled (y := a) (hbody hu.kept) htest).and hkeeps
    -- the second value is given up, which settles nothing
    have hrelease : ∀ {v : Store} {b : Bool},
        v.settled.contains x = b ∧ F (s.registers.held + (0 + {a})) v.heap →
        ({ u with store := { v with heap := v.heap.release a } } : Session).Shows other x t special
          b := fun hv => hend (hF.step_release (s := { u with store := _ }) ⟨hu.registers_eq, hv.2⟩)
            hv.1
    rw [hsettled] at hrun
    refine ensures_step_holding.mpr (ensures_bind.mpr (ensures_on.mpr (hrun.mono ?_ ?_)))
    · exact fun _ _ hv => ensures_pure.mpr (hrelease hv)
    · exact fun _ _ hv => hrelease hv
  | _ => simp [Command.consults] at hc

/-- **What a run of such commands settles**: the text, if one of them asks it for its number. -/
theorem Shows.run {settled : Bool} {cs : List Command} (hcs : ∀ c ∈ cs, c.consults name = true)
    (hs : s.Shows name x t special settled) :
    (s.run cs).2.Shows name x t special
      (settled || asksNumber cs s && (number? (Text.revealAll t)).isSome) := by
  induction cs generalizing s settled with
  | nil => simpa [asksNumber, Session.run] using hs
  | cons c cs ih =>
    have hrest := ih (fun d hd => hcs d (List.mem_cons_of_mem c hd))
      (hs.step (hcs c List.mem_cons_self))
    rwa [Bool.or_assoc, ← Bool.and_or_distrib_right] at hrest

/-- A text is displayed by its raw text if it is settled, and with its stand-ins revealed if not. -/
theorem Shows.displayed {settled : Bool} (hs : s.Shows name x t special settled) {q : Question}
    (hq : q.displays = true) :
    (s.step (.ask name q)).1 = .reply (.text (if settled then t else Text.revealAll t)) := by
  obtain ⟨-, hname, hx, rfl⟩ := hs
  refine (step_of_answer (P := fun _ => True) (ensures_bind.mpr (ensures_value_of hname
    (ensures_bind.mpr (ensures_on.mpr ?_))))).1
  -- a settled word is rendered from its raw text, any other from its printable text
  rw [← Word.render_text t special]
  cases q with
  | renderWord o =>
    obtain rfl : o = {} := by simpa [Question.displays] using hq
    have hrender := ensures_ask_query (s := s.store) (q := fun _ => Query.renderWord x _ {})
      ((ensures_renderWord (.refl _ _) hx {}).mono (fun _ _ => And.left) fun _ _ => id)
    refine (ensures_assert_word hx).mpr (ensures_bind.mpr (hrender.mono ?_ fun _ _ => id))
    rintro shown u rfl
    exact ensures_pure.mpr (ensures_pure.mpr ⟨rfl, trivial⟩)
  | render style o =>
    obtain rfl : o = {} := by simpa [Question.displays] using hq
    have hrender := Heap.ensures_render_word (σ := s.store.settled) hx style {}
    refine ensures_bind.mpr ((ensures_ask_query hrender).mono ?_ fun _ _ => id)
    rintro shown u rfl
    exact ensures_pure.mpr (ensures_pure.mpr ⟨rfl, trivial⟩)
  | _ => simp [Question.displays] at hq

/-- **Exactly when a text is displayed with its stand-ins revealed.**  A text that a run has made,
and that is not settled, is displayed so after any commands that ask for its forms or compare it,
unless one of them asks it for a number and it spells one: then its raw text is displayed, which
makes a difference if there are stand-ins in it. -/
theorem displayed_iff {made cs : List Command} (hs : (Session.run made {}).2 = s)
    (hname : s.value? name = some x) (hx : s.store.heap.body x = .word (.text t special))
    (hfresh : s.store.settled.contains x = false) (hcs : ∀ c ∈ cs, c.consults name = true)
    {q : Question} (hq : q.displays = true) :
    let shown := ((s.run cs).2.step (.ask name q)).1
    (shown = .reply (.text (Text.revealAll t)) ∨ shown = .reply (.text t)) ∧
    (shown = .reply (.text (Text.revealAll t)) ↔
      ¬(asksNumber cs s = true ∧ (number? (Text.revealAll t)).isSome = true ∧
        ∃ c ∈ t.toList, Text.reveal c ≠ c)) := by
  subst hs
  have hshows : Shows _ name x t special false := ⟨exact_sound made, hname, hx, hfresh⟩
  have hend := (hshows.run hcs).displayed hq
  intro shown
  rw [show shown = _ from hend, Bool.false_or]
  have hsame : t = Text.revealAll t ↔ ∀ c ∈ t.toList, Text.reveal c = c := by
    rw [eq_comm, Text.revealAll_eq_self_iff]
  cases hasked : asksNumber cs (Session.run made {}).2 <;>
    cases hspells : (number? (Text.revealAll t)).isSome <;> simp [hsame]

/-- A text with a stand-in spells a number, but is not asked for it by a comparison of texts or by
a search for a number. -/
theorem displayed_unasked :
    let s := (run [.make (.text "\x135" false) ⟨some "x", true⟩] {}).2
    let cs : List Command := [.ask "x" .key, .compare "x" (.equal false) (.text "5" false),
      .compare "x" (.contains false .checked) (.number (.ofNat 5))]
    ((s.run cs).2.step (.ask "x" (.render .bare {}))).1 = .reply (.text "-5") := by
  intro s cs
  have hconsults : ∀ c ∈ cs, c.consults "x" = true := by decide
  have hshown := (displayed_iff (q := .render .bare {}) rfl
    (show s.value? "x" = some 0 by decide +kernel)
    (show s.store.heap.body 0 = .word (.text "\x135" false) by decide +kernel)
    (by decide +kernel) hconsults (by decide)).2
  have hasked : asksNumber cs s = false := by decide +kernel
  have hreveal : Text.revealAll "\x135" = "-5" := by decide +kernel
  rw [← hreveal]
  exact hshown.mpr fun h => absurd (hasked.symm.trans h.1) (by decide)

/-- **A text is not always displayed with its stand-ins revealed**: once it has been asked for the
number that it spells, they are left in place. -/
theorem displayed_raw :
    let s := (run [.make (.text "\x135" false) ⟨some "x", true⟩] {}).2
    s.value? "x" = some 0 ∧ s.store.heap.body 0 = .word (.text "\x135" false) ∧
      (s.step (.ask "x" (.render .bare {}))).1 = .reply (.text (Text.revealAll "\x135")) ∧
      ((s.run [.ask "x" .number]).2.step (.ask "x" (.render .bare {}))).1 ≠
        .reply (.text (Text.revealAll "\x135")) := by
  intro s
  have hshows : s.Shows "x" 0 "\x135" false false :=
    ⟨exact_sound _, by decide +kernel, by decide +kernel, by decide +kernel⟩
  have hconsults : ∀ c ∈ [Command.ask "x" .number], c.consults "x" = true := by decide
  have hraw := (hshows.run hconsults).displayed (q := .render .bare {}) (by decide)
  have hasked : (asksNumber [.ask "x" .number] s &&
      (number? (Text.revealAll "\x135")).isSome) = true := by decide +kernel
  have hreveal : Text.revealAll "\x135" ≠ "\x135" := by decide +kernel
  rw [hasked] at hraw
  refine ⟨hshows.value_eq, hshows.body_eq, hshows.displayed (by decide), ?_⟩
  rw [hraw]
  simpa using hreveal.symm

end Session

end SharedValues
