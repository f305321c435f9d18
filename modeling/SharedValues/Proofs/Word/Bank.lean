import Mathlib.Logic.Function.Basic
import SharedValues.Proofs.Session.Displayed
import SharedValues.Proofs.Word.Lazy

/-!
# Calls on words with caches

Words with caches are asked for their forms, compared with each other and searched for each other,
in any order.  All of them answer as words that keep nothing, and so do the words in a heap, of
which it is only kept which of them are settled.

## Main definitions

* `Bank` — the words at some addresses, with their caches.
* `WordCall` — a call on one or two of them, `WordCall.operation` — the same as part of a session.
* `Bank.StandsFor` — the words with caches stand for words without.

## Main results

* `Bank.StandsFor.run`, `Bank.StandsFor.runAll` — words with caches answer as words without.
* `WordCall.run_operation` — so do the words in a heap.
* `Bank.advances_run`, `Bank.advances_runAll` — what is known of a word does not get lost.
-/

namespace SharedValues

/-! ### Many words -/

/-- The words at some addresses, with their caches. -/
abbrev Bank := Addr → LazyWord

namespace Bank

variable {bank : Bank} {words : Addr → Word} {σ τ : Settled} {a b : Addr} {α : Type}

/-- The words as they are made. -/
def ofWords (words : Addr → Word) : Bank := fun a => .ofWord (words a)

/-- Asks the word at an address for something. -/
def ask (bank : Bank) (a : Addr) (step : LazyWord → α × LazyWord) : α × Bank :=
  let (r, c) := step (bank a)
  (r, Function.update bank a c)

/-- Whether two words are equal.  As soon as one of them is known to be a number, the other one is
asked for its number. -/
def equal (ignoreCase : Bool) (a b : Addr) (bank : Bank) : Bool × Bank :=
  if (bank a).freshness ≠ .text then
    let number := (bank a).number
    let (other, bank) := bank.ask b LazyWord.numberValue
    let (converts, bank) := bank.ask b LazyWord.converts
    (converts && number.equals other, bank)
  else if (bank b).freshness ≠ .text then
    let other := (bank b).number
    let (number, bank) := bank.ask a LazyWord.numberValue
    let (converts, bank) := bank.ask a LazyWord.converts
    (converts && number.equals other, bank)
  else
    let (raw, bank) := bank.ask a LazyWord.rawValue
    let (other, bank) := bank.ask b LazyWord.rawValue
    (if ignoreCase then Text.upperCase raw == Text.upperCase other else raw == other, bank)

/-- Whether the second word is a part of the first. -/
def contains (ignoreCase : Bool) (a b : Addr) (bank : Bank) : Bool × Bank :=
  let (raw, bank) := bank.ask a LazyWord.rawValue
  let (other, bank) := bank.ask b LazyWord.rawValue
  ((Text.seek? ignoreCase raw.toList other.toList).isSome, bank)

/-- All words with caches stand for the words without. -/
def StandsFor (bank : Bank) (words : Addr → Word) (σ : Settled) : Prop :=
  ∀ a, (bank a).StandsFor (words a) (σ.contains a)

theorem standsFor_ofWords (words : Addr → Word) : (ofWords words).StandsFor words {} := by
  intro a
  have hnone : Settled.contains {} a = false := by simp [Settled.contains]
  rw [hnone]
  exact LazyWord.standsFor_ofWord (words a)

/-- What one word answers, and what is settled with it. -/
theorem StandsFor.ask (hbank : bank.StandsFor words σ) {step : LazyWord → α × LazyWord} {r : α}
    (hstep : (step (bank a)).1 = r ∧ (step (bank a)).2.StandsFor (words a) (τ.contains a))
    (hτ : ∀ c ≠ a, τ.contains c = σ.contains c) :
    (bank.ask a step).1 = r ∧ (bank.ask a step).2.StandsFor words τ := by
  refine ⟨hstep.1, fun c => ?_⟩
  show (Function.update bank a (step (bank a)).2 c).StandsFor (words c) (τ.contains c)
  by_cases hca : c = a
  · subst hca
    rw [Function.update_self]
    exact hstep.2
  · rw [Function.update_of_ne hca, hτ c hca]
    exact hbank c

end Bank

/-! ### What is settled -/

namespace Settled

/-- The settled words after the word `w` at an address was asked for its text. -/
def told (σ : Settled) (a : Addr) (w : Word) : Settled := if w.isNumber then σ.insert a else σ

theorem contains_told (σ : Settled) (a : Addr) (w : Word) :
    (σ.told a w).contains a = w.isNumeric (σ.contains a) := by
  unfold told Word.isNumeric
  split_ifs with hw <;> simp [hw]

theorem contains_told_of_ne {a c : Addr} (hca : c ≠ a) (σ : Settled) (w : Word) :
    (σ.told a w).contains c = σ.contains c := by
  unfold told
  split_ifs <;> simp [hca.symm]

theorem contains_asked_self (σ : Settled) (a : Addr) (w : Word) :
    (σ.asked a w).contains a = w.isTried (σ.contains a) := by
  unfold asked Word.isTried
  split_ifs with hw
  · simp [hw]
  · simp [Bool.eq_false_of_not_eq_true hw]

theorem contains_asked_of_ne {a c : Addr} (hca : c ≠ a) (σ : Settled) (w : Word) :
    (σ.asked a w).contains c = σ.contains c := by
  unfold asked
  split_ifs <;> simp [hca.symm]

end Settled

/-! ### Calls -/

/-- A call on one word or on two. -/
inductive WordCall where
  /-- Asks for a form. -/
  | form (a : Addr) (f : Form)
  /-- Asks for the written form. -/
  | print (a : Addr) (o : PrintOptions)
  /-- Asks whether two words are equal. -/
  | equal (ignoreCase : Bool) (a b : Addr)
  /-- Asks whether the second word is a part of the first. -/
  | contains (ignoreCase : Bool) (a b : Addr)

namespace WordCall

variable {bank : Bank} {words : Addr → Word} {σ : Settled}

/-- The words that a call is about. -/
def on : WordCall → List Addr
  | form a _ | print a _ => [a]
  | equal _ a b | contains _ a b => [a, b]

/-- What words with caches answer. -/
def run (bank : Bank) : WordCall → Reply × Bank
  | form a f => bank.ask a (·.tell f)
  | print a o => (bank.ask a (·.print o)).map .text id
  | equal ignoreCase a b => (bank.equal ignoreCase a b).map .flag id
  | contains ignoreCase a b => (bank.contains ignoreCase a b).map .flag id

/-- The words with caches after some calls. -/
def runAll : List WordCall → Bank → Bank
  | [], bank => bank
  | call :: calls, bank => runAll calls (call.run bank).2

/-- The call as an operation of a session on the words in a heap. -/
def operation : WordCall → Operation Reply
  | form a f => f.question.run a
  | print a o => (Question.renderWord o).run a
  | equal ignoreCase a b => .flag <$> (Comparison.wordEqual ignoreCase).run a b
  | contains ignoreCase a b => .flag <$> (Comparison.wordContains ignoreCase).run a b

/-- What words without caches answer. -/
def reply (words : Addr → Word) (σ : Settled) : WordCall → Reply
  | form a f => (words a).form f
  | print a o => .text ((words a).render (σ.contains a) o)
  | equal ignoreCase a b =>
    .flag <|
      if (words a).isNumeric (σ.contains a) then
        (words b).number?.isSome && (words a).value.equals (words b).value
      else if (words b).isNumeric (σ.contains b) then
        (words a).number?.isSome && (words a).value.equals (words b).value
      else Word.sameText ignoreCase (words a) (words b)
  | contains ignoreCase a b => .flag ((words a).seek? ignoreCase (words b)).isSome

/-- What is settled with the answer. -/
def settle (words : Addr → Word) (σ : Settled) : WordCall → Settled
  | form a f => if f.isText then σ.told a (words a) else σ.asked a (words a)
  | print a _ => σ.told a (words a)
  | equal _ a b =>
    if (words a).isNumeric (σ.contains a) then σ.asked b (words b)
    else if (words b).isNumeric (σ.contains b) then σ.asked a (words a)
    else σ
  | contains _ a b => (σ.told a (words a)).told b (words b)

end WordCall

namespace Bank.StandsFor

variable {bank : Bank} {words : Addr → Word} {σ : Settled} {a b : Addr}

/-- A word that is asked for a text. -/
theorem told {α : Type} {step : LazyWord → α × LazyWord} {r : α} (hbank : bank.StandsFor words σ)
    (hstep : (step (bank a)).1 = r ∧
      (step (bank a)).2.StandsFor (words a) ((words a).isNumeric (σ.contains a))) :
    (bank.ask a step).1 = r ∧ (bank.ask a step).2.StandsFor words (σ.told a (words a)) :=
  hbank.ask (by rwa [Settled.contains_told]) fun _ hca => Settled.contains_told_of_ne hca σ _

/-- A word that is asked for its number. -/
theorem asked {α : Type} {step : LazyWord → α × LazyWord} {r : α} (hbank : bank.StandsFor words σ)
    (hstep : (step (bank a)).1 = r ∧
      (step (bank a)).2.StandsFor (words a) ((words a).isTried (σ.contains a))) :
    (bank.ask a step).1 = r ∧ (bank.ask a step).2.StandsFor words (σ.asked a (words a)) :=
  hbank.ask (by rwa [Settled.contains_asked_self]) fun _ hca => Settled.contains_asked_of_ne hca σ _

/-- A word that is asked for its number twice. -/
theorem tried (hbank : bank.StandsFor words σ) (a : Addr) :
    let first := bank.ask a LazyWord.numberValue
    let second := first.2.ask a LazyWord.converts
    first.1 = (words a).value ∧ second.1 = (words a).number?.isSome ∧
      second.2.StandsFor words (σ.asked a (words a)) := by
  obtain ⟨hnumber, hfirst⟩ := hbank.asked (hbank a).numberValue
  obtain ⟨hconverts, hsecond⟩ := hfirst.ask (τ := σ.asked a (words a)) (by
    have hc := (hfirst a).converts
    rwa [Settled.contains_asked_self, LazyWord.StandsFor.isTried_isTried,
      ← Settled.contains_asked_self] at hc) fun _ _ => rfl
  exact ⟨hnumber, hconverts, hsecond⟩

theorem equal (hbank : bank.StandsFor words σ) (ignoreCase : Bool) (a b : Addr) :
    Reply.flag (bank.equal ignoreCase a b).1 = (WordCall.equal ignoreCase a b).reply words σ ∧
      (bank.equal ignoreCase a b).2.StandsFor words
        ((WordCall.equal ignoreCase a b).settle words σ) := by
  have hnumeric : ∀ c, (words c).isNumeric (σ.contains c) = true →
      (bank c).freshness ≠ .text ∧ (bank c).number = (words c).value := by
    intro c hc
    refine ⟨fun h => by simp [(hbank c).freshness_eq_text_iff.mp h] at hc, ?_⟩
    rw [Word.value, (hbank c).number_eq hc]
    rfl
  rw [Bank.equal, WordCall.reply, WordCall.settle]
  by_cases ha : (words a).isNumeric (σ.contains a) = true
  · -- the second word is asked for its number
    obtain ⟨hfresh, hvalue⟩ := hnumeric a ha
    obtain ⟨hnumber, hconverts, hend⟩ := hbank.tried b
    rw [if_pos hfresh, if_pos ha, if_pos ha]
    dsimp only
    rw [hconverts, hnumber, hvalue]
    exact ⟨rfl, hend⟩
  have hfresh := (hbank a).freshness_eq_text_iff.mpr (Bool.eq_false_of_not_eq_true ha)
  rw [if_neg (not_not.mpr hfresh), if_neg ha, if_neg ha]
  by_cases hb : (words b).isNumeric (σ.contains b) = true
  · -- the first word is asked for its number
    obtain ⟨hfresh, hvalue⟩ := hnumeric b hb
    obtain ⟨hnumber, hconverts, hend⟩ := hbank.tried a
    rw [if_pos hfresh, if_pos hb, if_pos hb]
    dsimp only
    rw [hconverts, hnumber, hvalue]
    exact ⟨rfl, hend⟩
  -- two texts are compared, and asking for them settles nothing
  have hfresh := (hbank b).freshness_eq_text_iff.mpr (Bool.eq_false_of_not_eq_true hb)
  rw [if_neg (not_not.mpr hfresh), if_neg hb, if_neg hb]
  have htold : ∀ c, ¬(words c).isNumeric (σ.contains c) = true → σ.told c (words c) = σ := by
    intro c hc
    rw [Settled.told, if_neg fun h => hc (by simp [Word.isNumeric, h])]
  obtain ⟨hraw, hfirst⟩ := hbank.told (hbank a).rawValue
  rw [htold a ha] at hfirst
  obtain ⟨hother, hsecond⟩ := hfirst.told (hfirst b).rawValue
  rw [htold b hb] at hsecond
  dsimp only
  rw [hraw, hother]
  exact ⟨rfl, hsecond⟩

theorem contains (hbank : bank.StandsFor words σ) (ignoreCase : Bool) (a b : Addr) :
    Reply.flag (bank.contains ignoreCase a b).1 = (WordCall.contains ignoreCase a b).reply words σ ∧
      (bank.contains ignoreCase a b).2.StandsFor words
        ((WordCall.contains ignoreCase a b).settle words σ) := by
  obtain ⟨hraw, hfirst⟩ := hbank.told (hbank a).rawValue
  obtain ⟨hother, hsecond⟩ := hfirst.told (hfirst b).rawValue
  rw [Bank.contains, WordCall.reply, WordCall.settle, Word.seek?, Option.isSome_map]
  dsimp only
  rw [hraw, hother]
  exact ⟨rfl, hsecond⟩

/-- **Words with caches answer every call as words without**, and go on to stand for them. -/
theorem run (hbank : bank.StandsFor words σ) (call : WordCall) :
    (call.run bank).1 = call.reply words σ ∧
      (call.run bank).2.StandsFor words (call.settle words σ) := by
  cases call with
  | form a f =>
    have htell := (hbank a).tell f
    unfold Form.settles at htell
    rw [WordCall.settle]
    split_ifs at htell ⊢
    · exact hbank.told htell
    · exact hbank.asked htell
  | print a o =>
    obtain ⟨hprint, hbank⟩ := hbank.told ((hbank a).print o)
    exact ⟨congrArg Reply.text hprint, hbank⟩
  | equal ignoreCase a b => exact hbank.equal ignoreCase a b
  | contains ignoreCase a b => exact hbank.contains ignoreCase a b

end Bank.StandsFor

/-! ### Runs -/

namespace WordCall

variable {bank : Bank} {words : Addr → Word} {σ : Settled}

/-- What is settled after some calls. -/
def settleAll (words : Addr → Word) : List WordCall → Settled → Settled
  | [], σ => σ
  | call :: calls, σ => settleAll words calls (call.settle words σ)

theorem runAll_append (earlier later : List WordCall) (bank : Bank) :
    runAll (earlier ++ later) bank = runAll later (runAll earlier bank) := by
  induction earlier generalizing bank with
  | nil => rfl
  | cons call calls ih => exact ih _

end WordCall

namespace Bank

variable {bank : Bank} {words : Addr → Word} {σ : Settled} {a b c : Addr}

/-- **Words with caches stand for the same words after any calls.** -/
theorem StandsFor.runAll (hbank : bank.StandsFor words σ) (calls : List WordCall) :
    (WordCall.runAll calls bank).StandsFor words (WordCall.settleAll words calls σ) := by
  induction calls generalizing bank σ with
  | nil => exact hbank
  | cons call calls ih => exact ih (hbank.run call).2

/-- A word is asked for something, and others are not. -/
theorem advances_ask {α : Type} {step : LazyWord → α × LazyWord}
    (hstep : ∀ c : LazyWord, c.Advances (step c).2) (bank : Bank) (a c : Addr) :
    (bank c).Advances ((bank.ask a step).2 c) := by
  show (bank c).Advances (Function.update bank a (step (bank a)).2 c)
  by_cases hca : c = a
  · subst hca
    rw [Function.update_self]
    exact hstep (bank c)
  · rw [Function.update_of_ne hca]
    exact .refl (bank c)

/-- One call adds to what is known of a word. -/
theorem advances_run (call : WordCall) (bank : Bank) (c : Addr) :
    (bank c).Advances ((call.run bank).2 c) := by
  -- a word is asked twice, or two words are
  have htwice : ∀ {α β : Type} {step : LazyWord → α × LazyWord} {step' : LazyWord → β × LazyWord},
      (∀ c : LazyWord, c.Advances (step c).2) → (∀ c : LazyWord, c.Advances (step' c).2) → ∀ a b,
      (bank c).Advances (((bank.ask a step).2.ask b step').2 c) := fun h h' a b =>
    (advances_ask h bank a c).trans (advances_ask h' _ b c)
  cases call with
  | form a f => exact advances_ask (fun c => .tell c f) bank a c
  | print a o => exact advances_ask (fun c => .print c o) bank a c
  | equal ignoreCase a b =>
    rw [WordCall.run, Bank.equal]
    split
    · exact htwice .numberValue .numberValue b b
    split
    · exact htwice .numberValue .numberValue a a
    · exact htwice .rawValue .rawValue a b
  | contains ignoreCase a b => exact htwice .rawValue .rawValue a b

/-- **What is known of a word does not get lost** by any calls. -/
theorem advances_runAll (calls : List WordCall) (bank : Bank) (c : Addr) :
    (bank c).Advances (WordCall.runAll calls bank c) := by
  induction calls generalizing bank with
  | nil => exact .refl (bank c)
  | cons call calls ih => exact (advances_run call bank c).trans (ih _)

end Bank

/-! ### Calls on the words in a heap -/

namespace Query

variable {ε : Type} (σ : Settled) (a b : Addr) (v w : Word)

theorem run_rawText : (rawText a w : Query ε String).run σ = (.ok w.raw, σ.told a w) := by
  unfold rawText Settled.told
  cases w.isNumber <;> rfl

theorem run_renderWord (o : PrintOptions) :
    (renderWord a w o : Query ε String).run σ =
      (.ok (w.render (σ.contains a) o), σ.told a w) := by
  unfold renderWord Settled.told
  cases w.isNumber <;> rfl

theorem run_wordSeek? (ignoreCase : Bool) :
    (wordSeek? ignoreCase a v b w : Query ε (Option String)).run σ =
      (.ok (v.seek? ignoreCase w), (σ.told a v).told b w) := by
  unfold wordSeek?
  rw [run_bind, run_rawText]
  dsimp only
  rw [run_bind, run_rawText]
  rfl

end Query

namespace WordCall

open Operation

variable {s : Store}

/-- An operation that has one result only. -/
theorem run_eq_of_ensures {α : Type} {op : Operation α} {r : α} {t : Store}
    (hop : Ensures op s (fun b u => b = r ∧ u = t) fun _ _ => False) :
    op.run s = (.ok r, t) := by
  obtain ⟨b, u, hrun, rfl, rfl⟩ := hop.exists_ok
  exact hrun

/-- **The words in a heap answer every call as words without caches.** -/
theorem run_operation (call : WordCall) (words : Addr → Word)
    (hwords : ∀ a ∈ call.on, s.heap.body a = .word (words a)) :
    call.operation.run s =
      (.ok (call.reply words s.settled), { s with settled := call.settle words s.settled }) := by
  apply run_eq_of_ensures
  cases call with
  | form a f =>
    -- each form asks a single question of the word, whose run gives the answer and what it settles
    have ha := hwords a (by simp [on])
    cases f with
    | raw => exact ensures_askWord ha (Query.run_rawText ..) ⟨rfl, rfl⟩
    | printable => exact ensures_askWord ha (Query.run_rawText ..) ⟨rfl, rfl⟩
    | key => exact ensures_askWord ha (Query.run_rawText ..) ⟨rfl, rfl⟩
    | number => exact ensures_askWord ha (Query.run_numberOf ..) ⟨rfl, rfl⟩
    | isNumber => exact ensures_askWord ha (Query.run_numberOf ..) ⟨rfl, rfl⟩
    | number? => exact ensures_askWord ha (Query.run_numberOf ..) ⟨rfl, rfl⟩
  | print a o =>
    exact ensures_askWord (hwords a (by simp [on])) (Query.run_renderWord ..) ⟨rfl, rfl⟩
  | equal ignoreCase a b =>
    refine ensures_map.mpr ((ensures_assert_word (hwords a (by simp [on]))).mpr
      ((ensures_assert_word (hwords b (by simp [on]))).mpr ?_))
    -- both words may be settled by the comparison, in the order in which their numbers are read
    have hrun : (Query.wordsEqual ignoreCase a (words a) b (words b) : Query Fault Bool).run
        s.settled = _ := Query.run_wordsEqual ..
    rw [reply, settle]
    split_ifs at hrun ⊢
    · exact (ensures_ask_of_ok hrun).mpr ⟨rfl, rfl⟩
    · exact (ensures_ask_of_ok hrun).mpr ⟨rfl, rfl⟩
    · exact (ensures_ask_of_ok hrun).mpr ⟨rfl, rfl⟩
  | contains ignoreCase a b =>
    refine ensures_map.mpr ((ensures_assert_word (hwords a (by simp [on]))).mpr
      ((ensures_assert_word (hwords b (by simp [on]))).mpr (ensures_bind.mpr ?_)))
    exact (ensures_ask_of_ok (Query.run_wordSeek? ..)).mpr (ensures_pure.mpr ⟨rfl, rfl⟩)

end WordCall

end SharedValues
