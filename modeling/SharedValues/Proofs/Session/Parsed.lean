import Mathlib.Logic.Function.Basic
import SharedValues.Proofs.Chain.Elements
import SharedValues.Proofs.Session.Run

/-!
# Parsed forms in a run

The parsed form of a list should be out of the way as soon as the list has other elements than at
the time when the form was made.  A command that changes a list makes that list forget its parsed
form.  Lists that share cells with it are not told, though, and neither is a list whose size is
counted anew; all other commands leave the elements of every list with a parsed form alone.

## Main definitions

* `Command.updatesCell`, `Command.rewrites` — the commands that write a cell or a size.
* `Session.noted` — the elements that lists had when they were given their parsed forms.

## Main results

* `Kept.step_setParsed` — a list is given a parsed form.
* `Session.coherent_iff` — exactly when parsed forms are up to date throughout a run.
* `Session.parsed_form_out_of_date` — they are not always.
-/

namespace SharedValues

open Heap Operation

/-! ### Commands -/

/-- A command updates a cell directly. -/
def Command.updatesCell : Command → Bool
  | .change _ .setCellItem .. => true
  | .change _ .setCellNext .. => true
  | _ => false

/-- A command puts another element or another link into a cell of a list, or another size into a
list that is not changed otherwise. -/
def Command.rewrites : Command → Bool
  | .change _ (.setItem ..) .. => true
  | .change _ (.setFirst _) .. => true
  | .change _ (.setButFirst _) .. => true
  | .ask _ .recount => true
  | _ => false

/-- The commands that neither rewrite anything nor make a parsed form leave the cells alone that
more than one list leads to. -/
theorem Command.acts_of_not_rewrites {c : Command} (hc : c.updatesCell = false)
    (hrewrites : c.rewrites = false) :
    (∃ name stamp items quiet, c = .adjust name (.setParsed stamp items) quiet) ∨
      c.acts ⊆ {.hold, .fill, .header, .extend} := by
  -- a command that rewrites no cell may still set a parsed form, which is the exception
  cases c with
  | build s k => cases s <;> simp [Command.acts, Source.acts, Set.insert_subset_iff]
  | change name c y quiet =>
    cases c with
    | setItem | setFirst | setButFirst => simp [rewrites] at hrewrites
    | setCellItem | setCellNext => simp [updatesCell] at hc
    | _ => simp [Command.acts, Change.acts]
  | adjust name a quiet =>
    cases a with
    | setParsed stamp items => exact Or.inl ⟨name, stamp, items, quiet, rfl⟩
    | _ => simp [Command.acts, Adjustment.acts]
  | ask name q =>
    cases q with
    | recount => simp [rewrites] at hrewrites
    | _ => simp [Command.acts, Question.acts]
  | _ => simp [Command.acts]

/-- A command that rewrites something makes no parsed form. -/
theorem Command.acts_of_rewrites {c : Command} (hc : c.rewrites = true) :
    c.acts ⊆ {a | a ≠ .parse} := by
  cases c with
  | change name c y quiet =>
    cases c with
    | setItem | setFirst | setButFirst => simp [Command.acts, Change.acts, Set.insert_subset_iff]
    | _ => simp [rewrites] at hc
  | ask name q =>
    cases q with
    | recount => simp [Command.acts, Question.acts]
    | _ => simp [rewrites] at hc
  | _ => simp [rewrites] at hc

/-! ### The elements noted in a run -/

namespace Session

/-- The list that a command gives a parsed form. -/
def parsedBy (s : Session) : Command → Option Addr
  | .adjust name (.setParsed stamp items) _ =>
    (s.value? name).filter fun x => (((Adjustment.setParsed stamp items).run x).run s).1.isOk
  | _ => none

/-- The elements noted after a command: a list that is given a parsed form is noted with the
elements that it has. -/
def note (s : Session) (c : Command) (noted : Addr → Option (List Addr)) :
    Addr → Option (List Addr) :=
  match s.parsedBy c with
  | some x => Function.update noted x (some (s.store.heap.elements x).found)
  | none => noted

/-- The elements noted after some commands. -/
def notedFrom : List Command → Session → (Addr → Option (List Addr)) → Addr → Option (List Addr)
  | [], _, noted => noted
  | c :: cs, s, noted => notedFrom cs (s.step c).2 (s.note c noted)

/-- The elements that the list at an address had when it was last given a parsed form in a run, if
it was. -/
def noted (cs : List Command) : Addr → Option (List Addr) := notedFrom cs {} fun _ => none

theorem notedFrom_concat (cs : List Command) (c : Command) (s : Session)
    (noted : Addr → Option (List Addr)) :
    notedFrom (cs ++ [c]) s noted = (run cs s).2.note c (notedFrom cs s noted) := by
  induction cs generalizing s noted with
  | nil => rfl
  | cons d cs ih => exact ih (s.step d).2 (s.note d noted)

theorem noted_concat (cs : List Command) (c : Command) :
    noted (cs ++ [c]) = (run cs {}).2.note c (noted cs) :=
  notedFrom_concat cs c {} _

/-- Only one kind of command makes a note. -/
theorem note_of_parsedBy {s : Session} {c : Command} (hc : s.parsedBy c = none)
    (noted : Addr → Option (List Addr)) : s.note c noted = noted := by
  rw [note, hc]

/-- A list is noted if it has been given a parsed form. -/
theorem note_setParsed {s : Session} {name : String} {x : Addr} (hname : s.value? name = some x)
    (stamp : ℕ) (items : List Expr) (quiet : Bool) (noted : Addr → Option (List Addr)) :
    s.note (.adjust name (.setParsed stamp items) quiet) noted =
      if (((Adjustment.setParsed stamp items).run x).run s).1.isOk then
        Function.update noted x (some (s.store.heap.elements x).found)
      else noted := by
  rw [note, parsedBy, hname, Option.filter_some]
  split_ifs <;> rfl

/-- Only one kind of command gives a list a parsed form. -/
theorem parsedBy_eq_none {c : Command} (hc : .parse ∉ c.acts) (s : Session) :
    s.parsedBy c = none := by
  cases c with
  | adjust name a quiet =>
    cases a with
    | setParsed stamp items => simp [Command.acts, Adjustment.acts] at hc
    | _ => rfl
  | _ => rfl

end Session

/-! ### A list is given a parsed form -/

namespace Kept

variable {A B : Set Act} {F G : Multiset Addr → Heap → Prop}

/-- What is kept by more moves is kept by fewer. -/
theorem subset (hF : Kept A F) (hB : B ⊆ A) (hhold : .hold ∈ B) : Kept B F :=
  ⟨hhold, hF.exact, fun ha => hF.move (hB ha)⟩

/-- Two properties are kept together. -/
theorem and (hF : Kept A F) (hG : Kept A G) : Kept A fun held h => F held h ∧ G held h :=
  ⟨hF.hold, fun hh => hF.exact hh.1, fun ha hm hh => ⟨hF.move ha hm hh.1, hG.move ha hm hh.2⟩⟩

end Kept

/-- The list that gets a parsed form is noted with the elements that it has. -/
theorem Heap.Coherent.parse {h : Heap} {held : Multiset Addr} {x : Addr} {l : ListHeader}
    {noted : Addr → Option (List Addr)} (hco : h.Coherent noted) (hh : h.Exact held)
    (hx : h.body x = .list l) (stamp : ℕ) (parsed : List Addr) :
    (h.setBody x (.list { l with stamp, parsed })).Coherent
      (Function.update noted x (some (h.elements x).found)) := by
  intro y k hy hstamp
  by_cases hyx : y = x
  · subst hyx
    obtain rfl := Body.list.inj ((body_setBody (live_of_body hx (by simp)) _).symm.trans hy)
    rw [Function.update_self, hh.found_elements hx hy rfl rfl fun b _ =>
      cell?_setBody hx (by simp) (by rfl) b]
  · obtain ⟨hyh, hfound⟩ := hh.list_of_setBody hx (by simp) (by rfl) hyx hy
    rw [Function.update_of_ne hyx, hfound]
    exact hco y k hyh hstamp

namespace Kept

variable {F G : Multiset Addr → Heap → Prop} {s : Session} {x : Addr}
  {noted : Addr → Option (List Addr)}

/-- A command that changes a value in place, without a second one. -/
theorem step_adjust {name : String} {a : Adjustment} (hs : s.Sound F 0)
    (hunbound : s.value? name = none → s.Sound G 0)
    (hrun : ∀ x, s.value? name = some x → Ensures (a.run x) s
      (fun _ t => t.Owns G s.registers 0) fun _ t => t.Owns G s.registers 0) (quiet : Bool) :
    (s.step (.adjust name a quiet)).2.Sound G 0 := by
  have hend := fun (t : Session) (ht : t.Owns G s.registers 0) => ht.sound hs.sorted
  cases hname : s.value? name with
  | none =>
    refine Session.step_of_ensures (ensures_bind.mpr (ensures_value ?_ (hunbound hname)))
    intro x hx
    exact absurd (hname.symm.trans hx) (by simp)
  | some x =>
    refine Session.step_of_ensures (ensures_bind.mpr (ensures_value_of hname ?_))
    refine ensures_bind.mpr ((hrun x hname).mono (fun _ t ht => ?_) fun _ => hend)
    exact (step_changed ht x quiet).mono (fun _ => hend) fun _ => hend

/-- A list is given a parsed form, of which it is enough to know what the move itself does. -/
theorem run_setParsed_of (hF : Kept {.hold} F) (hG : Kept {.hold} G)
    (hs : s.Owns F s.registers 0) (stamp : ℕ)
    (hparse : ∀ {held held' : Multiset Addr} {h : Heap} {l : ListHeader} {parsed : List Addr},
      F held h → h.body x = .list l →
      Move .parse ⟨h, held⟩ ⟨h.setBody x (.list { l with stamp, parsed }), held'⟩ →
        G held' (h.setBody x (.list { l with stamp, parsed }))) (items : List Expr) :
    Ensures ((Adjustment.setParsed stamp items).run x) s (fun _ t => t.Owns G s.registers 0)
      fun _ t => t.Owns F s.registers 0 := by
  refine ensures_bind.mpr ((hF.step_evalAll hs items).mono ?_ fun _ _ => id)
  intro parsed t ht
  have hkept := ht.kept
  rw [zero_add] at hkept
  refine ensures_on.mpr ((ensures_holdingAll parsed).mpr (ensures_bind.mpr
    (ensures_assert ?_ fun _ _ => ⟨ht.registers_eq, ?_⟩)))
  · intro l hl
    -- the list takes handles of its own, and gives up those of the old parsed form
    have hretained := hF.retainAll hkept fun a ha =>
      hF.live hkept (Multiset.mem_add.mpr (Or.inr ha))
    have hx : (t.store.heap.retainAll parsed).body x = .list l :=
      (body_retainAll ..).trans (body_of_list hl)
    have hset := hparse hretained hx (.parse hx (add_right_comm _ (l.parsed : Multiset Addr) _))
    refine ensures_alter.mpr ⟨ht.registers_eq, ?_⟩
    rw [add_zero]
    exact hG.releaseAll parsed (hG.releaseAll l.parsed hset)
  · rw [add_zero]
    exact hF.releaseAll parsed hkept

/-- A list that is given a parsed form is noted with the elements that it has before; if it is not
given one, nothing has to be noted. -/
theorem run_setParsed (hs : s.Sound (fun held h => h.Exact held ∧ h.Coherent noted) 0)
    (hx : x ∈ s.held) (stamp : ℕ) (items : List Expr) :
    Ensures ((Adjustment.setParsed stamp items).run x) s
      (fun _ t => t.Owns (fun held h => h.Exact held ∧
        h.Coherent (Function.update noted x (some (s.store.heap.elements x).found))) s.registers 0)
      fun _ t => t.Owns (fun held h => h.Exact held ∧ h.Coherent noted) s.registers 0 := by
  have hsub := fun noted => (kept_coherent noted).subset (B := {.hold}) (by simp) rfl
  have hF := (hsub noted).and (kept_spares s.store.heap)
  have hexact := hs.kept.1
  have hown : s.Owns (fun held h => (h.Exact held ∧ h.Coherent noted) ∧
      h.Exact held ∧ s.store.heap.Spares h) s.registers 0 :=
    ⟨rfl, hs.kept, hexact, .refl s.store.heap⟩
  refine (hF.run_setParsed_of (hsub _) hown stamp ?_ items).mono (fun _ _ => id)
    fun _ t ht => ⟨ht.registers_eq, ht.kept.1⟩
  rintro held held' h l parsed ⟨⟨hh, hcoherent⟩, -, hspares⟩ hl hmove
  -- the elements are those that the list had before the parsed form was made
  have hfound := hspares.found_elements hexact hh
    (hexact.live_of_held (by simpa using hx)).lt_size hl
  have hset := hcoherent.parse hh hl stamp parsed
  rw [hfound] at hset
  exact ⟨hmove.exact hh, hset⟩

/-- **A list is given a parsed form**, as a command. -/
theorem step_setParsed (hs : s.Sound (fun held h => h.Exact held ∧ h.Coherent noted) 0)
    (name : String) (stamp : ℕ) (items : List Expr) (quiet : Bool) :
    (s.step (.adjust name (.setParsed stamp items) quiet)).2.Sound (fun held h => h.Exact held ∧
      h.Coherent (s.note (.adjust name (.setParsed stamp items) quiet) noted)) 0 := by
  refine step_adjust hs (fun hname => ?_) (fun x hname => ?_) quiet
  · rwa [Session.note, Session.parsedBy, hname, Option.filter_none]
  · have hrun := run_setParsed hs (Session.mem_held_of_value? hname) stamp items
    -- whether a note is made depends on how the change ends
    rw [Session.note_setParsed hname]
    unfold Ensures at hrun ⊢
    rcases hr : ((Adjustment.setParsed stamp items).run x).run s with ⟨_ | _, t⟩
    · rw [hr] at hrun
      exact hrun
    · rw [hr] at hrun
      exact hrun

end Kept

/-! ### Runs -/

namespace Session

/-- A command that rewrites something leaves a list with a parsed form only where there was one. -/
theorem exists_stamped_of_step {s : Session}
    (hs : s.Sound (fun held h => h.Exact held) 0) {c : Command} (hc : c.rewrites = true) {x : Addr}
    {l : ListHeader} (hx : (s.step c).2.store.heap.body x = .list l) (hl : l.stamp ≠ 0) :
    ∃ l', s.store.heap.body x = .list l' ∧ l'.stamp ≠ 0 := by
  let S := {x | ∃ l, s.store.heap.body x = .list l ∧ l.stamp ≠ 0}
  have hS : s.Sound (fun held h => h.Exact held ∧
      ∀ x l, h.body x = .list l → l.stamp ≠ 0 → x ∈ S) 0 :=
    ⟨hs.sorted, hs.kept, fun x l hx hl => ⟨l, hx, hl⟩⟩
  exact ((kept_stamped S).step hS c (Command.acts_of_rewrites hc)).kept.2 x l hx hl

/-- **Exactly when parsed forms are up to date throughout a run** that updates no cell directly:
whenever an element, a link or a size was rewritten, the lists that still have a parsed form must
have the elements that they had. -/
theorem coherent_iff {cs : List Command} (hcs : ∀ c ∈ cs, c.updatesCell = false) :
    (∀ p, p <+: cs → (run p {}).2.store.heap.Coherent (noted p)) ↔
      ∀ p c, p ++ [c] <+: cs → c.rewrites = true → ∀ x l,
        (run (p ++ [c]) {}).2.store.heap.body x = .list l → l.stamp ≠ 0 →
          ((run (p ++ [c]) {}).2.store.heap.elements x).found =
            ((run p {}).2.store.heap.elements x).found := by
  constructor
  · intro hcoherent p c hp hc x l hx hl
    have hbefore := hcoherent p ((List.prefix_append p [c]).trans hp)
    have hafter := hcoherent (p ++ [c]) hp x l hx hl
    have hparsed := parsedBy_eq_none (fun h => Command.acts_of_rewrites hc h rfl) (run p {}).2
    rw [noted_concat, note_of_parsedBy hparsed] at hafter
    rw [run_concat] at hx hafter ⊢
    obtain ⟨l', hx', hl'⟩ := exists_stamped_of_step (exact_sound p) hc hx hl
    exact Option.some.inj (hafter.symm.trans (hbefore x l' hx' hl'))
  intro hrewritten
  -- before each command parsed forms are up to date, by induction on the commands so far
  have hsound : ∀ p, p <+: cs →
      (run p {}).2.Sound (fun held h => h.Exact held ∧ h.Coherent (noted p)) 0 := by
    intro p
    induction p using List.reverseRecOn with
    | nil =>
      exact fun _ => sound_empty ⟨exact_empty, fun x l hx => by simp [Heap.body, block?] at hx⟩
    | append_singleton p c ih =>
      intro hp
      have hs := ih ((List.prefix_append p [c]).trans hp)
      have hc := hcs c (hp.subset (by simp))
      rw [noted_concat, run_concat]
      cases hrewrites : c.rewrites with
      | true =>
        have hend := hrewritten p c hp hrewrites
        rw [run_concat] at hend
        have hexact := kept_exact.step (exact_sound p) c (Set.subset_univ _)
        refine ⟨hexact.sorted, hexact.kept, ?_⟩
        intro x l hx hl
        obtain ⟨l', hx', hl'⟩ := exists_stamped_of_step (exact_sound p) hrewrites hx hl
        have hparsed := parsedBy_eq_none (fun h => Command.acts_of_rewrites hrewrites h rfl)
        rw [note_of_parsedBy (hparsed _), hend x l hx hl]
        exact hs.kept.2 x l' hx' hl'
      | false =>
        rcases Command.acts_of_not_rewrites hc hrewrites with ⟨name, stamp, items, quiet, rfl⟩ | hacts
        · exact Kept.step_setParsed hs name stamp items quiet
        · rw [note_of_parsedBy (parsedBy_eq_none (fun h => by simpa using hacts h) _)]
          exact (kept_coherent (noted p)).step hs c hacts
  exact fun p hp => (hsound p hp).kept.2

/-- The cells of a list with a parsed form are shared by a longer list, and the first element of that
one is replaced.  It is in a cell of its own, so the parsed form is up to date. -/
theorem coherent_of_shared :
    let cs : List Command := [.build (.words ["a", "b"]) ⟨some "x", true⟩,
      .adjust "x" (.setParsed 1 []) true, .combine "x" .cons (.text "z" false) ⟨some "y", true⟩,
      .change "y" (.setFirst .checked) (.text "w" false) true]
    let h := (run cs {}).2.store.heap
    (∀ c ∈ cs, c.updatesCell = false) ∧ h.body 5 = .list { head := 4, size := 2, stamp := 1 } ∧
      h.body 8 = .list { head := 7, size := 3 } ∧ h.next? 7 = some 4 ∧
      ∀ p, p <+: cs → (run p {}).2.store.heap.Coherent (noted p) := by
  intro cs h
  have hcs : ∀ c ∈ cs, c.updatesCell = false := by decide
  have hfacts : h.body 5 = .list { head := 4, size := 2, stamp := 1 } ∧
      h.body 8 = .list { head := 7, size := 3 } ∧ h.next? 7 = some 4 ∧ h.blocks.size = 10 ∧
      ∀ x < 10, ∀ l ∈ (h.body x).list?, l.stamp ≠ 0 →
        (h.elements x).found = ((run (cs.take 3) {}).2.store.heap.elements x).found := by
    decide +kernel
  obtain ⟨hx, hy, hnext, hsize, hkept⟩ := hfacts
  refine ⟨hcs, hx, hy, hnext, (coherent_iff hcs).mpr ?_⟩
  intro p c hp hc x l hl hstamp
  -- only the last command rewrites anything
  obtain ⟨htake, hc'⟩ := eq_take_of_concat_prefix hp
  generalize p.length = i at htake hc'
  rcases i with _ | _ | _ | _ | i <;> simp [cs] at hc' <;> subst hc' <;>
    simp [Command.rewrites] at hc
  rw [htake] at hl ⊢
  have hlt : x < 10 := hsize ▸ (live_of_body hl (by simp)).lt_size
  exact hkept x hlt l (by rw [show h.body x = .list l from hl]; rfl) hstamp

/-- **A parsed form can be out of date**: two lists share their cells, and an element is replaced in
the one that has no parsed form. -/
theorem parsed_form_out_of_date :
    let cs : List Command := [.make (.list [.text "a" false, .text "b" false]) ⟨some "x", true⟩,
      .adjust "x" (.setParsed 1 []) true, .derive "x" (.piece .butFirst .checked) ⟨some "y", true⟩,
      .change "y" (.setFirst .checked) (.text "z" false) true]
    (∀ c ∈ cs, c.updatesCell = false) ∧ ¬(run cs {}).2.store.heap.Coherent (noted cs) := by
  intro cs
  set h := (run cs {}).2.store.heap
  have hx : h.body 5 = .list { head := 4, size := 2, stamp := 1 } := by decide +kernel
  have hnoted : noted cs 5 = some [0, 1] := by decide +kernel
  have hfound : (h.elements 5).found = [0, 7] := by decide +kernel
  refine ⟨by decide, fun hcoherent => ?_⟩
  have hentry := hcoherent 5 _ hx (by simp)
  rw [hnoted, hfound] at hentry
  exact absurd hentry (by decide)

end Session

end SharedValues
