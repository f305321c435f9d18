import SharedValues.Proofs.Query.Acyclic
import SharedValues.Query.Containment

/-!
# Containment is reachability

The search for a value goes down through lists and arrays, and all of its branches share one list of
the sequences that were entered.  A sequence that is met again is not searched again, although the
search of it may not be over: it may be the one that the search is inside of.  Nothing is missed by
that.  A search without success leaves sequences behind that are *explored*: none of their elements
is what was sought, and the elements that are sequences were entered too.  So at the end, when all
that was entered is explored, the sequences entered are closed under elements, and the value that
was sought is not among the elements of any of them.

The value at which the search starts is entered, but not looked at.  It counts only if it is met
again as an element.

## Main definitions

* `Heap.Answers` — an element is what is sought.
* `Heap.Hides` — a value is what is sought, or leads to it.
* `Heap.Entered` — the sequences that were entered, with enough levels left.
* `Heap.Explored` — what a search without success leaves behind.
* `Heap.Outcome` — how a search ends.

## Main results

* `ensures_searchWalk`, `ensures_searchWithin` — what one walk and one search establish.
* `contains_iff_reaches` — a value is contained in a sequence exactly if it is reached from it.
-/

namespace SharedValues.Heap

variable {h : Heap} {σ : Settled} {ignoreCase : Bool} {needle a b x y : Addr} {n : ℕ}
  {seen seen' seen'' : List Addr}

/-! ### What is sought -/

/-- A word has the one that is sought as a part. -/
def HasPart (h : Heap) (ignoreCase : Bool) (e needle : Addr) : Prop :=
  ∃ w v, h.body e = .word w ∧ h.body needle = .word v ∧ (w.seek? ignoreCase v).isSome

/-- **An element is what is sought**: it is the very block, or both are words and the one that is
sought is a part of it. -/
def Answers (h : Heap) (ignoreCase : Bool) (e needle : Addr) : Prop :=
  e = needle ∨ h.HasPart ignoreCase e needle

/-- A value has what is sought: as a word that has it as a part, or below it. -/
def Hides (h : Heap) (ignoreCase : Bool) (x needle : Addr) : Prop :=
  h.HasPart ignoreCase x needle ∨
    ∃ e, Relation.TransGen h.HasElement x e ∧ h.Answers ignoreCase e needle

/-- Only sequences have elements. -/
theorem HasElement.isSequence (hab : h.HasElement a b) : h.IsSequence a := by
  unfold HasElement elements at hab
  unfold IsSequence kind
  revert hab
  cases h.body a <;> simp [Body.kind]

theorem IsSequence.not_hasPart (hx : h.IsSequence x) : ¬h.HasPart ignoreCase x needle := by
  intro hpart
  obtain ⟨w, -, hw, -, -⟩ := hpart
  rw [IsSequence, kind_of_word hw] at hx
  simp at hx

/-- What is below an element is below the sequence. -/
theorem Hides.of_element (hxb : h.HasElement x b)
    (hb : h.Answers ignoreCase b needle ∨ h.Hides ignoreCase b needle) :
    h.Hides ignoreCase x needle := by
  rcases hb with hb | hb | ⟨e, hbe, he⟩
  · exact .inr ⟨b, .single hxb, hb⟩
  · exact .inr ⟨b, .single hxb, .inr hb⟩
  · exact .inr ⟨e, .head hxb hbe, he⟩

/-! ### The sequences entered -/

/-- The sequences that were entered, none of them twice, with `n` levels left: there are more
levels, used and unused, than blocks. -/
structure Entered (h : Heap) (n : ℕ) (seen : List Addr) : Prop where
  /-- No sequence was entered twice. -/
  nodup : seen.Nodup
  /-- The sequences are live. -/
  live : ∀ a ∈ seen, h.Live a
  /-- There are more levels than blocks. -/
  room : h.blocks.size < n + seen.length

namespace Entered

theorem nil (h : Heap) : h.Entered (h.blocks.size + 2) [] where
  nodup := List.nodup_nil
  live := by simp
  room := by simp

/-- There is a level left. -/
theorem ne_zero (hseen : h.Entered n seen) : n ≠ 0 := by
  rintro rfl
  have hsubset : seen ⊆ List.range h.blocks.size := fun a ha =>
    List.mem_range.mpr (hseen.live a ha).lt_size
  have hlength := hseen.nodup.length_le_of_subset hsubset
  have hroom := hseen.room
  rw [List.length_range] at hlength
  omega

/-- One level is used up for a sequence that was not entered before. -/
theorem enter (hseen : h.Entered (n + 1) seen) (hx : h.Live x) (hnew : x ∉ seen) :
    h.Entered n (x :: seen) where
  nodup := List.nodup_cons.mpr ⟨hnew, hseen.nodup⟩
  live := List.forall_mem_cons.mpr ⟨hx, hseen.live⟩
  room := by
    have hroom := hseen.room
    rw [List.length_cons]
    omega

/-- Above, there are more levels. -/
theorem leave (hseen : h.Entered n seen) : h.Entered (n + 1) seen where
  nodup := hseen.nodup
  live := hseen.live
  room := hseen.room.trans (by omega)

end Entered

/-- The value is not what is sought, as far as it was looked into: it is no word that has it as a
part, and if it is a sequence then it was entered. -/
def Dismissed (h : Heap) (ignoreCase : Bool) (needle : Addr) (seen : List Addr) (e : Addr) :
    Prop :=
  ¬h.HasPart ignoreCase e needle ∧ (h.IsSequence e → e ∈ seen)

/-- **What a search without success leaves behind.**  More sequences were entered, and those that
came to the ones before have only elements that are not what is sought, and the sequences among
these were entered as well. -/
structure Explored (h : Heap) (ignoreCase : Bool) (needle : Addr) (seen seen' : List Addr) :
    Prop where
  /-- What was entered stays so. -/
  subset : seen ⊆ seen'
  /-- The elements of what was entered are dismissed. -/
  elements : ∀ a ∈ seen', a ∉ seen → ∀ b, h.HasElement a b →
    b ≠ needle ∧ h.Dismissed ignoreCase needle seen' b

theorem Dismissed.mono {e : Addr} (he : h.Dismissed ignoreCase needle seen e)
    (hsub : seen ⊆ seen') : h.Dismissed ignoreCase needle seen' e :=
  ⟨he.1, fun hseq => hsub (he.2 hseq)⟩

namespace Explored

theorem refl (seen : List Addr) : h.Explored ignoreCase needle seen seen where
  subset := List.Subset.refl seen
  elements _ ha hnew := absurd ha hnew

theorem trans (hfst : h.Explored ignoreCase needle seen seen')
    (hsnd : h.Explored ignoreCase needle seen' seen'') :
    h.Explored ignoreCase needle seen seen'' where
  subset := List.Subset.trans hfst.subset hsnd.subset
  elements a ha hnew b hab := by
    by_cases hmem : a ∈ seen'
    · obtain ⟨hne, hb⟩ := hfst.elements a hmem hnew b hab
      exact ⟨hne, hb.mono hsnd.subset⟩
    · exact hsnd.elements a ha hmem b hab

/-- A sequence is explored once all its elements are dismissed. -/
theorem enter (hin : h.Explored ignoreCase needle (x :: seen) seen')
    (hx : ∀ b, h.HasElement x b → b ≠ needle ∧ h.Dismissed ignoreCase needle seen' b) :
    h.Explored ignoreCase needle seen seen' where
  subset := List.Subset.trans (List.subset_cons_self x seen) hin.subset
  elements a ha hnew b hab := by
    by_cases hax : a = x
    · subst hax
      exact hx b hab
    · exact hin.elements a ha (by simp [hax, hnew]) b hab

/-- **Nothing is missed.**  Where all that was entered is explored, what is below a sequence that
was entered is not what is sought. -/
theorem not_answers (hall : h.Explored ignoreCase needle [] seen) (hx : x ∈ seen)
    (hxy : Relation.TransGen h.HasElement x y) :
    ¬h.Answers ignoreCase y needle ∧ (h.IsSequence y → y ∈ seen) := by
  have hstep : ∀ a ∈ seen, ∀ b, h.HasElement a b →
      ¬h.Answers ignoreCase b needle ∧ (h.IsSequence b → b ∈ seen) := by
    intro a ha b hab
    obtain ⟨hne, hpart, hseq⟩ := hall.elements a ha List.not_mem_nil b hab
    exact ⟨not_or.mpr ⟨hne, hpart⟩, hseq⟩
  induction hxy with
  | single hxb => exact hstep x hx _ hxb
  | tail _ hbc ih => exact hstep _ (ih.2 hbc.isSequence) _ hbc

end Explored

/-! ### The search -/

/-- **How a search ends**, after some sequences were entered: with success if there was a `hit`, and
otherwise everything entered on the way is explored, levels are left, and it was a `miss`. -/
inductive Outcome (h : Heap) (ignoreCase : Bool) (needle : Addr) (n : ℕ) (seen : List Addr)
    (hit : Prop) (miss : List Addr → Prop) : Bool × List Addr → Prop
  | found {seen' : List Addr} (hhit : hit) :
      Outcome h ignoreCase needle n seen hit miss (true, seen')
  | missed {seen' : List Addr} (hentered : h.Entered n seen')
      (hexplored : h.Explored ignoreCase needle seen seen') (hmiss : miss seen') :
      Outcome h ignoreCase needle n seen hit miss (false, seen')

/-- How the search in one value ends. -/
def SearchOutcome (h : Heap) (ignoreCase : Bool) (needle : Addr) (n : ℕ) (seen : List Addr)
    (x : Addr) : Bool × List Addr → Prop :=
  h.Outcome ignoreCase needle n seen (h.Hides ignoreCase x needle)
    fun seen' => h.Dismissed ignoreCase needle seen' x

/-- How the search in an element ends that is compared with what is sought first. -/
def ElementOutcome (h : Heap) (ignoreCase : Bool) (needle : Addr) (n : ℕ) (seen : List Addr)
    (e : Addr) : Bool × List Addr → Prop :=
  h.Outcome ignoreCase needle n seen
    (h.Answers ignoreCase e needle ∨ h.Hides ignoreCase e needle)
    fun seen' => e ≠ needle ∧ h.Dismissed ignoreCase needle seen' e

/-- **One walk**: if the searches below the elements end as they should, each with the sequences
that were entered by the ones before, so does the walk through all of them. -/
theorem ensures_searchWalk {search : List Addr → Addr → Query Fault (Bool × List Addr)}
    {es : List Addr} (hsearch : ∀ e ∈ es, ∀ seen σ, h.Entered n seen →
      Ensures (search seen e) σ (fun r _ => h.ElementOutcome ignoreCase needle n seen e r)
        fun _ _ => False) (hseen : h.Entered n seen) :
    Ensures (searchWalk search es none seen) σ
      (fun r _ => h.Outcome ignoreCase needle n seen
        (∃ e ∈ es, h.Answers ignoreCase e needle ∨ h.Hides ignoreCase e needle)
        (fun seen' => ∀ e ∈ es, e ≠ needle ∧ h.Dismissed ignoreCase needle seen' e) r)
      fun _ _ => False := by
  induction es generalizing seen σ with
  | nil => exact ensures_pure.mpr (.missed hseen (.refl seen) (by simp))
  | cons e es ih =>
    rw [searchWalk]
    refine ensures_bind.mpr ((hsearch e List.mem_cons_self seen σ hseen).mono ?_ fun _ _ => id)
    intro r τ hr
    cases hr with
    | found hhit => exact ensures_pure.mpr (.found ⟨e, List.mem_cons_self, hhit⟩)
    | missed hentered hexplored hmiss =>
      have hrest := ih (σ := τ) (fun e he => hsearch e (List.mem_cons_of_mem _ he)) hentered
      refine hrest.mono (fun r _ hr => ?_) fun _ _ => id
      cases hr with
      | found hhit =>
        obtain ⟨e', he', hhit⟩ := hhit
        exact .found ⟨e', List.mem_cons_of_mem _ he', hhit⟩
      | missed hentered' hexplored' hmiss' =>
        -- what was dismissed stays so, since nothing that was entered is forgotten
        have hdismissed := hmiss.2.mono hexplored'.subset
        exact .missed hentered' (hexplored.trans hexplored')
          (List.forall_mem_cons.mpr ⟨⟨hmiss.1, hdismissed⟩, hmiss'⟩)

theorem searchWithin_of_sequence (hx : h.IsSequence x) :
    h.searchWithin ignoreCase needle (n + 1) seen x =
      if seen.contains x then pure (false, seen)
      else searchWalk (fun seen e => if e = needle then pure (true, seen)
          else h.searchWithin ignoreCase needle n seen e)
        (h.elements x).found (h.elements x).fault? (x :: seen) := by
  rw [searchWithin]
  unfold IsSequence kind at hx
  revert hx
  cases h.body x <;> simp [Body.kind]

/-- Values that are not sequences are not searched, except that a word may have a part. -/
theorem run_searchWithin_of_not_sequence (hx : ¬h.IsSequence x) :
    ∃ r τ, (h.searchWithin ignoreCase needle (n + 1) seen x).run σ = (.ok (r, seen), τ) ∧
      (r = true ↔ h.HasPart ignoreCase x needle) := by
  rw [searchWithin]
  unfold HasPart
  unfold IsSequence kind at hx
  revert hx
  -- a part of a word can only be a word, so the search asks a question of the two words or none
  cases h.body x with
  | word w =>
    intro _
    cases h.body needle with
    | word v =>
      refine ⟨(w.seek? ignoreCase v).isSome, (σ.told x w).told needle v, ?_, by simp⟩
      dsimp only
      rw [run_bind, Query.run_wordSeek?]
      rfl
    | nothing | cell | list | array | node | procedure | error =>
      exact ⟨false, σ, rfl, by simp⟩
  | list | array => simp [Body.kind]
  | nothing | cell | node | procedure | error =>
    intro _
    exact ⟨false, σ, rfl, by simp⟩

/-- An element that is the value sought is not searched any more. -/
theorem ensures_searchElement {e : Addr}
    (he : Ensures (h.searchWithin ignoreCase needle n seen e) σ
      (fun r _ => h.SearchOutcome ignoreCase needle n seen e r) fun _ _ => False) :
    Ensures (if e = needle then pure (true, seen) else h.searchWithin ignoreCase needle n seen e) σ
      (fun r _ => h.ElementOutcome ignoreCase needle n seen e r) fun _ _ => False := by
  split
  · next heq => exact ensures_pure.mpr (.found (.inl (.inl heq)))
  · next hne =>
    refine he.mono (fun r _ hr => ?_) fun _ _ => id
    cases hr with
    | found hhit => exact .found (.inr hhit)
    | missed hentered hexplored hmiss => exact .missed hentered hexplored ⟨hne, hmiss⟩

/-- **One search**, with levels enough for all that was not entered yet: it ends, with success only
if the value has what is sought, and otherwise with all that it entered explored. -/
theorem ensures_searchWithin (hlists : ∀ x l, h.body x = .list l → h.Linked l.head)
    (hseen : h.Entered n seen) (x : Addr) :
    Ensures (h.searchWithin ignoreCase needle n seen x) σ
      (fun r _ => h.SearchOutcome ignoreCase needle n seen x r) fun _ _ => False := by
  induction n generalizing seen x σ with
  | zero => exact absurd rfl hseen.ne_zero
  | succ n ih =>
    by_cases hseq : h.IsSequence x
    swap
    · obtain ⟨r, τ, hrun, hr⟩ := run_searchWithin_of_not_sequence hseq
      refine (ensures_of_ok hrun).mpr ?_
      cases r with
      | true => exact .found (.inl (hr.mp rfl))
      | false =>
        have hpart : ¬h.HasPart ignoreCase x needle := fun hpart => absurd (hr.mpr hpart) (by simp)
        exact .missed hseen (.refl seen) ⟨hpart, fun hx => absurd hx hseq⟩
    rw [searchWithin_of_sequence hseq, fault?_elements (hlists x)]
    split
    · next hmem =>
      -- the sequence was entered before, maybe by a search that this one is a part of
      exact ensures_pure.mpr (.missed hseen (.refl seen)
        ⟨hseq.not_hasPart, fun _ => List.contains_iff_mem.mp hmem⟩)
    · next hnew =>
      have hin := hseen.enter hseq.live fun hmem => hnew (List.contains_iff_mem.mpr hmem)
      have helement : ∀ e ∈ (h.elements x).found, ∀ seen σ, h.Entered n seen → _ :=
        fun e _ seen σ hseen => ensures_searchElement (ih (σ := σ) hseen e)
      have hwalk := ensures_searchWalk (σ := σ) helement hin
      refine hwalk.mono (fun r τ hr => ?_) fun _ _ => id
      cases hr with
      | found hhit =>
        obtain ⟨e, he, hhit⟩ := hhit
        exact .found (.of_element he hhit)
      | missed hentered hexplored hmiss =>
        exact .missed hentered.leave (hexplored.enter hmiss)
          ⟨hseq.not_hasPart, fun _ => hexplored.subset List.mem_cons_self⟩

/-! ### Containment -/

theorem contains_of_sequence (hx : h.IsSequence x) :
    h.contains ignoreCase x needle =
      Prod.fst <$> h.searchWithin ignoreCase needle (h.blocks.size + 2) [] x := by
  rcases hx with hx | hx <;> rw [contains, hx] <;> rfl

/-- **Containment is reachability.**  If the chains of all lists are made of cells, in whatever way
the values contain each other or themselves, the search in a list or an array ends.  It finds a
value exactly if one can go from the sequence, by one step to an element or by more, to that very
value, or for a word to a word that it is a part of. -/
theorem contains_iff_reaches (hlists : ∀ x l, h.body x = .list l → h.Linked l.head)
    (hx : h.IsSequence x) (ignoreCase : Bool) (needle : Addr) (σ : Settled) :
    ∃ r τ, (h.contains ignoreCase x needle).run σ = (.ok r, τ) ∧
      (r = true ↔
        ∃ e, Relation.TransGen h.HasElement x e ∧ h.Answers ignoreCase e needle) := by
  have hsearch : Ensures (h.contains ignoreCase x needle) σ (fun r _ => r = true ↔
      ∃ e, Relation.TransGen h.HasElement x e ∧ h.Answers ignoreCase e needle)
      fun _ _ => False := by
    rw [contains_of_sequence hx]
    refine ensures_map.mpr ((ensures_searchWithin hlists (.nil h) x).mono (fun r _ hr => ?_)
      fun _ _ => id)
    cases hr with
    | found hhit => exact iff_of_true rfl (hhit.resolve_left hx.not_hasPart)
    | missed _ hexplored hmiss =>
      -- the search has explored all that it saw, so whatever is reached was looked at and missed
      refine iff_of_false Bool.false_ne_true fun hfound => ?_
      obtain ⟨e, hxe, he⟩ := hfound
      exact (hexplored.not_answers (hmiss.2 hx) hxe).1 he
  obtain ⟨r, τ, hrun, hr⟩ := hsearch.exists_ok
  exact ⟨r, τ, hrun, hr⟩

/-- In a list that contains itself, one meets the list again, and a word that has the letter `A` as
a part if the case of letters does not matter, but never the array that has the list as an
element. -/
theorem self_containing_reaches :
    let s := (Session.run [.build (.selfContaining ["a"]) ⟨some "x", true⟩,
      .make (.text "A" false) ⟨some "n", true⟩,
      .make (.array 1 [.register "x", .register "n"]) ⟨some "y", true⟩] {}).2.store
    (∀ x l, s.heap.body x = .list l → s.heap.Linked l.head) ∧ s.heap.IsSequence 3 ∧
      (∃ e, Relation.TransGen s.heap.HasElement 3 e ∧ s.heap.Answers false e 3) ∧
      (∃ e, Relation.TransGen s.heap.HasElement 3 e ∧ s.heap.Answers true e 5) ∧
      (¬∃ e, Relation.TransGen s.heap.HasElement 3 e ∧ s.heap.Answers false e 5) ∧
      ¬∃ e, Relation.TransGen s.heap.HasElement 3 e ∧ s.heap.Answers true e 6 := by
  intro s
  have hlists : ∀ x l, s.heap.body x = .list l → s.heap.Linked l.head := by
    intro x l hl
    refine (Session.measured_run ?_ x l hl).1
    simp [Command.acts, Source.acts, Set.insert_subset_iff]
  have hseq : s.heap.IsSequence 3 := by decide +kernel
  -- each of the four statements is read off an answer of the search
  have hsearch : ∀ ignoreCase needle r,
      ((s.heap.contains ignoreCase 3 needle).run s.settled).1 = .ok r →
      (r = true ↔ ∃ e, Relation.TransGen s.heap.HasElement 3 e ∧
        s.heap.Answers ignoreCase e needle) := by
    intro ignoreCase needle r hr
    obtain ⟨r', τ, hrun, hr'⟩ := contains_iff_reaches hlists hseq ignoreCase needle s.settled
    rw [hrun] at hr
    obtain rfl := Except.ok.inj hr
    exact hr'
  have hanswers : ((s.heap.contains false 3 3).run s.settled).1 = .ok true ∧
      ((s.heap.contains true 3 5).run s.settled).1 = .ok true ∧
      ((s.heap.contains false 3 5).run s.settled).1 = .ok false ∧
      ((s.heap.contains true 3 6).run s.settled).1 = .ok false := by decide +kernel
  obtain ⟨hself, hpart, hcase, hnone⟩ := hanswers
  refine ⟨hlists, hseq, (hsearch _ _ _ hself).mp rfl, (hsearch _ _ _ hpart).mp rfl, ?_, ?_⟩
  · exact fun hfound => Bool.false_ne_true ((hsearch _ _ _ hcase).mpr hfound)
  · exact fun hfound => Bool.false_ne_true ((hsearch _ _ _ hnone).mpr hfound)

end SharedValues.Heap
