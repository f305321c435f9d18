import Mathlib.Data.Set.Function
import SharedValues.Proofs.Query.Context
import SharedValues.Proofs.Query.Written

/-!
# Isomorphic structures

Two structures are isomorphic if the lists and arrays within them match one by one, with the same
elements at the same positions.  Comparisons and renderings go by the identity of sequences, and by
their places among those that were entered before; an isomorphism carries the one traversal over to
the other, so neither tells the two structures apart.

## Main definitions

* `Heap.Corresponds` — two values at the same place of two structures.
* `Heap.Isomorphism` — the sequences of two structures match one by one.

## Main results

* `Heap.Isomorphism.run_equalWithin` — values at the same place compare equal.
* `Heap.Isomorphism.written_eq` — values at the same place are written alike.
* `Heap.isomorphic_indistinguishable` — isomorphic structures are equal and written alike.
-/

namespace SharedValues

/-! ### Words in text form -/

namespace Word

variable {v w : Word} {p q : Bool}

theorem freshness_eq_text_iff : w.freshness p = .text ↔ w.isNumeric p = false := by
  unfold freshness isNumeric
  cases p <;> cases w.isNumber <;> simp

/-- A word in text form is written by its raw text. -/
theorem render_of_text (hv : v.freshness p = .text) (hw : w.freshness q = .text)
    (hraw : v.raw = w.raw) (o : PrintOptions) : w.render q o = v.render p o := by
  have hprintable : v.printable = w.printable := by rw [printable, printable, hraw]
  unfold render
  rw [freshness_eq_text_iff.mp hv, freshness_eq_text_iff.mp hw, hraw, hprintable]

end Word

namespace Heap

variable {h : Heap} {σ : Settled} {f : Addr → Addr} {a b c d x y : Addr}

/-! ### Isomorphisms -/

/-- Two values at the same place of two structures, the sequences of which match by `f`. -/
inductive Corresponds (h : Heap) (σ : Settled) (f : Addr → Addr) : Addr → Addr → Prop
  /-- A list or an array matches its image. -/
  | sequence {c : Addr} : h.IsSequence c → Corresponds h σ f c (f c)
  /-- Words in text form have the same raw text. -/
  | word {c d : Addr} {v w : Word} : h.body c = .word v → h.body d = .word w →
    v.freshness (σ.contains c) = .text → w.freshness (σ.contains d) = .text → v.raw = w.raw →
    Corresponds h σ f c d
  /-- Any other value is the same block, and neither a syntax node nor an error. -/
  | leaf {c : Addr} : ¬h.IsSequence c → h.kind c ≠ .node → h.kind c ≠ .error →
    Corresponds h σ f c c

/-- **The structures of two sequences are isomorphic**: the lists and arrays within them match one
by one, and so do their elements. -/
structure Isomorphism (h : Heap) (σ : Settled) (f : Addr → Addr) (x y : Addr) : Prop where
  /-- The first value is a list or an array. -/
  isSequence : h.IsSequence x
  /-- The two values match. -/
  apply_eq : f x = y
  /-- The lists and arrays within the two values match one by one. -/
  bijective : Set.BijOn f {a | h.Within x a ∧ h.IsSequence a} {b | h.Within y b ∧ h.IsSequence b}
  /-- Sequences that match are of one kind. -/
  kind_eq : ∀ a, h.Within x a → h.IsSequence a → h.kind (f a) = h.kind a
  /-- Sequences that match report the same size. -/
  extent_eq : ∀ a, h.Within x a → h.IsSequence a → h.extent (f a) = h.extent a
  /-- The elements of sequences that match are at the same places. -/
  elements : ∀ a, h.Within x a → h.IsSequence a →
    List.Forall₂ (h.Corresponds σ f) (h.elements a).found (h.elements (f a)).found

/-- Values that are neither sequences nor syntax nodes nor errors have no parts. -/
theorem parts_eq_nil (ha : ¬h.IsSequence a) (hnode : h.kind a ≠ .node)
    (herror : h.kind a ≠ .error) : h.parts a = [] := by
  unfold IsSequence kind at ha
  unfold kind at hnode herror
  unfold parts elements
  revert ha hnode herror
  cases h.body a <;> simp [Body.kind]

theorem kind_ne_of_word {w : Word} (ha : h.body a = .word w) :
    ¬h.IsSequence a ∧ h.kind a ≠ .node ∧ h.kind a ≠ .error := by
  simp [IsSequence, kind, ha, Body.kind]

/-- Where no syntax node and no error is, everything is legible. -/
theorem legible_of_kind_ne
    (hlinked : ∀ a l, h.Within x a → h.body a = .list l → h.Linked l.head)
    (hkind : ∀ a, h.Within x a → h.kind a ≠ .node ∧ h.kind a ≠ .error) : h.Legible x where
  linked := hlinked
  error a code text tag ha hbody := absurd (by rw [kind, hbody, Body.kind]) (hkind a ha).2
  node a ha hself := by
    obtain ⟨b, hstep, -⟩ := Relation.TransGen.head'_iff.mp hself
    exact (hkind a ha).1 hstep.1

/-- The members of two lists that match have each other. -/
private theorem exists_rel_of_mem {R : Addr → Addr → Prop} {as bs : List Addr}
    (h : List.Forall₂ R as bs) :
    (∀ a ∈ as, ∃ b, R a b) ∧ ∀ b ∈ bs, ∃ a ∈ as, R a b := by
  induction h with
  | nil => simp
  | cons hab _ ih =>
    refine ⟨List.forall_mem_cons.mpr ⟨⟨_, hab⟩, ih.1⟩, List.forall_mem_cons.mpr ⟨?_, ?_⟩⟩
    · exact ⟨_, List.mem_cons_self, hab⟩
    · intro b hb
      obtain ⟨a, ha, hab⟩ := ih.2 b hb
      exact ⟨a, List.mem_cons_of_mem _ ha, hab⟩

namespace Isomorphism

theorem start (hf : h.Isomorphism σ f x y) : h.Corresponds σ f x y :=
  hf.apply_eq ▸ .sequence hf.isSequence

theorem image (hf : h.Isomorphism σ f x y) (hc : h.Within x c) (hseq : h.IsSequence c) :
    h.Within y (f c) ∧ h.IsSequence (f c) :=
  hf.bijective.mapsTo ⟨hc, hseq⟩

/-- Sequences that match have the same place among those that were entered before. -/
theorem apply_eq_iff (hf : h.Isomorphism σ f x y) (hc : h.Within x c) (hseq : h.IsSequence c)
    (hd : h.Within x d) (hseq' : h.IsSequence d) : f c = f d ↔ c = d :=
  ⟨fun heq => hf.bijective.injOn ⟨hc, hseq⟩ ⟨hd, hseq'⟩ heq, congrArg f⟩

/-- The parts of values that correspond do so, too. -/
theorem parts (hf : h.Isomorphism σ f x y) (hc : h.Within x c) (hcd : h.Corresponds σ f c d) :
    List.Forall₂ (h.Corresponds σ f) (h.parts c) (h.parts d) := by
  cases hcd with
  | sequence hseq =>
    rw [parts_of_sequence hseq, parts_of_sequence (hf.image hc hseq).2]
    exact hf.elements c hc hseq
  | word hv hw _ _ _ =>
    obtain ⟨hseq, hnode, herror⟩ := kind_ne_of_word hv
    obtain ⟨hseq', hnode', herror'⟩ := kind_ne_of_word hw
    rw [parts_eq_nil hseq hnode herror, parts_eq_nil hseq' hnode' herror']
    exact .nil
  | leaf hseq hnode herror =>
    rw [parts_eq_nil hseq hnode herror]
    exact .nil

/-- Values that correspond are of one kind, and neither syntax nodes nor errors. -/
theorem kinds (hf : h.Isomorphism σ f x y) (hc : h.Within x c) (hcd : h.Corresponds σ f c d) :
    h.kind d = h.kind c ∧ h.kind c ≠ .node ∧ h.kind c ≠ .error := by
  cases hcd with
  | sequence hseq => exact ⟨hf.kind_eq c hc hseq, hseq.kind_ne⟩
  | word hv hw _ _ _ => simp [kind, hv, hw, Body.kind]
  | leaf hseq hnode herror => exact ⟨rfl, hnode, herror⟩

/-- Everything within the first structure corresponds to something. -/
theorem exists_right (hf : h.Isomorphism σ f x y) (hc : h.Within x c) :
    ∃ d, h.Corresponds σ f c d := by
  induction hc with
  | refl => exact ⟨y, hf.start⟩
  | tail hb hpart ih =>
    obtain ⟨d, hbd⟩ := ih
    exact (exists_rel_of_mem (hf.parts hb hbd)).1 _ hpart

/-- Everything within the second structure corresponds to something in the first one. -/
theorem exists_left (hf : h.Isomorphism σ f x y) (hd : h.Within y d) :
    ∃ c, h.Within x c ∧ h.Corresponds σ f c d := by
  induction hd with
  | refl => exact ⟨x, .refl, hf.start⟩
  | tail _ hpart ih =>
    obtain ⟨b, hb, hbd⟩ := ih
    obtain ⟨c, hc, hcd⟩ := (exists_rel_of_mem (hf.parts hb hbd)).2 _ hpart
    exact ⟨c, hb.tail hc, hcd⟩

theorem legible_left (hf : h.Isomorphism σ f x y)
    (hlinked : ∀ a l, h.Within x a → h.body a = .list l → h.Linked l.head) : h.Legible x := by
  refine legible_of_kind_ne hlinked fun c hc => ?_
  obtain ⟨d, hcd⟩ := hf.exists_right hc
  exact (hf.kinds hc hcd).2

theorem legible_right (hf : h.Isomorphism σ f x y)
    (hlinked : ∀ a l, h.Within y a → h.body a = .list l → h.Linked l.head) : h.Legible y := by
  refine legible_of_kind_ne hlinked fun d hd => ?_
  obtain ⟨c, hc, hcd⟩ := hf.exists_left hd
  obtain ⟨hkind, hne⟩ := hf.kinds hc hcd
  rw [hkind]
  exact hne

/-- The elements of sequences that match, with what is known of the first ones. -/
theorem elements_within (hf : h.Isomorphism σ f x y) (hc : h.Within x c) (hseq : h.IsSequence c) :
    List.Forall₂ (fun a b => (a ∈ (h.elements c).found ∧ h.Within x a) ∧ h.Corresponds σ f a b)
      (h.elements c).found (h.elements (f c)).found := by
  refine (List.forall₂_and_left ..).mpr ⟨fun a ha => ⟨ha, hc.tail ?_⟩, hf.elements c hc hseq⟩
  rwa [parts_of_sequence hseq]

/-! ### Comparing -/

/-- The pairs of a trail match. -/
def Matches (h : Heap) (f : Addr → Addr) (x : Addr) (trail : Trail) : Prop :=
  ∀ p ∈ trail, p.2 = f p.1 ∧ h.Within x p.1 ∧ h.IsSequence p.1

/-- Two tests that agree on the members of a list find the same place. -/
private theorem findIdx?_congr {α : Type} {p q : α → Bool} {as : List α}
    (hpq : ∀ a ∈ as, p a = q a) : as.findIdx? p = as.findIdx? q := by
  induction as with
  | nil => rfl
  | cons a as ih =>
    rw [List.findIdx?_cons, List.findIdx?_cons, hpq a List.mem_cons_self,
      ih fun b hb => hpq b (List.mem_cons_of_mem a hb)]

/-- Sequences that match were entered at the same level. -/
theorem levels_eq (hf : h.Isomorphism σ f x y) {trail : Trail} (hmatch : Matches h f x trail)
    (hc : h.Within x c) (hseq : h.IsSequence c) :
    trail.findIdx? (·.1 == c) = trail.findIdx? (·.2 == f c) := by
  refine findIdx?_congr fun p hp => ?_
  obtain ⟨hp2, hp1, hpseq⟩ := hmatch p hp
  rw [hp2, Bool.eq_iff_iff, beq_iff_eq, beq_iff_eq, hf.apply_eq_iff hp1 hpseq hc hseq]

/-- A comparison of elements that compare equal, pair by pair. -/
private theorem run_walksEqual {ε : Type} {same : Addr → Addr → Query ε Bool} {halt : Fault → ε}
    {as bs : List Addr} (h : List.Forall₂ (fun a b => (same a b).run σ = (.ok true, σ)) as bs) :
    (walksEqual same halt as none bs none).run σ = (.ok true, σ) := by
  induction h with
  | nil => rfl
  | cons hab _ ih =>
    rw [walksEqual, run_bind, hab]
    exact ih

/-- **Values at the same place compare equal**, and no word is settled by that. -/
theorem run_equalWithin (hf : h.Isomorphism σ f x y)
    (hleft : ∀ a l, h.Within x a → h.body a = .list l → h.Linked l.head)
    (hright : ∀ a l, h.Within y a → h.body a = .list l → h.Linked l.head) {n : ℕ} {trail : Trail}
    (ht : h.Fits n trail) (hmatch : Matches h f x trail) (hc : h.Within x c)
    (hcd : h.Corresponds σ f c d) :
    (h.equalWithin false n trail c d).run σ = (.ok true, σ) := by
  induction n generalizing trail c d with
  | zero => exact absurd ht not_fits_zero
  | succ n ih =>
    have hkind := (hf.kinds hc hcd).1.symm
    -- a value that is left where it is equals itself
    by_cases hsame : c = d
    · rw [equalWithin, if_neg (not_not.mpr hkind), if_pos hsame]
      rfl
    cases hcd with
    | leaf => exact absurd rfl hsame
    | word hv hw hvtext hwtext hraw =>
      rw [equalWithin, if_neg (not_not.mpr hkind), if_neg hsame, hv, hw]
      dsimp only
      rw [Query.run_wordsEqual, Word.freshness_eq_text_iff.mp hvtext,
        Word.freshness_eq_text_iff.mp hwtext]
      simp [Word.sameText, hraw]
    | sequence hseq =>
      -- the trail holds pairs of the correspondence, so it leads to both sides from the same level
      rw [equalWithin_of_sequence hseq hkind hsame, ← hf.levels_eq hmatch hc hseq,
        if_neg (not_not.mpr rfl)]
      split
      · rfl
      next hnew =>
      rw [hf.extent_eq c hc hseq, if_neg (not_not.mpr rfl)]
      have hinner := ht.enter (y := f c) hseq.live (Option.not_isSome_iff_eq_none.mp hnew)
      have hmatch' : Matches h f x ((c, f c) :: trail) :=
        List.forall_mem_cons.mpr ⟨⟨rfl, hc, hseq⟩, hmatch⟩
      -- chains within the two values end, so neither side breaks off
      have hfault : (h.elements c).fault? = none := fault?_elements fun l hl => hleft c l hc hl
      have hfault' : (h.elements (f c)).fault? = none :=
        fault?_elements fun l hl => hright (f c) l (hf.image hc hseq).1 hl
      rw [hfault, hfault']
      exact run_walksEqual ((hf.elements_within hc hseq).imp
        fun a b hab => ih hinner hmatch' hab.1.2 hab.2)

/-! ### Writing -/

/-- A sequence corresponds to its image only. -/
theorem eq_apply_of_sequence (hcd : h.Corresponds σ f c d) (hc : h.IsSequence c) : d = f c := by
  cases hcd with
  | sequence => rfl
  | word hv => exact absurd hc (kind_ne_of_word hv).1
  | leaf hseq => exact absurd hc hseq

/-- **Values at the same place are written alike**, while sequences that match are being written. -/
theorem written_eq (hf : h.Isomorphism σ f x y) {n : ℕ} {writing : List Addr} {style : Style}
    (hroom : h.Room n writing style c) (o : PrintOptions)
    (hwriting : ∀ a ∈ writing, h.Within x a ∧ h.IsSequence a) (hc : h.Within x c)
    (hcd : h.Corresponds σ f c d) :
    h.written σ n (writing.map f) style o d = h.written σ n writing style o c := by
  induction hroom using Room.induction generalizing o d with
  | word _ hw =>
    cases hcd with
    | sequence hseq => exact absurd hseq (kind_ne_of_word hw).1
    | word hv hw' hvtext hwtext hraw =>
      rw [written_word _ _ _ _ _ hv, written_word _ _ _ _ _ hw']
      exact Word.render_of_text hvtext hwtext hraw o
    | leaf => rw [written_word _ _ _ _ _ hw, written_word _ _ _ _ _ hw]
  | bare _ hseq ih =>
    -- the image of a sequence is written from the images of its elements
    obtain rfl := eq_apply_of_sequence hcd hseq
    rw [written_bare _ _ _ _ hseq, written_bare _ _ _ _ (hf.image hc hseq).2]
    refine writtenWalk_congr o ((hf.elements_within hc hseq).imp fun a b hab => ?_)
    exact ih a hab.1.1 o.deeper hwriting hab.1.2 hab.2
  | again _ hseq hmem =>
    obtain rfl := eq_apply_of_sequence hcd hseq
    rw [written_delimited _ _ _ _ hseq, written_delimited _ _ _ _ (hf.image hc hseq).2, if_pos hmem,
      if_pos (List.mem_map_of_mem hmem)]
  | @first n writing c _ hseq hnew ih =>
    obtain rfl := eq_apply_of_sequence hcd hseq
    -- the correspondence is one to one, so the image is new if the sequence is
    have hnew' : f c ∉ writing.map f := by
      intro hmem
      obtain ⟨a, ha, heq⟩ := List.mem_map.mp hmem
      obtain ⟨hwithin, haseq⟩ := hwriting a ha
      exact hnew ((hf.apply_eq_iff hwithin haseq hc hseq).mp heq ▸ ha)
    have hinner := ih o (List.forall_mem_cons.mpr ⟨⟨hc, hseq⟩, hwriting⟩) hc (.sequence hseq)
    rw [List.map_cons] at hinner
    rw [written_delimited _ _ _ _ hseq, written_delimited _ _ _ _ (hf.image hc hseq).2, if_neg hnew,
      if_neg hnew', hinner, hf.kind_eq c hc hseq]
  | node _ hbody => exact absurd (kind_of_node hbody) (hf.kinds hc hcd).2.1
  | error _ hbody => exact absurd (kind_of_error hbody) (hf.kinds hc hcd).2.2
  | plain _ hplain =>
    -- what has no parts is written as it is, and corresponds only to itself
    cases hcd with
    | sequence hseq => exact absurd hseq hplain.kind_ne.1
    | word hv => exact absurd (by rw [kind, hv, Body.kind]) hplain.kind_ne.2
    | leaf => rw [written_plain _ _ _ _ _ hplain, written_plain _ _ _ _ _ hplain]

end Isomorphism

/-- **Isomorphic structures are indistinguishable.**  If the lists and arrays within two sequences
match one by one, with the same elements at the same places, and all chains within them are made of
cells, then the two compare equal, and they are written alike in both styles whatever the print
options. -/
theorem isomorphic_indistinguishable (hf : h.Isomorphism σ f x y)
    (hleft : ∀ a l, h.Within x a → h.body a = .list l → h.Linked l.head)
    (hright : ∀ a l, h.Within y a → h.body a = .list l → h.Linked l.head) :
    (h.equal false x y).run σ = (.ok true, σ) ∧
      ∀ style o, ∃ s, ((h.render style o x).run σ).1 = .ok s ∧
        ((h.render style o y).run σ).1 = .ok s := by
  refine ⟨?_, fun style o => ⟨_, run_render (hf.legible_left hleft) σ style o, ?_⟩⟩
  · have hnil : Isomorphism.Matches h f x [] := by simp [Isomorphism.Matches]
    exact run_equal (hf.run_equalWithin hleft hright (fits_nil h) hnil .refl hf.start)
  · rw [run_render (hf.legible_right hright), writtenOn, writtenOn,
      ← hf.written_eq (room_start (hf.legible_left hleft) [] style) o (by simp) .refl hf.start,
      List.map_nil]

/-- Two lists that contain themselves are isomorphic. -/
theorem self_containing_isomorphic :
    let s := (Session.run [.build (.selfContaining ["a"]) ⟨some "x", true⟩,
      .build (.selfContaining ["a"]) ⟨some "y", true⟩] {}).2.store
    let h := s.heap
    let f : Addr → Addr := fun _ => 7
    h.Isomorphism s.settled f 3 7 ∧ (h.equal false 3 7).run s.settled = (.ok true, s.settled) ∧
      ∀ style o, ∃ t, ((h.render style o 3).run s.settled).1 = .ok t ∧
        ((h.render style o 7).run s.settled).1 = .ok t := by
  intro s h f
  have hlists : ∀ x l, h.body x = .list l → h.Linked l.head :=
    linked_of_heads (S := [1, 2, 4, 6, 8]) (by decide +kernel) (by decide +kernel)
      (by decide +kernel)
  -- there are no other sequences within the two lists
  have hleft : ∀ a, h.Within 3 a → h.IsSequence a → a = 3 := by
    intro a ha hseq
    have hmem := ha.mem (S := [0, 3]) (by decide +kernel) (by decide)
    exact (by decide +kernel : ∀ a ∈ [0, 3], h.IsSequence a → a = 3) a hmem hseq
  have hright : ∀ a, h.Within 7 a → h.IsSequence a → a = 7 := by
    intro a ha hseq
    have hmem := ha.mem (S := [5, 7]) (by decide +kernel) (by decide)
    exact (by decide +kernel : ∀ a ∈ [5, 7], h.IsSequence a → a = 7) a hmem hseq
  have hthree : h.IsSequence 3 := by decide +kernel
  have hseven : h.IsSequence 7 := by decide +kernel
  have hf : h.Isomorphism s.settled f 3 7 := {
    isSequence := hthree
    apply_eq := rfl
    bijective := ⟨fun _ _ => ⟨.refl, hseven⟩,
      fun a ha b hb _ => (hleft a ha.1 ha.2).trans (hleft b hb.1 hb.2).symm,
      fun b hb => ⟨3, ⟨.refl, hthree⟩, (hright b hb.1 hb.2).symm⟩⟩
    kind_eq := by
      intro a ha hseq
      obtain rfl := hleft a ha hseq
      decide +kernel
    extent_eq := by
      intro a ha hseq
      obtain rfl := hleft a ha hseq
      decide +kernel
    elements := by
      intro a ha hseq
      obtain rfl := hleft a ha hseq
      rw [show (h.elements 3).found = [0, 3] by decide +kernel,
        show (h.elements (f 3)).found = [5, 7] by decide +kernel]
      have hword : h.body 0 = .word (.text "a" false) ∧ h.body 5 = .word (.text "a" false) := by
        decide +kernel
      exact .cons (.word hword.1 hword.2 (by decide +kernel) (by decide +kernel) rfl)
        (.cons (.sequence hthree) .nil) }
  exact ⟨hf, isomorphic_indistinguishable hf (fun a l _ => hlists a l) fun a l _ => hlists a l⟩

end Heap

end SharedValues
