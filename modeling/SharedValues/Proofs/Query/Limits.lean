import Mathlib.Order.Lattice.Nat
import SharedValues.Proofs.Query.Width

/-!
# Limits that are large enough

The limits of a rendering are read in different ways.  The depth that is left gets less with every
list or array that is entered, and not with syntax nodes and errors; nothing is written at depth
zero, save that an empty sequence has nothing to leave out.  The width is a number of elements for
a sequence, and a number of characters for a word, which keeps at least ten of them.

A value without cycles has a greatest number of sequences within each other on the way to one of its
parts, a greatest size of a sequence and a greatest length of a word.  Limits that are no less, with
one level to spare, change nothing: neither what is written nor which words are settled.

## Main definitions

* `Heap.Beneath` — a part of a value, so many sequences deep in it.
* `Heap.Acyclic` — no value is within one of its parts.
* `Heap.nestings`, `Heap.extents`, `Heap.lengths` — the depths, sizes and lengths in a value.
* `Heap.InLimits` — a value is within the limits.

## Main results

* `InLimits.renderWithin_eq` — what is within the limits is written as without limits.
* `ample_limits` — how large the limits have to be.
-/

namespace SharedValues

/-- Elements that are written alike are so one after the other. -/
theorem mapM_congr_left {m : Type → Type} [Monad m] [LawfulMonad m] {α β : Type} {f g : α → m β}
    {as : List α} (hfg : ∀ a ∈ as, f a = g a) : as.mapM f = as.mapM g := by
  induction as with
  | nil => rfl
  | cons a as ih =>
    rw [List.mapM_cons, List.mapM_cons, hfg a List.mem_cons_self,
      ih fun b hb => hfg b (List.mem_cons_of_mem a hb)]

namespace Heap

variable {h : Heap} {a b x y z : Addr} {k n : ℕ} {o : PrintOptions} {style : Style}
  {writing : List Addr} {w : Word}

/-! ### Depths, sizes and lengths -/

/-- What a value adds to the depth of its parts: lists and arrays are levels, and syntax nodes and
errors are not. -/
def level (h : Heap) (x : Addr) : ℕ := if h.IsSequence x then 1 else 0

/-- **A part of a value, so many sequences deep in it.**  The sequences are the ones on the way to
the part that the part is in.  An empty sequence is in itself no level, as nothing is in it. -/
inductive Beneath (h : Heap) : ℕ → Addr → Addr → Prop
  /-- The value itself. -/
  | refl {x : Addr} : Beneath h 0 x x
  /-- What is deep in a part is a level deeper in a sequence. -/
  | part {k : ℕ} {x y z : Addr} : y ∈ h.parts x → Beneath h k y z → Beneath h (h.level x + k) x z

/-- No value is within one of its parts. -/
def Acyclic (h : Heap) (x : Addr) : Prop := ∀ a, h.Within x a → ∀ b ∈ h.parts a, ¬h.Within b a

/-- The numbers of sequences within each other on the ways into a value. -/
def nestings (h : Heap) (x : Addr) : Set ℕ := {k | ∃ y, h.Beneath k x y}

/-- The sizes of the lists and arrays in a value. -/
def extents (h : Heap) (x : Addr) : Set ℕ :=
  {m | ∃ y, h.Within x y ∧ h.IsSequence y ∧ h.extent y = m}

/-- The lengths of the words in a value, as they are displayed. -/
def lengths (h : Heap) (x : Addr) : Set ℕ :=
  {m | ∃ y w, h.Within x y ∧ h.body y = .word w ∧ w.printable.length = m}

theorem level_of_sequence (hx : h.IsSequence x) : h.level x = 1 := if_pos hx

theorem Acyclic.part (hx : h.Acyclic x) (hb : b ∈ h.parts x) : h.Acyclic b :=
  fun a ha => hx a (.part hb ha)

/-- A value with parts is live. -/
theorem live_of_mem_parts (hb : b ∈ h.parts a) : h.Live a := by
  refine live_of_kind_ne fun ha => ?_
  unfold kind at ha
  unfold parts elements at hb
  revert ha hb
  cases h.body a <;> simp [Body.kind]

/-- A value without cycles is no deeper than the number of values in it. -/
theorem Acyclic.le_places (hx : h.Acyclic x) (hz : h.Beneath k x z) :
    k ≤ h.places (h.Within x) := by
  induction hz with
  | refl => exact Nat.zero_le _
  | @part k x y z hy _ ih =>
    have hfewer : h.places (h.Within y) < h.places (h.Within x) :=
      places_lt (fun _ hc => .part hy hc) (live_of_mem_parts hy) .refl (hx x .refl y hy)
    have hlevel : h.level x ≤ 1 := by
      unfold level
      split <;> omega
    have := ih (hx.part hy)
    omega

/-- There is a deepest part. -/
theorem Acyclic.exists_isGreatest (hx : h.Acyclic x) : ∃ D, IsGreatest (h.nestings x) D := by
  have hbound : BddAbove (h.nestings x) :=
    ⟨h.places (h.Within x), fun _ ⟨_, hy⟩ => hx.le_places hy⟩
  exact ⟨_, Nat.sSup_mem ⟨0, x, .refl⟩ hbound, fun _ hk => le_csSup hbound hk⟩

/-- What is said of live blocks alone takes finitely many values. -/
theorem exists_isLUB {S : Set ℕ} (f : Addr → ℕ) (hS : ∀ m ∈ S, ∃ a, h.Live a ∧ f a = m) :
    ∃ M, IsLUB S M := by
  have hfinite : S.Finite := by
    refine ((Finset.range h.blocks.size).image f).finite_toSet.subset fun m hm => ?_
    obtain ⟨a, ha, rfl⟩ := hS m hm
    exact Finset.mem_coe.mpr (Finset.mem_image_of_mem f (Finset.mem_range.mpr ha.lt_size))
  exact ⟨_, isLUB_csSup' hfinite.bddAbove⟩

theorem exists_isLUB_extents (h : Heap) (x : Addr) : ∃ M, IsLUB (h.extents x) M :=
  exists_isLUB h.extent fun _ ⟨y, _, hy, hm⟩ => ⟨y, hy.live, hm⟩

theorem exists_isLUB_lengths (h : Heap) (x : Addr) : ∃ L, IsLUB (h.lengths x) L := by
  refine exists_isLUB (h := h)
    (fun a => (h.body a).word?.elim 0 fun w => w.printable.length) ?_
  rintro m ⟨y, w, -, hy, rfl⟩
  refine ⟨y, live_of_kind_ne (by simp [kind_of_word hy]), ?_⟩
  rw [hy]
  rfl

/-- A list has no more elements than its size. -/
theorem length_chain_le (h : Heap) (n : ℕ) (a : Addr) : (h.chain n a).found.length ≤ n := by
  induction n generalizing a with
  | zero => rfl
  | succ n ih =>
    unfold chain
    split
    · exact Nat.zero_le _
    · exact Nat.succ_le_succ (ih _)
    · exact Nat.zero_le _

theorem length_elements_le (h : Heap) (a : Addr) :
    (h.elements a).found.length ≤ h.extent a := by
  unfold elements extent
  split
  · rw [List.length_map]
    exact length_chain_le h _ _
  · exact le_rfl
  · exact le_rfl

/-! ### Values within the limits -/

/-- **A value is within the limits**: its parts are less deep than the limit on the depth, its
sequences are no larger than the one on the width, and its words are as short, or have ten
characters at most. -/
structure InLimits (h : Heap) (o : PrintOptions) (x : Addr) : Prop where
  /-- There is a level to spare. -/
  depth : ∀ d ∈ o.depthLimit, ∀ k ∈ h.nestings x, k < d
  /-- No element is left out. -/
  extent : ∀ m ∈ o.widthLimit, ∀ e ∈ h.extents x, e ≤ m
  /-- No character is left out. -/
  length : ∀ m ∈ o.widthLimit, ∀ l ∈ h.lengths x, l ≤ max m 10

namespace InLimits

theorem depthLimit_ne (hx : h.InLimits o x) : o.depthLimit ≠ some 0 :=
  fun hzero => Nat.not_lt_zero 0 (hx.depth 0 hzero 0 ⟨x, .refl⟩)

/-- The limit on the depth is lowered by sequences only. -/
theorem of_part {o' : PrintOptions} (hx : h.InLimits o x) (hy : y ∈ h.parts x)
    (hdepth : ∀ d' ∈ o'.depthLimit, ∃ d ∈ o.depthLimit, d ≤ h.level x + d')
    (hwidth : o'.widthLimit = o.widthLimit) : h.InLimits o' y where
  depth d' hd' k := by
    rintro ⟨z, hz⟩
    obtain ⟨d, hd, hle⟩ := hdepth d' hd'
    have := hx.depth d hd _ ⟨z, .part hy hz⟩
    omega
  extent m hm e := by
    rintro ⟨z, hz, he⟩
    exact hx.extent m (hwidth ▸ hm) e ⟨z, .part hy hz, he⟩
  length m hm l := by
    rintro ⟨z, w, hz, hl⟩
    exact hx.length m (hwidth ▸ hm) l ⟨z, w, .part hy hz, hl⟩

theorem part (hx : h.InLimits o x) (hy : y ∈ h.parts x) : h.InLimits o y :=
  hx.of_part hy (fun d hd => ⟨d, hd, Nat.le_add_left ..⟩) rfl

theorem element (hx : h.InLimits o x) (hseq : h.IsSequence x) (hy : y ∈ (h.elements x).found) :
    h.InLimits o.deeper y := by
  refine hx.of_part (by rwa [parts_of_sequence hseq]) (fun d' hd' => ?_) rfl
  obtain ⟨d, hd, rfl⟩ := Option.mem_map.mp hd'
  refine ⟨d, hd, ?_⟩
  rw [level_of_sequence hseq]
  omega

/-- No word is cut short. -/
theorem render_eq (hx : h.InLimits o x) (hw : h.body x = .word w) (settled : Bool) :
    w.render settled o = w.render settled { full := o.full } := by
  have hclipped : Word.clipped o.widthLimit w.printable.toList = w.printable.toList := by
    cases hwidth : o.widthLimit with
    | none => rfl
    | some m =>
      refine if_neg (Nat.not_lt.mpr ?_)
      rw [String.length_toList]
      exact hx.length m hwidth _ ⟨x, w, .refl, hw, rfl⟩
  rw [Word.render, Word.render, if_neg hx.depthLimit_ne, hclipped]
  rfl

/-- No element is left out. -/
theorem renderWalk_eq {ε : Type} {write write' : Addr → Query ε String} {halt : Fault → ε}
    (hx : h.InLimits o x) (hseq : h.IsSequence x)
    (hwrite : ∀ e ∈ (h.elements x).found, write e = write' e) :
    renderWalk write halt o (h.elements x) =
      renderWalk write' halt { full := o.full } (h.elements x) := by
  have hlength := length_elements_le h x
  unfold renderWalk
  dsimp only
  by_cases hempty : (h.elements x).found.isEmpty = true
  · rw [if_pos hempty, if_pos hempty]
  -- some element is to be written, so the width is not zero, and it is no less than their number
  have hwidth : o.widthLimit ≠ some 0 ∧
      (h.elements x).found.length ≤ o.widthLimit.getD (h.elements x).found.length := by
    cases hwidth : o.widthLimit with
    | none => simp
    | some m =>
      have hm := hx.extent m hwidth _ ⟨x, .refl, hseq, rfl⟩
      refine ⟨?_, hlength.trans hm⟩
      rintro ⟨⟩
      exact hempty (List.isEmpty_iff_length_eq_zero.mpr (by omega))
  rw [if_neg hempty, if_neg hempty, if_neg (not_or.mpr ⟨hx.depthLimit_ne, hwidth.1⟩),
    if_neg (by simp), List.take_of_length_le hwidth.2, Option.getD_none, List.take_length,
    mapM_congr_left hwrite]
  simp only [Nat.not_lt.mpr hwidth.2, if_false, Nat.lt_irrefl]

/-- **What is within the limits is written as without limits**, at any level and whatever is being
written already. -/
theorem renderWithin_eq (hx : h.InLimits o x) :
    h.renderWithin n writing style o x =
      h.renderWithin n writing style { full := o.full } x := by
  induction n generalizing x writing style o with
  | zero => rfl
  | succ n ih =>
    -- the limits are not reached by the elements, which are one level down
    have hbare : ∀ writing, h.IsSequence x → h.renderWithin (n + 1) writing .bare o x =
        h.renderWithin (n + 1) writing .bare { full := o.full } x := by
      intro writing hseq
      rw [renderWithin_bare _ _ _ hseq, renderWithin_bare _ _ _ hseq]
      exact hx.renderWalk_eq hseq fun e he => ih (hx.element hseq he)
    cases h.form x with
    | word hw =>
      rw [renderWithin_word _ _ _ _ hw, renderWithin_word _ _ _ _ hw, Query.renderWord,
        Query.renderWord]
      simp only [hx.render_eq hw]
    | sequence hseq =>
      cases style with
      | bare => exact hbare writing hseq
      | delimited =>
        rw [renderWithin_delimited _ _ _ hseq, renderWithin_delimited _ _ _ hseq,
          hbare (x :: writing) hseq]
    | node hnode =>
      rw [renderWithin_node _ _ _ _ hnode, renderWithin_node _ _ _ _ hnode,
        mapM_congr_left fun e he => ih (hx.part he)]
    | error herror =>
      rw [renderWithin_error _ _ _ _ herror, renderWithin_error _ _ _ _ herror]
      exact ih (hx.part (by simp [parts_of_error herror]))
    | plain hplain =>
      rw [renderWithin_plain _ _ _ _ hplain, renderWithin_plain _ _ _ _ hplain]

end InLimits

/-! ### Limits that are large enough -/

/-- A value without cycles is legible if the chains of its lists are made of cells. -/
theorem Acyclic.legible (hx : h.Acyclic x)
    (hlinked : ∀ a l, h.Within x a → h.body a = .list l → h.Linked l.head) : h.Legible x where
  linked := hlinked
  error a code text tag ha hbody := hx a ha text (by simp [parts_of_error hbody])
  node a ha hself := by
    obtain ⟨b, ⟨-, hb⟩, hba⟩ := Relation.TransGen.head'_iff.mp hself
    exact hx a ha b hb (Relation.ReflTransGen.mono (fun _ _ => And.right) b a hba)

/-- **How large the limits have to be.**  A value without cycles has a greatest number `D` of lists
and arrays within each other, a greatest size `M` of a list or an array, and a greatest length `L`
of a word.  If the limit on the depth is more than `D`, and the one on the width is `M` at least,
and `L` at least unless all words have ten characters at most, then a rendering does what it does
without limits, also while other sequences are being written.  It ends with a text if the chains of
lists are made of cells. -/
theorem ample_limits (hx : h.Acyclic x) :
    ∃ D M L, IsGreatest (h.nestings x) D ∧ IsLUB (h.extents x) M ∧ IsLUB (h.lengths x) L ∧
      ∀ (full : Bool) (d w : ℕ), D < d → M ≤ w → L ≤ max w 10 →
        let limited : PrintOptions := ⟨full, some d, some w⟩
        let unlimited : PrintOptions := ⟨full, none, none⟩
        (∀ style, h.render style limited x = h.render style unlimited x) ∧
        (∀ writing style, h.renderFrom writing style limited x =
          h.renderFrom writing style unlimited x) ∧
        ((∀ a l, h.Within x a → h.body a = .list l → h.Linked l.head) → ∀ style σ, ∃ text,
          ((h.render style limited x).run σ).1 = .ok text ∧
            ((h.render style unlimited x).run σ).1 = .ok text) := by
  obtain ⟨D, hD⟩ := hx.exists_isGreatest
  obtain ⟨M, hM⟩ := h.exists_isLUB_extents x
  obtain ⟨L, hL⟩ := h.exists_isLUB_lengths x
  refine ⟨D, M, L, hD, hM, hL, fun full d w hd hw hl => ?_⟩
  intro limited unlimited
  -- the three suprema bound what each limit is compared with
  have hlimits : h.InLimits limited x := {
    depth := by
      rintro _ ⟨⟩ k hk
      exact (hD.2 hk).trans_lt hd
    extent := by
      rintro _ ⟨⟩ e he
      exact (hM.1 he).trans hw
    length := by
      rintro _ ⟨⟩ l' hl'
      exact (hL.1 hl').trans hl }
  have hon : ∀ writing style,
      h.renderOn writing style limited x = h.renderOn writing style unlimited x :=
    fun _ _ => hlimits.renderWithin_eq
  have hrender : ∀ style, h.render style limited x = h.render style unlimited x := fun style => by
    rw [render, hon, render]
  refine ⟨hrender, fun writing style => ?_, fun hlinked style σ => ?_⟩
  · rw [renderFrom, hon, renderFrom]
  -- with all its chains linked the datum is legible, so its rendering ends with a text
  · have hrun := run_render (hx.legible hlinked) σ style unlimited
    exact ⟨_, (hrender style).symm ▸ hrun, hrun⟩

/-- A value has no cycles if it is among some values that are younger than their parts. -/
theorem acyclic_of_closed {S : List Addr} (hS : ∀ a ∈ S, ∀ b ∈ h.parts a, b ∈ S ∧ b < a)
    (hx : x ∈ S) : h.Acyclic x := by
  have hle : ∀ {a b}, a ∈ S → h.Within a b → b ≤ a := by
    intro a b ha hb
    induction hb using Relation.ReflTransGen.head_induction_on with
    | refl => exact le_rfl
    | head hstep _ ih => exact (ih (hS _ ha _ hstep).1).trans (hS _ ha _ hstep).2.le
  intro a ha b hb hba
  have hmem := ha.mem (fun a ha b hb => (hS a ha b hb).1) hx
  exact absurd (hle (hS a hmem b hb).1 hba) (Nat.not_le_of_lt (hS a hmem b hb).2)

/-- A value is no deeper than its rank, if every sequence has a higher rank than its elements. -/
theorem Beneath.le_rank {S : List Addr} (rank : Addr → ℕ)
    (hS : ∀ a ∈ S, ∀ b ∈ h.parts a, b ∈ S ∧ h.level a + rank b ≤ rank a) (hx : x ∈ S)
    (hz : h.Beneath k x z) : k ≤ rank x := by
  induction hz with
  | refl => exact Nat.zero_le _
  | part hy _ ih =>
    obtain ⟨hmem, hrank⟩ := hS _ hx _ hy
    have := ih hmem
    omega

/-- A list in a syntax node in a list, and an error whose text has ten characters, are written out
with three levels and a width of two. -/
theorem ample_limits_nested :
    let s := (Session.run [.make (.list [.node (.text "f" false)
      [.list [.text "a" false, .text "b" false], .list []],
      .error 3 (.text "abcdefghij" false) (.truth true)]) ⟨some "x", true⟩] {}).2.store
    s.heap.Acyclic 14 ∧
      ((s.heap.render .bare ⟨false, some 3, some 2⟩ 14).run s.settled).1 =
        .ok "( f [a b] [] ) abcdefghij" ∧
      ((s.heap.render .bare ⟨false, none, none⟩ 14).run s.settled).1 =
        .ok "( f [a b] [] ) abcdefghij" := by
  intro s
  let S := [0, 1, 2, 6, 7, 8, 9, 11, 14]
  let rank : Addr → ℕ := fun a => if a = 14 then 2 else if a = 8 ∨ a = 6 then 1 else 0
  have hS : (∀ a ∈ S, ∀ b ∈ s.heap.parts a,
        (b ∈ S ∧ b < a) ∧ s.heap.level a + rank b ≤ rank a) ∧
      (∀ a ∈ S, s.heap.extent a ≤ 2) ∧
      (∀ a ∈ S, ∀ w ∈ (s.heap.body a).word?, w.printable.length ≤ 10) := by
    decide +kernel
  obtain ⟨hparts, hextents, hlengths⟩ := hS
  -- the set is closed under parts, so it holds all that is within the datum
  have hin : ∀ {a}, s.heap.Within 14 a → a ∈ S := fun ha =>
    ha.mem (fun a ha b hb => (hparts a ha b hb).1.1) (by decide)
  have hacyclic : s.heap.Acyclic 14 :=
    acyclic_of_closed (S := S) (fun a ha b hb => (hparts a ha b hb).1) (by decide)
  -- the bounds are checked on the whole set, not on the suprema themselves
  obtain ⟨D, M, L, ⟨⟨z, hz⟩, -⟩, ⟨-, hM⟩, ⟨-, hL⟩, hample⟩ := ample_limits hacyclic
  have hD : D ≤ 2 := hz.le_rank rank
    (fun a ha b hb => ⟨(hparts a ha b hb).1.1, (hparts a ha b hb).2⟩) (by decide : 14 ∈ S)
  have hM : M ≤ 2 := hM fun m ⟨y, hy, _, hm⟩ => hm ▸ hextents y (hin hy)
  have hL : L ≤ 10 := hL fun m ⟨y, w, hy, hw, hm⟩ =>
    hm ▸ hlengths y (hin hy) w (by rw [hw]; rfl)
  have hrun : ((s.heap.render .bare ⟨false, some 3, some 2⟩ 14).run s.settled).1 =
      .ok "( f [a b] [] ) abcdefghij" := by decide +kernel
  obtain ⟨hsame, -⟩ := hample false 3 2 (by omega) hM hL
  exact ⟨hacyclic, hrun, hsame .bare ▸ hrun⟩

/-- One level less is not enough, and neither is one element. -/
example :
    let s := (Session.run [.make (.list [.list [.text "a" false, .text "b" false]])
      ⟨some "x", true⟩] {}).2.store
    ((s.heap.render .bare ⟨false, some 2, some 2⟩ 7).run s.settled).1 = .ok "[... ...]" ∧
      ((s.heap.render .bare ⟨false, some 3, some 1⟩ 7).run s.settled).1 = .ok "[a ...]" := by
  decide +kernel

end Heap

end SharedValues
