import Mathlib.Algebra.Order.BigOperators.Group.List
import SharedValues.Proofs.Query.Written
import SharedValues.Session.Run

/-!
# Outer delimiters

In bare style a sequence lacks its outer delimiters, and it is not recorded.  So where it comes
among its own parts it is written out there, and only within that is it cut short to `...`, whereas
in delimited style it is cut short at once.  The text between the delimiters is that of the bare
style unless the sequence comes again within the limits of the print options, and then it is
shorter.

That it is shorter is seen along a way back to the sequence that leads through as few elements as
possible, since no sequence on such a way is met while it is being written.

## Main definitions

* `Heap.Returns` — a value leads back to a sequence.
* `PrintOptions.HasDepth` — a number of levels is within the limit.

## Main results

* `Heap.written_append_of_not_returns` — a sequence that does not come again need not be recorded.
* `Heap.length_written_append_lt` — one that comes again makes a difference.
* `Heap.delimited_eq_bare_iff` — when the two styles differ in the outer delimiters alone.
* `Heap.delimited_ne_bare` — they can differ in more.
-/

namespace SharedValues

/-! ### Lengths -/

theorem length_spaced (ss : List String) :
    (spaced ss).length = (ss.map fun s => s.length + 1).sum := by
  induction ss with
  | nil => rfl
  | cons s ss ih =>
    have hblank : (" " : String).length = 1 := by decide
    have hcons : spaced (s :: ss) = " " ++ s ++ spaced ss := rfl
    rw [hcons, String.length_append, String.length_append, ih, hblank, List.map_cons, List.sum_cons]
    omega

theorem length_intercalate {ss : List String} (hss : ss ≠ []) :
    (" ".intercalate ss).length + 1 = (ss.map fun s => s.length + 1).sum := by
  cases ss with
  | nil => exact absurd rfl hss
  | cons s ss =>
    rw [intercalate_cons, String.length_append, length_spaced, List.map_cons, List.sum_cons]
    omega

section Intercalate

variable {text text' : Addr → String} {as : List Addr} (tail : List String)

theorem length_intercalate_append (text : Addr → String) (h : as ≠ [] ∨ tail ≠ []) :
    (" ".intercalate (as.map text ++ tail)).length + 1 =
      (as.map fun a => (text a).length + 1).sum + (tail.map fun s => s.length + 1).sum := by
  have hne : as.map text ++ tail ≠ [] := by
    rcases h with h | h <;> simp [h]
  rw [length_intercalate hne, List.map_append, List.sum_append, List.map_map]
  rfl

theorem length_intercalate_le (h : ∀ a ∈ as, (text' a).length ≤ (text a).length) :
    (" ".intercalate (as.map text' ++ tail)).length ≤
      (" ".intercalate (as.map text ++ tail)).length := by
  by_cases hnil : as = [] ∧ tail = []
  · obtain ⟨rfl, rfl⟩ := hnil
    rfl
  have hleft := length_intercalate_append tail text' (not_and_or.mp hnil)
  have hright := length_intercalate_append tail text (not_and_or.mp hnil)
  have hsum : (as.map fun a => (text' a).length + 1).sum ≤
      (as.map fun a => (text a).length + 1).sum :=
    List.sum_le_sum fun a ha => Nat.succ_le_succ (h a ha)
  omega

/-- One text makes a difference. -/
theorem length_intercalate_lt (h : ∀ a ∈ as, (text' a).length ≤ (text a).length) {a : Addr}
    (ha : a ∈ as) (hlt : (text' a).length < (text a).length) :
    (" ".intercalate (as.map text' ++ tail)).length <
      (" ".intercalate (as.map text ++ tail)).length := by
  have hne := List.ne_nil_of_mem ha
  have hleft := length_intercalate_append tail text' (.inl hne)
  have hright := length_intercalate_append tail text (.inl hne)
  have hsum := List.sum_lt_sum (fun a => (text' a).length + 1) (fun a => (text a).length + 1)
    (fun a ha => Nat.succ_le_succ (h a ha)) ⟨a, ha, Nat.succ_lt_succ hlt⟩
  omega

end Intercalate

namespace Heap

section WrittenWalk

variable {text text' : Addr → String} {o : PrintOptions} {found : List Addr} {e : Addr}

theorem mem_of_fitting {width : Option ℕ} (he : e ∈ fitting width found) : e ∈ found :=
  List.mem_of_mem_take he

theorem isEmpty_of_fitting {width : Option ℕ} (he : e ∈ fitting width found) :
    found.isEmpty = false :=
  List.isEmpty_eq_false_iff_exists_mem.mpr ⟨e, mem_of_fitting he⟩

/-- What is within a width is written if there is any depth left. -/
theorem writtenWalk_of_fitting (hdepth : o.depthLimit ≠ some 0)
    (he : e ∈ fitting o.widthLimit found) (text : Addr → String) :
    writtenWalk text o found = " ".intercalate (texts text o.widthLimit found) := by
  have hfound := isEmpty_of_fitting he
  have hwidth : o.widthLimit ≠ some 0 := by
    intro hzero
    simp [fitting, hzero] at he
  rw [writtenWalk, if_neg (by simp [hfound]), if_neg (not_or.mpr ⟨hdepth, hwidth⟩)]

theorem writtenWalk_eq
    (h : o.depthLimit ≠ some 0 → ∀ e ∈ fitting o.widthLimit found, text' e = text e) :
    writtenWalk text' o found = writtenWalk text o found := by
  unfold writtenWalk
  split
  · rfl
  split
  · rfl
  · next hlimits => rw [texts, texts, List.map_congr_left (h (not_or.mp hlimits).1)]

theorem length_writtenWalk_le (h : ∀ e ∈ found, (text' e).length ≤ (text e).length) :
    (writtenWalk text' o found).length ≤ (writtenWalk text o found).length := by
  unfold writtenWalk
  split
  · rfl
  split
  · rfl
  · exact length_intercalate_le _ fun e he => h e (mem_of_fitting he)

theorem length_writtenWalk_lt (hdepth : o.depthLimit ≠ some 0)
    (h : ∀ e ∈ found, (text' e).length ≤ (text e).length) (he : e ∈ fitting o.widthLimit found)
    (hlt : (text' e).length < (text e).length) :
    (writtenWalk text' o found).length < (writtenWalk text o found).length := by
  rw [writtenWalk_of_fitting hdepth he, writtenWalk_of_fitting hdepth he]
  exact length_intercalate_lt _ (fun e he => h e (mem_of_fitting he)) he hlt

theorem two_le_length_writtenWalk (he : e ∈ fitting o.widthLimit found)
    (htext : 2 ≤ (text e).length) : 2 ≤ (writtenWalk text o found).length := by
  by_cases hdepth : o.depthLimit = some 0
  · have hfound := isEmpty_of_fitting he
    rw [writtenWalk, if_neg (by simp [hfound]), if_pos (.inl hdepth)]
    decide
  rw [writtenWalk_of_fitting hdepth he]
  have hmem : text e ∈ texts text o.widthLimit found :=
    List.mem_append_left _ (List.mem_map_of_mem he)
  have hlength := length_intercalate (List.ne_nil_of_mem hmem)
  have hsum := List.le_sum_of_mem (List.mem_map_of_mem (f := fun s : String => s.length + 1) hmem)
  omega

end WrittenWalk

end Heap

/-! ### Ways back to a sequence -/

namespace PrintOptions

variable {o : PrintOptions} {k : ℕ}

/-- Some levels of nested sequences are within the limit. -/
def HasDepth (o : PrintOptions) (k : ℕ) : Prop := ∀ d, o.depthLimit = some d → k ≤ d

theorem hasDepth_succ_iff : o.HasDepth (k + 1) ↔ o.depthLimit ≠ some 0 ∧ o.deeper.HasDepth k := by
  unfold HasDepth deeper
  cases o.depthLimit with
  | none => simp
  | some d =>
    simp only [Option.some.injEq, Option.map_some, forall_eq', ne_eq]
    omega

end PrintOptions

namespace Heap

/-- **A value leads back to a sequence** through `k` levels of elements: the sequence comes in
delimited style when the value is written in a style, with no more than `width` elements of each
sequence. -/
inductive Returns (h : Heap) (x : Addr) (width : Option ℕ) : ℕ → Style → Addr → Prop
  /-- The sequence is there. -/
  | here : Returns h x width 0 .delimited x
  /-- An element of a sequence leads back. -/
  | element {k : ℕ} {style : Style} {a e : Addr} : h.IsSequence a →
    e ∈ fitting width (h.elements a).found → Returns h x width k .delimited e →
    Returns h x width (k + 1) style a
  /-- The name or a child of a syntax node leads back. -/
  | part {k : ℕ} {style : Style} {a e : Addr} : h.kind a = .node → e ∈ h.parts a →
    Returns h x width k .delimited e → Returns h x width k style a
  /-- The text of an error leads back. -/
  | text {k : ℕ} {style : Style} {a text tag : Addr} {code : ℤ} :
    h.body a = .error code text tag → Returns h x width k .bare text →
    Returns h x width k style a

variable {h : Heap} {σ : Settled} {x a e : Addr} {width : Option ℕ} {n k : ℕ} {style : Style}
  {writing : List Addr} {o : PrintOptions}

namespace Returns

theorem sort (hr : h.Returns x width k style a) (hx : h.IsSequence x) :
    h.IsSequence a ∨ h.kind a = .node ∨ h.kind a = .error := by
  cases hr with
  | here => exact .inl hx
  | element ha => exact .inl ha
  | part ha => exact .inr (.inl ha)
  | text ha => exact .inr (.inr (kind_of_error ha))

theorem not_word {w : Word} (hr : h.Returns x width k style a) (hx : h.IsSequence x) :
    h.body a ≠ .word w := by
  intro ha
  have hsort := hr.sort hx
  simp [IsSequence, kind, ha, Body.kind] at hsort

theorem not_plain (hr : h.Returns x width k style a) (hx : h.IsSequence x) : ¬h.IsPlain a := by
  have hsort := hr.sort hx
  rintro (ha | ha | ha) <;> simp [IsSequence, ha] at hsort

/-- In bare style a sequence leads back by one of its elements. -/
theorem of_bare (hr : h.Returns x width k .bare a) (ha : h.IsSequence a) :
    ∃ j e, k = j + 1 ∧ e ∈ fitting width (h.elements a).found ∧
      h.Returns x width j .delimited e := by
  cases hr with
  | element _ he hr => exact ⟨_, _, rfl, he, hr⟩
  | part hnode => exact absurd hnode ha.kind_ne.1
  | text herror => exact absurd (kind_of_error herror) ha.kind_ne.2

/-- In delimited style a sequence leads back as in bare style, or it is the one in question. -/
theorem of_delimited (hr : h.Returns x width k .delimited a) (ha : h.IsSequence a) :
    a = x ∨ h.Returns x width k .bare a := by
  cases hr with
  | here => exact .inl rfl
  | element _ he hr => exact .inr (.element ha he hr)
  | part hnode => exact absurd hnode ha.kind_ne.1
  | text herror => exact absurd (kind_of_error herror) ha.kind_ne.2

theorem delimited (hr : h.Returns x width k .bare a) (ha : h.IsSequence a) :
    h.Returns x width k .delimited a := by
  obtain ⟨j, e, rfl, he, hr⟩ := hr.of_bare ha
  exact .element ha he hr

theorem of_node (hr : h.Returns x width k style a) (hx : h.IsSequence x) (ha : h.kind a = .node) :
    ∃ e ∈ h.parts a, h.Returns x width k .delimited e := by
  cases hr with
  | here => exact absurd ha hx.kind_ne.1
  | element hseq => exact absurd ha hseq.kind_ne.1
  | part _ he hr => exact ⟨_, he, hr⟩
  | text herror => rw [kind_of_error herror] at ha; cases ha

theorem of_error {code : ℤ} {text tag : Addr} (hr : h.Returns x width k style a)
    (hx : h.IsSequence x) (ha : h.body a = .error code text tag) :
    h.Returns x width k .bare text := by
  have hkind := kind_of_error ha
  cases hr with
  | here => exact absurd hkind hx.kind_ne.2
  | element hseq => exact absurd hkind hseq.kind_ne.2
  | part hnode => rw [hnode] at hkind; cases hkind
  | text herror hr =>
    obtain ⟨-, rfl, -⟩ := Body.error.inj (ha.symm.trans herror)
    exact hr

/-- What leads back to a sequence has it within. -/
theorem within (hr : h.Returns x width k style a) : h.Within a x := by
  induction hr with
  | here => exact .refl
  | element ha he _ ih => exact .part (by rw [parts_of_sequence ha]; exact mem_of_fitting he) ih
  | part _ he _ ih => exact .part he ih
  | text ha _ ih => exact .part (by simp [parts_of_error ha]) ih

end Returns

/-- A sequence that is not within its own elements does not come again. -/
theorem not_returns_of_not_within (hx : h.IsSequence x) (hout : ∀ e ∈ h.parts x, ¬h.Within e x) :
    ¬h.Returns x width k .bare x := by
  intro hr
  obtain ⟨j, e, -, he, hr⟩ := hr.of_bare hx
  exact hout e (by rw [parts_of_sequence hx]; exact mem_of_fitting he) hr.within

/-! ### The difference that a record makes -/

theorem length_brackets (ha : h.IsSequence a) :
    (brackets (h.kind a)).1.length = 1 ∧ (brackets (h.kind a)).2.length = 1 := by
  rcases ha with ha | ha <;> rw [ha] <;> decide

/-- The written form of a sequence that is recorded first. -/
theorem length_written_first (ha : h.IsSequence a) (hnew : a ∉ writing) :
    (h.written σ (n + 1) writing .delimited o a).length =
      (h.written σ (n + 1) (a :: writing) .bare o a).length + 2 := by
  obtain ⟨hopening, hclosing⟩ := length_brackets ha
  rw [written_delimited _ _ _ _ ha, if_neg hnew, String.length_append, String.length_append]
  omega

/-- **A sequence that does not come again** within the limits need not be recorded. -/
theorem written_append_of_not_returns (hroom : h.Room n writing style a) (o : PrintOptions)
    (hno : ∀ k, o.HasDepth k → ¬h.Returns x o.widthLimit k style a) :
    h.written σ n (writing ++ [x]) style o a = h.written σ n writing style o a := by
  induction hroom using Room.induction generalizing o with
  | word _ ha => rw [written_word _ _ _ _ _ ha, written_word _ _ _ _ _ ha]
  | bare _ ha ih =>
    rw [written_bare _ _ _ _ ha, written_bare _ _ _ _ ha]
    -- an element is one level down, so the depth to spare is one less there
    refine writtenWalk_eq fun hdepth e he => ih e (mem_of_fitting he) o.deeper fun k hk hr => ?_
    exact hno (k + 1) (PrintOptions.hasDepth_succ_iff.mpr ⟨hdepth, hk⟩) (.element ha he hr)
  | again _ ha hmem =>
    rw [written_delimited _ _ _ _ ha, written_delimited _ _ _ _ ha,
      if_pos (List.mem_append_left _ hmem), if_pos hmem]
  | @first n writing a _ ha hnew ih =>
    -- the sequence `x` is not met here, so recording it tells no difference at this level
    have hax : a ≠ x := by
      rintro rfl
      exact hno 0 (fun _ _ => Nat.zero_le _) .here
    have hinner := ih o fun k hk hr => hno k hk (hr.delimited ha)
    rw [List.cons_append] at hinner
    rw [written_delimited _ _ _ _ ha, written_delimited _ _ _ _ ha, if_neg (by simp [hnew, hax]),
      if_neg hnew, hinner]
  | node _ ha ih =>
    rw [written_node _ _ _ _ _ ha, written_node _ _ _ _ _ ha, List.map_congr_left fun e he =>
      ih e he o fun k hk hr => hno k hk (.part (kind_of_node ha) he hr)]
  | error _ ha ih =>
    rw [written_error _ _ _ _ _ ha, written_error _ _ _ _ _ ha]
    exact ih o fun k hk hr => hno k hk (.text ha hr)
  | plain _ ha => rw [written_plain _ _ _ _ _ ha, written_plain _ _ _ _ _ ha]

/-- What leads back to a sequence that is being written takes some room. -/
theorem two_le_length_written (hx : h.IsSequence x) (hroom : h.Room n writing style a)
    (o : PrintOptions) (hmem : x ∈ writing) (hr : h.Returns x o.widthLimit k style a) :
    2 ≤ (h.written σ n writing style o a).length := by
  induction hroom using Room.induction generalizing o k with
  | word _ ha => exact absurd ha (hr.not_word hx)
  | bare _ ha ih =>
    obtain ⟨j, e, rfl, he, hr⟩ := hr.of_bare ha
    rw [written_bare _ _ _ _ ha]
    exact two_le_length_writtenWalk he (ih e (mem_of_fitting he) o.deeper hmem hr)
  | again _ ha hagain =>
    rw [written_delimited _ _ _ _ ha, if_pos hagain]
    decide
  | first _ ha hnew =>
    rw [length_written_first ha hnew]
    omega
  | node _ ha =>
    have hopening : ("( " : String).length = 2 := by decide
    rw [written_node _ _ _ _ _ ha, String.length_append, String.length_append, hopening]
    omega
  | error _ ha ih =>
    rw [written_error _ _ _ _ _ ha]
    exact ih o hmem (hr.of_error hx ha)
  | plain _ ha => exact absurd ha (hr.not_plain hx)

section Record

variable (hx : h.IsSequence x) (hself : h.Returns x width k .bare x)

include hx hself

/-- A sequence that comes again among its own parts is cut shorter than it is written out. -/
theorem length_written_self (hroom : h.Room (n + 1) writing .delimited x)
    (hwidth : o.widthLimit = width) (hnew : x ∉ writing) :
    (h.written σ (n + 1) (writing ++ [x]) .delimited o x).length <
      (h.written σ (n + 1) writing .delimited o x).length := by
  have hinner : 2 ≤ (h.written σ (n + 1) (x :: writing) .bare o x).length :=
    two_le_length_written hx (hroom.record hx hnew) o List.mem_cons_self (hwidth ▸ hself)
  have hdots : ("..." : String).length = 3 := by decide
  rw [length_written_first hx hnew, written_delimited _ _ _ _ hx, if_pos (by simp), hdots]
  omega

/-- With a record nothing gets longer. -/
theorem length_written_append_le (hroom : h.Room n writing style a) (o : PrintOptions)
    (hwidth : o.widthLimit = width) :
    (h.written σ n (writing ++ [x]) style o a).length ≤
      (h.written σ n writing style o a).length := by
  induction hroom using Room.induction generalizing o with
  | word _ ha => rw [written_word _ _ _ _ _ ha, written_word _ _ _ _ _ ha]
  | bare _ ha ih =>
    rw [written_bare _ _ _ _ ha, written_bare _ _ _ _ ha]
    exact length_writtenWalk_le fun e he => ih e he o.deeper hwidth
  | again _ ha hmem =>
    rw [written_delimited _ _ _ _ ha, written_delimited _ _ _ _ ha,
      if_pos (List.mem_append_left _ hmem), if_pos hmem]
  | @first n writing a hroom ha hnew ih =>
    -- the key case: `x` is abbreviated now, and that is not longer than its elements
    by_cases hax : a = x
    · subst hax
      exact (length_written_self hx hself hroom hwidth hnew).le
    · have hinner := ih o hwidth
      rw [List.cons_append] at hinner
      rw [length_written_first ha hnew, length_written_first ha (by simp [hnew, hax])]
      omega
  | node _ ha ih =>
    -- the children are in the middle of a node, and what surrounds them is equally long
    have hinner := length_intercalate_le [] fun e he => ih e he o hwidth
    simp only [List.append_nil] at hinner
    rw [written_node _ _ _ _ _ ha, written_node _ _ _ _ _ ha]
    simp only [String.length_append]
    omega
  | error _ ha ih =>
    rw [written_error _ _ _ _ _ ha, written_error _ _ _ _ _ ha]
    exact ih o hwidth
  | plain _ ha => rw [written_plain _ _ _ _ _ ha, written_plain _ _ _ _ _ ha]

/-- **A record makes a difference** where the sequence comes again within the limits.  The value
leads back to it through `j` levels and no fewer, and so does no sequence being written, unless the
elements of that sequence are just about to be written. -/
theorem length_written_append_lt (hroom : h.Room n writing style a) (o : PrintOptions)
    (hwidth : o.widthLimit = width) {j : ℕ} (hdepth : o.HasDepth j)
    (hr : h.Returns x width j style a) (hmin : ∀ i, h.Returns x width i style a → j ≤ i)
    (hwriting : ∀ b ∈ writing, ∀ i, h.Returns x width i .delimited b →
      j < i ∨ j = i ∧ style = .bare ∧ h.IsSequence a) :
    (h.written σ n (writing ++ [x]) style o a).length <
      (h.written σ n writing style o a).length := by
  -- the induction follows the shortest way back to `x`, one element or one part at a time
  induction hroom using Room.induction generalizing o j with
  | word _ ha => exact absurd ha (hr.not_word hx)
  | bare hroom ha ih =>
    -- one level down the way is shorter by one, and so is the depth that is left
    obtain ⟨j, e, rfl, he, hr⟩ := hr.of_bare ha
    obtain ⟨hleft, hdeeper⟩ := PrintOptions.hasDepth_succ_iff.mp hdepth
    rw [written_bare _ _ _ _ ha, written_bare _ _ _ _ ha]
    rw [← hwidth] at he
    -- the other elements get no longer, so one element that gets shorter is enough
    refine length_writtenWalk_lt hleft (fun c hc => length_written_append_le hx hself
      (hroom.element ha hc) o.deeper hwidth) he ?_
    -- the element may not lead back sooner: a shorter way from it would be one from `a` as well
    refine ih e (mem_of_fitting he) o.deeper hwidth hdeeper hr (fun i hi => ?_) fun b hb i hi => ?_
    · have hle := hmin (i + 1) (.element ha (hwidth ▸ he) hi)
      omega
    · have hlt := hwriting b hb i hi
      omega
  | again _ ha hmem =>
    -- no sequence that is being written leads back by so short a way
    have hlt := hwriting _ hmem j hr
    simp at hlt
  | @first n writing a hroom ha hnew ih =>
    by_cases hax : a = x
    -- the end of the way: `x` is met again and abbreviated, which is shorter
    · subst hax
      exact length_written_self hx hself hroom hwidth hnew
    · have hbare := (hr.of_delimited ha).resolve_left hax
      have hinner := ih o hwidth hdepth hbare (fun i hi => hmin i (hi.delimited ha)) ?_
      · rw [List.cons_append] at hinner
        rw [length_written_first ha hnew, length_written_first ha (by simp [hnew, hax])]
        omega
      · refine List.forall_mem_cons.mpr ⟨fun i hi => ?_, fun b hb i hi => ?_⟩
        -- `a` is now being written too, and leads back as late as its elements, which come next
        · have hle := hmin i hi
          rcases hle.lt_or_eq with hlt | heq
          · exact .inl hlt
          · exact .inr ⟨heq, rfl, ha⟩
        · have hlt := hwriting b hb i hi
          simp only [reduceCtorEq, false_and, and_false, or_false] at hlt
          exact .inl hlt
  | @node n writing style a _ _ hroom ha ih =>
    have hnot : ¬h.IsSequence _ := fun hseq => hseq.kind_ne.1 (kind_of_node ha)
    -- a node is no level, so its parts lead back by the same number of levels
    obtain ⟨e, he, hr⟩ := hr.of_node hx (kind_of_node ha)
    have hlt := ih e he o hwidth hdepth hr (fun i hi => hmin i (.part (kind_of_node ha) he hi)) ?_
    · have hinner :
          (" ".intercalate ((h.parts a).map
            (h.written σ n (writing ++ [x]) .delimited o) ++ [])).length <
            (" ".intercalate ((h.parts a).map
              (h.written σ n writing .delimited o) ++ [])).length :=
        length_intercalate_lt [] (fun c hc => length_written_append_le hx hself
          (hroom.part (kind_of_node ha) hc) o hwidth) he hlt
      simp only [List.append_nil] at hinner
      rw [written_node _ _ _ _ _ ha, written_node _ _ _ _ _ ha]
      simp only [String.length_append]
      omega
    · exact fun b hb i hi => .inl ((hwriting b hb i hi).resolve_right fun h => hnot h.2.2)
  | error _ ha ih =>
    have hnot : ¬h.IsSequence _ := fun hseq => hseq.kind_ne.2 (kind_of_error ha)
    rw [written_error _ _ _ _ _ ha, written_error _ _ _ _ _ ha]
    refine ih o hwidth hdepth (hr.of_error hx ha) (fun i hi => hmin i (.text ha hi)) ?_
    exact fun b hb i hi => .inl ((hwriting b hb i hi).resolve_right fun h => hnot h.2.2)
  | plain _ ha => exact absurd ha (hr.not_plain hx)

end Record

/-! ### The two styles -/

/-- **When the two styles differ in the outer delimiters alone**: just when the sequence does not
come again among its own parts, within the limits of the print options. -/
theorem delimited_eq_bare_iff (hx : h.IsSequence x) (hlegible : h.Legible x) (σ : Settled)
    (o : PrintOptions) :
    ∃ s t, ((h.render .delimited o x).run σ).1 = .ok s ∧ ((h.render .bare o x).run σ).1 = .ok t ∧
      (s = (brackets (h.kind x)).1 ++ t ++ (brackets (h.kind x)).2 ↔
        ∀ k, o.HasDepth k → ¬h.Returns x o.widthLimit k .bare x) := by
  refine ⟨_, _, run_render hlegible σ .delimited o, run_render hlegible σ .bare o, ?_⟩
  obtain ⟨n, hn⟩ : ∃ n, (h.blocks.size + 2) * (h.blocks.size + 2) = n + 1 :=
    Nat.exists_eq_succ_of_ne_zero (by simp)
  have hroom := room_start hlegible [] .bare
  unfold writtenOn
  rw [hn] at hroom ⊢
  rw [written_delimited _ _ _ _ hx, if_neg (by simp), String.append_left_inj,
    String.append_right_inj]
  constructor
  · intro heq k hk hr
    -- the shortest way back
    obtain ⟨j, hj, hmin⟩ : ∃ j, h.Returns x o.widthLimit j .bare x ∧
        ∀ i, h.Returns x o.widthLimit i .bare x → j ≤ i := by
      classical
      have hsome : ∃ i, h.Returns x o.widthLimit i .bare x := ⟨k, hr⟩
      exact ⟨Nat.find hsome, Nat.find_spec hsome, fun i hi => Nat.find_min' hsome hi⟩
    have hdepth : o.HasDepth j := fun d hd => (hmin k hr).trans (hk d hd)
    have hlt := length_written_append_lt (σ := σ) hx hj hroom o rfl hdepth hj hmin (by simp)
    rw [List.nil_append, heq] at hlt
    exact absurd hlt (Nat.lt_irrefl _)
  · exact fun hno => written_append_of_not_returns hroom o hno

/-- A list with the same list at both places is written alike in both styles. -/
theorem pair_in_both_styles :
    let s := (Session.run [.make (.list [.text "s" false]) ⟨some "x", true⟩,
      .make (.list [.register "x", .register "x"]) ⟨some "y", true⟩] {}).2.store
    s.heap.IsSequence 6 ∧ s.heap.Legible 6 ∧
      ∀ o, ∃ t, ((s.heap.render .delimited o 6).run s.settled).1 = .ok ("[" ++ t ++ "]") ∧
        ((s.heap.render .bare o 6).run s.settled).1 = .ok t := by
  intro s
  have hx : s.heap.IsSequence 6 := by decide +kernel
  have hlegible : s.heap.Legible 6 :=
    legible_of_closed (S := [0, 3, 6]) (fun _ => [])
      (linked_of_heads (S := [1, 2, 4, 5]) (by decide +kernel) (by decide +kernel)
        (by decide +kernel))
      (by decide +kernel) (by decide +kernel) (by decide +kernel) (by decide)
  refine ⟨hx, hlegible, fun o => ?_⟩
  obtain ⟨_, t, hs, ht, hiff⟩ := delimited_eq_bare_iff hx hlegible s.settled o
  -- neither the word nor the inner list leads back to the outer one
  obtain rfl := hiff.mpr fun k _ => not_returns_of_not_within hx fun e he hin => by
    have hpart : e ∈ [0, 3] := (by decide +kernel : ∀ e ∈ s.heap.parts 6, e ∈ [0, 3]) e he
    exact absurd (hin.mem (by decide +kernel) hpart) (by decide)
  have hbrackets : brackets (s.heap.kind 6) = ("[", "]") := by decide +kernel
  rw [hbrackets] at hs
  exact ⟨t, hs, ht⟩

/-- **The two styles can differ in more than the outer delimiters.**  A list that contains itself is
cut short inside of itself in delimited style, and only inside of that in bare style. -/
theorem delimited_ne_bare :
    let s := (Session.run [.build (.selfContaining ["a"]) ⟨some "x", true⟩] {}).2.store
    s.heap.IsSequence 3 ∧ s.heap.Legible 3 ∧
      ((s.heap.render .delimited {} 3).run s.settled).1 = .ok "[a ...]" ∧
      ((s.heap.render .bare {} 3).run s.settled).1 = .ok "a [a ...]" ∧
      "[a ...]" ≠
        (brackets (s.heap.kind 3)).1 ++ "a [a ...]" ++ (brackets (s.heap.kind 3)).2 := by
  intro s
  have hlegible : s.heap.Legible 3 :=
    legible_of_closed (S := [0, 3]) (fun _ => [])
      (linked_of_heads (S := [1, 2, 4]) (by decide +kernel) (by decide +kernel)
        (by decide +kernel))
      (by decide +kernel) (by decide +kernel) (by decide +kernel) (by decide)
  exact ⟨by decide +kernel, hlegible, by decide +kernel, by decide +kernel, by decide +kernel⟩

end Heap

end SharedValues
