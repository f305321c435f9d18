import SharedValues.Proofs.Query.Context
import SharedValues.Proofs.Query.Written

/-!
# Broken chains

A chain that leads to a value that is no cell breaks every walk along it, and with the walk the
comparison or the rendering that needs it.  What the traversal was inside of then comes with the
fault: it is all that was entered on the way down to the broken chain, and nothing else.

A comparison enters every pair of sequences that it compares, so the pair with the broken chain is
always among them.  A rendering records a sequence only if it writes its brackets.

## Main definitions

* `Heap.WritesDownTo` — the way of a rendering down to a broken chain.
* `Heap.ComparesDownTo` — the way of a comparison down to a broken chain.

## Main results

* `Heap.ensures_renderWithin_breaks` — how a rendering can break off.
* `Heap.ensures_equalWithin_breaks` — how a comparison can break off.
* `Heap.run_equalOn_again` — a comparison that has broken off takes its two values for equal when it
  is made again inside of what it left behind.
-/

namespace SharedValues

namespace Heap

variable {h : Heap} {a b x y : Addr} {σ : Settled} {n : ℕ} {writing : List Addr} {trail : Trail}
  {style : Style} {o : PrintOptions} {ε : Type}

/-! ### Renderings -/

/-- **The way of a rendering down to a broken chain**, from a value and the sequences that are being
written to the fault and the sequences that are being written then. -/
inductive WritesDownTo (h : Heap) : List Addr → Style → Addr → Fault × List Addr → Prop
  /-- The chain of the sequence itself is broken. -/
  | chain {writing : List Addr} {x : Addr} {f : Fault} :
    h.IsSequence x → (h.elements x).fault? = some f → WritesDownTo h writing .bare x (f, writing)
  /-- A sequence that is written with its brackets is recorded first. -/
  | record {writing : List Addr} {x : Addr} {e : Fault × List Addr} :
    h.IsSequence x → x ∉ writing → WritesDownTo h (x :: writing) .bare x e →
      WritesDownTo h writing .delimited x e
  /-- An element of a sequence. -/
  | element {writing : List Addr} {x a : Addr} {e : Fault × List Addr} :
    h.IsSequence x → a ∈ (h.elements x).found → WritesDownTo h writing .delimited a e →
      WritesDownTo h writing .bare x e
  /-- The name or a child of a syntax node. -/
  | part {writing : List Addr} {style : Style} {x a : Addr} {e : Fault × List Addr} :
    h.kind x = .node → a ∈ h.parts x → WritesDownTo h writing .delimited a e →
      WritesDownTo h writing style x e
  /-- The text of an error, which is written without brackets. -/
  | text {writing : List Addr} {style : Style} {x text tag : Addr} {code : ℤ}
      {e : Fault × List Addr} :
    h.body x = .error code text tag → WritesDownTo h writing .bare text e →
      WritesDownTo h writing style x e

/-- What was being written still is. -/
theorem WritesDownTo.suffix {e : Fault × List Addr} (hx : h.WritesDownTo writing style x e) :
    writing <:+ e.2 := by
  induction hx with
  | chain => exact List.suffix_refl _
  | record _ _ _ ih => exact (List.suffix_cons _ _).trans ih
  | element _ _ _ ih => exact ih
  | part _ _ _ ih => exact ih
  | text _ _ ih => exact ih

/-- A sequence that is to be written with its brackets is being written when the chain breaks. -/
theorem WritesDownTo.mem {e : Fault × List Addr} (hx : h.WritesDownTo writing .delimited x e)
    (hseq : h.IsSequence x) : x ∈ e.2 := by
  cases hx with
  | record _ _ hdown => exact hdown.suffix.subset List.mem_cons_self
  | part hkind => exact absurd hkind hseq.kind_ne.1
  | text hbody => exact absurd (kind_of_error hbody) hseq.kind_ne.2

/-- Words that are settled keep a property of the settled words. -/
theorem ensures_renderWord_keeps {P : Settled → Prop} {w : Word} (ha : h.body a = .word w)
    (hP : ∀ {a w τ}, h.body a = .word w → w.isNumber = true → P τ → P (τ.insert a)) (hσ : P σ)
    (o : PrintOptions) :
    Ensures (Query.renderWord a w o : Query ε String) σ (fun _ τ => P τ) fun _ _ => False := by
  unfold Query.renderWord
  refine ensures_bind.mpr ?_
  show Ensures _ σ _ _
  split
  · next hw => exact hP ha hw hσ
  · exact hσ

/-- The elements of a walk are written one after the other, and only behind the last one its own
fault is met. -/
theorem ensures_renderWalk_breaks {P : Settled → Prop} {E : ε → Settled → Prop}
    {write : Addr → Query ε String} {halt : Fault → ε} {w : Walk}
    (hwrite : ∀ e ∈ w.found, ∀ τ, P τ → Ensures (write e) τ (fun _ τ' => P τ') E)
    (hhalt : ∀ f τ, w.fault? = some f → P τ → E (halt f) τ) (hσ : P σ) :
    Ensures (renderWalk write halt o w) σ (fun _ τ => P τ) E := by
  unfold renderWalk
  extract_lets ended
  -- the end of the chain is looked at only when all elements have been written
  have hended : ∀ (s : String) τ, P τ →
      Ensures (do ended; return s) τ (fun _ τ' => P τ') E := by
    intro s τ hτ
    cases hf : w.fault? with
    | some f =>
      simp only [ended, hf]
      exact ensures_throw.mpr (hhalt f τ hf hτ)
    | none =>
      simp only [ended, hf]
      exact ensures_pure.mpr hτ
  split
  · exact hended "" σ hσ
  split
  · exact ensures_pure.mpr hσ
  refine ensures_bind.mpr ((ensures_mapM_keeps (fun e he => hwrite e (List.mem_of_mem_take he))
    hσ).mono ?_ fun _ _ => id)
  intro parts τ hτ
  split
  · exact ensures_pure.mpr hτ
  · exact hended _ τ hτ

/-- **How a rendering can break off**: at a chain that is broken, being inside of all that it
entered on the way down.  Meanwhile it settles number words only. -/
theorem ensures_renderWithin_breaks {P : Settled → Prop}
    (hP : ∀ {a w τ}, h.body a = .word w → w.isNumber = true → P τ → P (τ.insert a)) (hσ : P σ)
    (n : ℕ) (writing : List Addr) (style : Style) (o : PrintOptions) (x : Addr) :
    Ensures (h.renderWithin n writing style o x) σ (fun _ τ => P τ)
      fun e τ => (e.1 ≠ .endless → h.WritesDownTo writing style x e) ∧ P τ := by
  induction n generalizing writing style o x σ with
  | zero => exact ensures_throw.mpr ⟨fun h => absurd rfl h, hσ⟩
  | succ n ih =>
    -- the elements are written the same whether or not the sequence was recorded
    have hbare : ∀ {writing : List Addr} {σ : Settled}, P σ → h.IsSequence x →
        Ensures (h.renderWithin (n + 1) writing .bare o x) σ (fun _ τ => P τ)
          fun e τ => (e.1 ≠ .endless → h.WritesDownTo writing .bare x e) ∧ P τ := by
      intro writing σ hσ hx
      rw [renderWithin_bare _ _ _ hx]
      refine ensures_renderWalk_breaks ?_ (fun f τ hf hτ => ⟨fun _ => .chain hx hf, hτ⟩) hσ
      intro e he τ hτ
      exact (ih hτ writing .delimited o.deeper e).mono (fun _ _ => id)
        fun _ _ ⟨hdown, hτ⟩ => ⟨fun hend => .element hx he (hdown hend), hτ⟩
    cases h.form x with
    | word hw =>
      rw [renderWithin_word _ _ _ _ hw]
      exact (ensures_renderWord_keeps hw hP hσ o).mono (fun _ _ => id) fun _ _ => False.elim
    | sequence hx =>
      cases style with
      | bare => exact hbare hσ hx
      | delimited =>
        rw [renderWithin_delimited _ _ _ hx]
        split
        · exact ensures_pure.mpr hσ
        -- a fault met inside is met on a way that records the sequence first
        next hnew =>
        exact ensures_bind.mpr ((hbare hσ hx).mono (fun _ _ hτ => ensures_pure.mpr hτ)
          fun _ _ ⟨hdown, hτ⟩ => ⟨fun hend => .record hx hnew (hdown hend), hτ⟩)
    | node hx =>
      rw [renderWithin_node _ _ _ _ hx]
      refine ensures_bind.mpr ((ensures_mapM_keeps (fun e he τ hτ => (ih hτ writing .delimited o
        e).mono (fun _ _ => id) ?_) hσ).mono (fun _ _ hτ => ensures_pure.mpr hτ) fun _ _ => id)
      exact fun _ _ ⟨hdown, hτ⟩ => ⟨fun hend => .part (kind_of_node hx) he (hdown hend), hτ⟩
    | error hx =>
      rw [renderWithin_error _ _ _ _ hx]
      exact (ih hσ writing .bare o _).mono (fun _ _ => id)
        fun _ _ ⟨hdown, hτ⟩ => ⟨fun hend => .text hx (hdown hend), hτ⟩
    | plain hx =>
      rw [renderWithin_plain _ _ _ _ hx]
      exact ensures_pure.mpr hσ

/-- A sequence that is being written is cut short when it is to be written with its brackets. -/
theorem run_renderOn_again (hseq : h.IsSequence x) (hmem : x ∈ writing) (o : PrintOptions)
    (σ : Settled) : (h.renderOn writing .delimited o x).run σ = (.ok "...", σ) := by
  obtain ⟨n, hn⟩ : ∃ n, (h.blocks.size + 2) * (h.blocks.size + 2) = n + 1 :=
    Nat.exists_eq_succ_of_ne_zero (by positivity)
  rw [renderOn, hn, renderWithin_delimited _ _ _ hseq, if_pos hmem]
  rfl

/-! ### Comparisons -/

/-- **The way of a comparison down to a broken chain**, from two values and the trail that it is
inside of to the fault and the trail that it is inside of then. -/
inductive ComparesDownTo (h : Heap) : Trail → Addr → Addr → Fault × Trail → Prop
  /-- The chain of one of the two sequences is broken. -/
  | chain {trail : Trail} {x y : Addr} {f : Fault} :
    h.IsSequence x → h.kind x = h.kind y → x ≠ y →
    (h.elements x).fault? = some f ∨ (h.elements y).fault? = some f →
      ComparesDownTo h trail x y (f, (x, y) :: trail)
  /-- Two elements at the same position. -/
  | element {trail : Trail} {x y a b : Addr} {e : Fault × Trail} :
    h.IsSequence x → h.kind x = h.kind y → x ≠ y →
    (a, b) ∈ (h.elements x).found.zip (h.elements y).found →
    ComparesDownTo h ((x, y) :: trail) a b e → ComparesDownTo h trail x y e

/-- The two values are different sequences of one kind. -/
theorem ComparesDownTo.sequences {e : Fault × Trail} (hxy : h.ComparesDownTo trail x y e) :
    h.IsSequence x ∧ h.kind x = h.kind y ∧ x ≠ y := by
  cases hxy with
  | chain hx hkind hne => exact ⟨hx, hkind, hne⟩
  | element hx hkind hne => exact ⟨hx, hkind, hne⟩

/-- What the comparison was inside of it still is, and the two values have been entered. -/
theorem ComparesDownTo.suffix {e : Fault × Trail} (hxy : h.ComparesDownTo trail x y e) :
    (x, y) :: trail <:+ e.2 := by
  induction hxy with
  | chain => exact List.suffix_refl _
  | element _ _ _ _ _ ih => exact (List.suffix_cons _ _).trans ih

/-- The elements of two walks are compared pair by pair until one of the walks breaks off. -/
theorem ensures_walksEqual_breaks {same : Addr → Addr → Query ε Bool} {halt : Fault → ε}
    {xs ys : List Addr} {f g : Option Fault} {E : ε → Settled → Prop}
    (hsame : ∀ p ∈ xs.zip ys, ∀ τ, Ensures (same p.1 p.2) τ (fun _ _ => True) E)
    (hhalt : ∀ k τ, f = some k ∨ g = some k → E (halt k) τ) (σ : Settled) :
    Ensures (walksEqual same halt xs f ys g) σ (fun _ _ => True) E := by
  fun_induction walksEqual same halt xs f ys g generalizing σ with
  | case1 x xs f y ys g ih =>
    refine ensures_bind.mpr ((hsame (x, y) List.mem_cons_self σ).mono ?_ fun _ _ => id)
    rintro r τ -
    split
    · exact ih (fun p hp => hsame p (List.mem_cons_of_mem _ hp)) hhalt τ
    · exact ensures_pure.mpr trivial
  | case2 k => exact ensures_throw.mpr (hhalt k σ (.inl rfl))
  | case3 k => exact ensures_throw.mpr (hhalt _ σ (.inr rfl))
  | case4 => exact ensures_pure.mpr trivial
  | case5 => exact ensures_pure.mpr trivial

/-- **How a comparison can break off**: at a chain that is broken, being inside of all that it
entered on the way down. -/
theorem ensures_equalWithin_breaks (h : Heap) (ignoreCase : Bool) (n : ℕ) (trail : Trail)
    (x y : Addr) (σ : Settled) :
    Ensures (h.equalWithin ignoreCase n trail x y) σ (fun _ _ => True)
      fun e _ => e.1 ≠ .endless → h.ComparesDownTo trail x y e := by
  induction n generalizing trail x y σ with
  | zero => exact ensures_throw.mpr fun h => absurd rfl h
  | succ n ih =>
    by_cases hkind : h.kind x = h.kind y
    swap
    · rw [equalWithin, if_pos hkind]
      exact ensures_pure.mpr trivial
    by_cases hne : x = y
    · rw [equalWithin, if_neg (not_not.mpr hkind), if_pos hne]
      exact ensures_pure.mpr trivial
    by_cases hx : h.IsSequence x
    · rw [equalWithin_of_sequence hx hkind hne]
      split
      · exact ensures_pure.mpr trivial
      split
      · exact ensures_pure.mpr trivial
      split
      · exact ensures_pure.mpr trivial
      refine ensures_walksEqual_breaks ?_ (fun f _ hf _ => .chain hx hkind hne hf) σ
      intro p hp τ
      exact (ih ((x, y) :: trail) p.1 p.2 τ).mono (fun _ _ => id)
        fun _ _ hdown hend => .element hx hkind hne hp (hdown hend)
    -- other values are compared without a walk
    rw [equalWithin, if_neg (not_not.mpr hkind), if_neg hne]
    unfold IsSequence kind at hx
    revert hx
    cases h.body x with
    | word v =>
      intro _
      cases h.body y with
      | word w =>
        obtain ⟨r, τ, hrun⟩ := Query.exists_run_wordsEqual ignoreCase x y v w σ
        exact (ensures_of_ok hrun).mpr trivial
      | _ => exact ensures_pure.mpr trivial
    | list l => simp [Body.kind]
    | array origin slots => simp [Body.kind]
    | nothing => intro _; cases h.body y <;> exact ensures_pure.mpr trivial
    | _ => exact fun _ => ensures_pure.mpr trivial

/-- **A comparison that has broken off takes its two values for equal** when it is made again inside
of what it left behind. -/
theorem run_equalOn_again {e : Fault × Trail} (hxy : h.ComparesDownTo trail x y e)
    (hdistinct : e.2.Distinct) (ignoreCase : Bool) (σ : Settled) :
    (h.equalOn ignoreCase e.2 x y).run σ = (.ok true, σ) := by
  obtain ⟨hx, hkind, hne⟩ := hxy.sequences
  have hmem : (x, y) ∈ e.2 := hxy.suffix.subset List.mem_cons_self
  have hlevel := hdistinct.levels_eq_iff.mpr (.inl hmem)
  have hsome : (e.2.findIdx? (·.1 == x)).isSome = true := by
    rw [Option.isSome_iff_ne_none]
    exact fun hnone => Trail.level_eq_none_iff.mp hnone (List.mem_map_of_mem (f := Prod.fst) hmem)
  rw [equalOn, equalWithin_of_sequence hx hkind hne, if_neg (not_not.mpr hlevel), if_pos hsome]
  rfl

end Heap

end SharedValues
