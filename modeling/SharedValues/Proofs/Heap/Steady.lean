import SharedValues.Proofs.Heap.Build

/-!
# Words stay what they are

Blocks come and go, and other values may get another content, but a word is never written anew.
So a word that is read at an address was there as long as the address was in use.

## Main definitions

* `Heap.Steady` — every word at an old address was there before.

## Main results

* `Steady.releaseAll`, `Steady.setBody`, `Steady.alloc` — the elementary changes are steady.
* `Steady.eval` — so are the values of expressions.
-/

namespace SharedValues.Heap

/-- Every word that is found in `h'` at an address in use in `h` was there in `h`. -/
structure Steady (h h' : Heap) : Prop where
  /-- No address is given out twice. -/
  size_le : h.blocks.size ≤ h'.blocks.size
  /-- The words at old addresses. -/
  word : ∀ {a w}, a < h.blocks.size → h'.body a = .word w → h.body a = .word w

namespace Steady

variable {h h' h'' : Heap}

theorem refl (h : Heap) : h.Steady h := ⟨Nat.le_refl _, fun _ => id⟩

theorem trans (hh : h.Steady h') (hh' : h'.Steady h'') : h.Steady h'' where
  size_le := hh.size_le.trans hh'.size_le
  word ha hw := hh.word ha (hh'.word (ha.trans_le hh.size_le) hw)

/-- The contents at old addresses stay. -/
theorem of_body (hsize : h.blocks.size ≤ h'.blocks.size)
    (hbody : ∀ a < h.blocks.size, h'.body a = h.body a) : h.Steady h' :=
  ⟨hsize, fun ha hw => (hbody _ ha).symm.trans hw⟩

/-! ### Elementary changes -/

theorem retain (h : Heap) (a : Addr) : h.Steady (h.retain a) := by
  refine of_body ?_ fun c _ => body_retain h a c
  rw [Heap.retain, modify, Array.size_modify]

theorem retainAll (h : Heap) (as : List Addr) : h.Steady (h.retainAll as) :=
  of_body (size_blocks_retainAll h as).ge fun c _ => body_retainAll h as c

theorem freeze (h : Heap) (a : Addr) : h.Steady (h.freeze a) := by
  refine of_body ?_ fun c _ => body_freeze h a c
  rw [Heap.freeze, modify, Array.size_modify]

theorem alloc (h : Heap) (body : Body) (permanent : Bool) :
    h.Steady (h.alloc body permanent).2 := by
  apply of_body (by simp [Heap.alloc])
  intro a ha
  rw [body_alloc, if_neg ha.ne]

/-- A new content that is no word. -/
theorem setBody (h : Heap) (a : Addr) {body : Body} (hbody : ∀ w, body ≠ .word w) :
    h.Steady (h.setBody a body) where
  size_le := by rw [Heap.setBody, modify, Array.size_modify]
  word {c w} _ hw := by
    by_cases hca : c = a
    · -- a word is read there only if there is no block, and then there is none
      subst hca
      by_cases hlive : h.Live c
      · exact absurd ((body_setBody hlive body).symm.trans hw) (hbody w)
      · have hlive' : (h.setBody c body).Live c := live_of_body hw (by simp)
        exact absurd (live_setBody.mp hlive') hlive
    · exact (body_setBody_of_ne hca body).symm.trans hw

theorem of_thins (hh : h.Thins h') : h.Steady h' where
  size_le := hh.size_le
  word _ hw := (hh.body_eq (live_of_body hw (by simp))).symm.trans hw

theorem releaseAll (h : Heap) (as : List Addr) : h.Steady (h.releaseAll as) :=
  of_thins (releaseAll_thins h as)

theorem release (h : Heap) (a : Addr) : h.Steady (h.release a) := releaseAll h [a]

/-! ### Builders -/

theorem nothing (h : Heap) : h.Steady h.nothing.2 :=
  (of_thins (.ensureNothing h)).trans (retain _ _)

theorem truth (h : Heap) (value : Bool) : h.Steady (h.truth value).2 := by
  have halloc := alloc h (.word (.text (if value then "true" else "false") false)) true
  have hensure : h.Steady (h.ensureTruth value).2 := by
    unfold ensureTruth
    split
    · exact refl h
    · cases value
      · exact ⟨halloc.size_le, halloc.word⟩
      · exact ⟨halloc.size_le, halloc.word⟩
  exact hensure.trans (retain _ _)

theorem chainOf (h : Heap) (items : List Addr) : h.Steady (h.chainOf items).2 := by
  induction items with
  | nil => exact nothing h
  | cons item items ih =>
    rw [chainOf_cons]
    exact ih.trans (alloc _ _ _)

theorem listOf (h : Heap) (items : List Addr) : h.Steady (h.listOf items).2 := by
  rw [listOf_eq]
  exact (chainOf h items).trans (alloc _ _ _)

theorem each {α : Type} {make : Heap → α → Addr × Heap}
    (hmake : ∀ (h : Heap) x, h.Steady (make h x).2) (xs : List α) (h : Heap) :
    h.Steady (each make xs h).2 := by
  have hfold : ∀ (made : List Addr) (h : Heap),
      h.Steady (xs.foldl (fun r x => ((make r.2 x).1 :: r.1, (make r.2 x).2)) (made, h)).2 := by
    induction xs with
    | nil => exact fun _ h => refl h
    | cons x xs ih => exact fun made h => (hmake h x).trans (ih _ _)
  exact hfold [] h

theorem words (h : Heap) (raws : List String) : h.Steady (h.words raws).2 := by
  rw [words_eq]
  exact (each (fun h raw => alloc h _ _) raws h).trans (listOf _ _)

theorem numbers (h : Heap) (values : List Binary64) : h.Steady (h.numbers values).2 := by
  rw [numbers_eq]
  exact (each (fun h value => alloc h _ _) values h).trans (listOf _ _)

theorem wordArray (h : Heap) (origin : ℤ) (raws : List String) :
    h.Steady (h.wordArray origin raws).2 := by
  rw [wordArray_eq]
  exact (each (fun h raw => alloc h _ _) raws h).trans (alloc _ _ _)

theorem numberArray (h : Heap) (origin : ℤ) (values : List Binary64) :
    h.Steady (h.numberArray origin values).2 := by
  rw [numberArray_eq]
  exact (each (fun h value => alloc h _ _) values h).trans (alloc _ _ _)

theorem emptyArray (h : Heap) (origin : ℤ) (size : ℕ) :
    h.Steady (h.emptyArray origin size).2 := by
  rw [emptyArray_eq]
  exact (each (fun h _ => listOf h []) (List.range size) h).trans (alloc _ _ _)

theorem nested (h : Heap) (raw : String) (depth : ℕ) : h.Steady (h.nested raw depth).2 := by
  induction depth with
  | zero => exact listOf h []
  | succ depth ih =>
    rw [nested_succ]
    exact ih.trans ((alloc _ _ _).trans (listOf _ _))

theorem usage (h : Heap) : h.Steady h.usage.2 := of_body (Nat.le_refl _) fun _ _ => rfl

/-! ### Expressions -/

mutual

theorem eval (env : String → Option Addr) (e : Expr) (h : Heap) : h.Steady (e.eval env h).2 := by
  match e with
  | .nothing => exact nothing h
  | .truth value => exact truth h value
  | .number value => exact alloc h _ _
  | .text raw special => exact alloc h _ _
  | .list items => exact (evalAll env items h).trans (listOf _ _)
  | .array origin items => exact (evalAll env items h).trans (alloc _ _ _)
  | .node name children =>
    exact (eval env name h).trans ((evalAll env children _).trans (alloc _ _ _))
  | .error code message tag =>
    exact (eval env message h).trans ((eval env tag _).trans (alloc _ _ _))
  | .procedure payload => exact alloc h _ _
  | .cell item next => exact (eval env item h).trans ((eval env next _).trans (alloc _ _ _))
  | .register name =>
    rw [Expr.eval]
    split
    · exact retain h _
    · exact nothing h

theorem evalAll (env : String → Option Addr) (es : List Expr) (h : Heap) :
    h.Steady (Expr.evalAll env es h).2 := by
  match es with
  | [] => exact refl h
  | e :: es => exact (eval env e h).trans (evalAll env es _)

end

end Steady

end SharedValues.Heap
