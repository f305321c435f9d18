import SharedValues.Proofs.Heap.Move
import SharedValues.Session.Expr

/-!
# Builders use only the simplest moves

A new value is made of handles taken, blocks allocated and permanent values made sure of, whatever
the builder.  So every property that moves keep is kept by the builders, and by the expressions that
are made of them.  What a list builder makes is a chain of the right length.

## Main results

* `Heap.chainOf_chain` — a fresh chain has a cell for each element.
* `Kept.create`, `Kept.listOf`, `Kept.each` — new values.
* `Kept.eval` — the value of an expression.
-/

namespace SharedValues

namespace Heap

variable {h h' : Heap} {held : Multiset Addr} {a : Addr}

/-! ### Retained handles -/

theorem retainAll_cons (h : Heap) (as : List Addr) :
    h.retainAll (a :: as) = (h.retain a).retainAll as :=
  rfl

@[simp] theorem body_retainAll (h : Heap) (as : List Addr) (b : Addr) :
    (h.retainAll as).body b = h.body b := by
  induction as generalizing h with
  | nil => rfl
  | cons a as ih => rw [retainAll_cons, ih, body_retain]

@[simp] theorem nothingAt_retainAll (h : Heap) (as : List Addr) :
    (h.retainAll as).nothingAt = h.nothingAt := by
  induction as generalizing h with
  | nil => rfl
  | cons a as ih =>
    rw [retainAll_cons, ih]
    rfl

@[simp] theorem size_blocks_retainAll (h : Heap) (as : List Addr) :
    (h.retainAll as).blocks.size = h.blocks.size := by
  induction as generalizing h with
  | nil => rfl
  | cons a as ih => rw [retainAll_cons, ih, retain, modify, Array.size_modify]

/-- An allocation puts a content at the address given out, and nowhere else. -/
theorem body_alloc (h : Heap) (body : Body) (permanent : Bool) (a : Addr) :
    (h.alloc body permanent).2.body a = if a = h.blocks.size then body else h.body a := by
  simp only [Heap.body, block?_alloc]
  split <;> rfl

theorem live_of_kind (ha : h.kind a = .cell) : h.Live a :=
  live_of_body rfl fun hnothing => by simp [Heap.kind, hnothing, Body.kind] at ha

theorem Chain.live_of_mem {c : Addr} {cs : List Addr} (hcs : h.Chain a cs) (hc : c ∈ cs) :
    h.Live c :=
  live_of_kind (hcs.kind_of_mem c hc)

/-- Making sure of nothing changes no content: a place without a block reads as nothing, and so does
the block for nothing. -/
theorem body_ensureNothing (h : Heap) (a : Addr) : h.ensureNothing.2.body a = h.body a := by
  unfold ensureNothing
  split
  · rfl
  · refine (body_alloc ..).trans ?_
    split
    · next ha => rw [ha, body_of_size_le (Nat.le_refl _)]
    · rfl

@[simp] theorem body_nothing (h : Heap) (a : Addr) : h.nothing.2.body a = h.body a :=
  (body_retain ..).trans (body_ensureNothing h a)

theorem nothingAt_nothing (h : Heap) : h.nothing.2.nothingAt = some h.nothing.1 := by
  change h.ensureNothing.2.nothingAt = some h.ensureNothing.1
  unfold ensureNothing
  split
  · assumption
  · rfl

/-- The block for nothing stores no handles. -/
theorem stored_ensureNothing (h : Heap) : h.ensureNothing.2.stored = h.stored := by
  unfold ensureNothing
  split
  · rfl
  · exact (stored_alloc ..).trans (by simp [Body.handles])

@[simp] theorem stored_nothing (h : Heap) : h.nothing.2.stored = h.stored :=
  (stored_retain ..).trans (stored_ensureNothing h)

theorem Live.nothing (ha : h.Live a) : h.nothing.2.Live a := by
  refine live_retain.mpr (?_ : h.ensureNothing.2.Live a)
  unfold ensureNothing
  split
  · exact ha
  · exact live_alloc.mpr (Or.inr ha)

theorem Exact.kind_nothing (hh : h.Exact held) : h.nothing.2.kind h.nothing.1 = .nothing := by
  obtain ⟨b, hb, -, hbody⟩ := hh.ensureNothing_at
  have hnothing : h.nothing.2.body h.nothing.1 = .nothing :=
    (body_retain ..).trans ((body_of_block? hb).trans hbody)
  rw [kind, hnothing]
  rfl

/-! ### Links -/

/-- Heaps with the same contents have the same links. -/
theorem agreeOn_univ (hbody : ∀ a, h'.body a = h.body a) : AgreeOn Set.univ h h' where
  kind_eq a _ := by rw [kind, kind, hbody]
  next_eq a _ := by rw [next?, next?, hbody]
  closed _ _ _ _ := Set.mem_univ _

/-- Whether a size is right is a matter of the contents. -/
theorem Sized.congr (hbody : ∀ a, h'.body a = h.body a) {head : Addr} {size : ℕ}
    (hs : h.Sized head size) : h'.Sized head size := by
  intro hm
  have hagree := agreeOn_univ hbody
  refine hagree.measures (Set.mem_univ _) (hs ?_)
  intro x l hx
  exact hagree.symm.measures (Set.mem_univ _) (hm x l ((hbody x).trans hx))

theorem Fresh.congr (hbody : ∀ a, h'.body a = h.body a) (hnothing : h'.nothingAt = h.nothingAt)
    {body : Body} (hf : h.Fresh body) : h'.Fresh body where
  ne_nothing := hf.ne_nothing
  unparsed := hf.unparsed
  sized hl := (hf.sized hl).congr hbody
  founded hl hfounded := by
    rw [hnothing]
    refine hf.founded hl fun x l hx => ?_
    rw [← hnothing]
    exact hfounded x l ((hbody x).trans hx)

/-- A next link of a live cell is live. -/
theorem Exact.live_next (hh : h.Exact held) {n : Addr} (hn : h.next? a = some n) : h.Live n := by
  obtain ⟨item, hbody⟩ := next?_eq_some_iff.mp hn
  exact hh.live_of_mem hbody (by simp [Body.handles])

/-- An allocation leaves all links as they are, and none of them leads to the new block. -/
theorem Exact.agreeOn_alloc (hh : h.Exact held) (body : Body) (permanent : Bool) :
    AgreeOn {a | a ≠ h.blocks.size} h (h.alloc body permanent).2 where
  kind_eq a ha := by rw [kind, kind, body_alloc, if_neg ha]
  next_eq a ha := by rw [next?, next?, body_alloc, if_neg ha]
  closed a _ n hn := (hh.live_next hn).ne_size

/-- What is left has the links that it had, and none of them leads to what is gone. -/
theorem Thins.agreeOn (hthins : h.Thins h') (hh' : h'.Exact held) :
    AgreeOn {a | h'.Live a} h h' where
  kind_eq a ha := by rw [kind, kind, hthins.body_eq ha]
  next_eq a ha := by rw [next?, next?, hthins.body_eq ha]
  closed a ha n hn := by
    have hn' : h'.next? a = some n := by rwa [next?, hthins.body_eq ha]
    exact hh'.live_next hn'

/-- A content of the same kind with the same next link changes no link. -/
theorem agreeOn_setBody {old new : Body} (ha : h.Live a) (hold : h.body a = old)
    (hkind : new.kind = old.kind) (hnext : new.cell?.map Prod.snd = old.cell?.map Prod.snd) :
    AgreeOn Set.univ h (h.setBody a new) where
  kind_eq b _ := by
    by_cases hba : b = a
    · rw [hba, kind, kind, body_setBody ha, hold, hkind]
    · rw [kind, kind, body_setBody_of_ne hba]
  next_eq b _ := by
    by_cases hba : b = a
    · rw [hba, next?, next?, body_setBody ha, hold, hnext]
    · rw [next?, next?, body_setBody_of_ne hba]
  closed _ _ _ _ := Set.mem_univ _

/-- Links that do not lead to changed cells are what they were, if all that lives, but for a list
and for these cells, has kept its content. -/
theorem Exact.agreeOn_avoiding {x : Addr} {l l' : ListHeader} {T : Set Addr}
    (hh' : h'.Exact held) (hx : h.body x = .list l) (hx' : h'.body x = .list l')
    (hbody : ∀ a, h'.Live a → a ≠ x → a ∉ T → h'.body a = h.body a) :
    AgreeOn {a | h'.Live a ∧ ∀ i b, h.nth a i = some b → b ∉ T} h h' := by
  have hnext : ∀ a, h'.Live a → a ∉ T → h'.next? a = h.next? a := by
    intro a ha haT
    by_cases hax : a = x
    · rw [hax, next?, next?, hx, hx']
      rfl
    · rw [next?, next?, hbody a ha hax haT]
  refine ⟨fun a ha => ?_, fun a ha => hnext a ha.1 (ha.2 0 a rfl), fun a ha n hn => ⟨?_, ?_⟩⟩
  · by_cases hax : a = x
    · rw [hax, kind, kind, hx, hx']
      rfl
    · rw [kind, kind, hbody a ha.1 hax (ha.2 0 a rfl)]
  · exact hh'.live_next ((hnext a ha.1 (ha.2 0 a rfl)).trans hn)
  · exact fun i b hb => ha.2 (i + 1) b (by rw [nth_next hn]; exact hb)

/-- A chain gets one more cell behind the last one, if nothing else on it changes. -/
theorem Chain.snoc {g : Heap} {c last : Addr} {cs : List Addr} (hg : g.Exact held)
    (hcs : h.Chain a (cs ++ [last])) (ha : g.Live a)
    (hlast : g.Live last → g.next? last = some c ∧ g.Chain c [c])
    (hbody : ∀ b ∈ cs, g.Live b → g.next? b = h.next? b) : g.Chain a (cs ++ [last] ++ [c]) := by
  induction cs generalizing a with
  | nil =>
    cases hcs with
    | cons hn _ => exact .cons (hlast ha).1 (hlast ha).2
  | cons b cs ih =>
    cases hcs with
    | cons hn hcs =>
      have hnext := (hbody b List.mem_cons_self ha).trans hn
      refine .cons hnext (ih hcs (hg.live_next hnext) ?_)
      intro d hd
      exact hbody d (List.mem_cons_of_mem b hd)

/-! ### Equations of the builders -/

theorem chainOf_cons (h : Heap) (item : Addr) (items : List Addr) :
    h.chainOf (item :: items) = (h.chainOf items).2.alloc (.cell item (h.chainOf items).1) :=
  rfl

/-- There is nothing at the end of a fresh chain. -/
theorem nothingAt_chainOf (h : Heap) (items : List Addr) :
    (h.chainOf items).2.nothingAt.isSome = true := by
  induction items with
  | nil => exact Option.isSome_iff_exists.mpr ⟨_, nothingAt_nothing h⟩
  | cons item items ih => exact ih

theorem listOf_eq (h : Heap) (items : List Addr) :
    h.listOf items =
      (h.chainOf items).2.alloc (.list { head := (h.chainOf items).1, size := items.length }) :=
  rfl

theorem words_eq (h : Heap) (raws : List String) :
    h.words raws = (each (fun h raw => h.text raw) raws h).2.listOf
      (each (fun h raw => h.text raw) raws h).1 :=
  rfl

theorem numbers_eq (h : Heap) (values : List Binary64) :
    h.numbers values = (each number values h).2.listOf (each number values h).1 :=
  rfl

theorem wordArray_eq (h : Heap) (origin : ℤ) (raws : List String) :
    h.wordArray origin raws = (each (fun h raw => h.text raw) raws h).2.arrayOf origin
      (each (fun h raw => h.text raw) raws h).1 :=
  rfl

theorem numberArray_eq (h : Heap) (origin : ℤ) (values : List Binary64) :
    h.numberArray origin values = (each number values h).2.arrayOf origin
      (each number values h).1 :=
  rfl

theorem emptyArray_eq (h : Heap) (origin : ℤ) (size : ℕ) :
    h.emptyArray origin size = (each (fun h _ => h.listOf []) (List.range size) h).2.arrayOf origin
      (each (fun h _ => h.listOf []) (List.range size) h).1 :=
  rfl

theorem nested_succ (h : Heap) (raw : String) (depth : ℕ) :
    h.nested raw (depth + 1) = ((h.nested raw depth).2.text raw).2.listOf
      [((h.nested raw depth).2.text raw).1, (h.nested raw depth).1] :=
  rfl

end Heap

/-! ### Builders -/

namespace Kept

open Heap

variable {A : Set Act} {F : Multiset Addr → Heap → Prop} {h : Heap} {held : Multiset Addr}

theorem retainAll (hF : Kept A F) {as : List Addr} (hh : F held h) (hlive : ∀ a ∈ as, h.Live a) :
    F (held + (as : Multiset Addr)) (h.retainAll as) := by
  induction as generalizing h held with
  | nil => simpa [Heap.retainAll] using hh
  | cons a as ih =>
    have hcons : held + (↑(a :: as) : Multiset Addr) = held + {a} + (as : Multiset Addr) := by
      rw [← Multiset.cons_coe, ← Multiset.singleton_add, add_assoc]
    rw [hcons, retainAll_cons]
    apply ih (hF.retain hh (hlive a List.mem_cons_self))
    intro b hb
    exact live_retain.mpr (hlive b (List.mem_cons_of_mem a hb))

/-- A new value, whose stored handles are new too. -/
theorem create (hF : Kept A F) {body : Body} (hh : F held h)
    (hlive : ∀ a ∈ body.handles, h.Live a) (hfresh : h.Fresh body) :
    F (held + {((h.retainAll body.handles).alloc body).1})
      ((h.retainAll body.handles).alloc body).2 :=
  hF.alloc _ (hF.retainAll hh hlive) (hfresh.congr (body_retainAll h _) (nothingAt_retainAll h _))

theorem nothing (hF : Kept A F) (hh : F held h) : F (held + {h.nothing.1}) h.nothing.2 := by
  have hmade : F held h.ensureNothing.2 := hF.move hF.hold .nothing hh
  obtain ⟨b, hb, -⟩ := (hF.exact hh).ensureNothing_at
  exact hF.retain hmade ⟨b, hb⟩

theorem truth (hF : Kept A F) (hh : F held h) (value : Bool) :
    F (held + {(h.truth value).1}) (h.truth value).2 := by
  have hmade : F held (h.ensureTruth value).2 := hF.move hF.hold (.truth value) hh
  obtain ⟨b, hb, -⟩ := (hF.exact hh).ensureTruth_at value
  exact hF.retain hmade ⟨b, hb⟩

/-- A new value without stored handles and without a size. -/
theorem leaf (hF : Kept A F) {body : Body} (hh : F held h) (hhandles : body.handles = [])
    (hnothing : body.kind ≠ .nothing) (hlist : body.kind ≠ .list) :
    F (held + {(h.alloc body).1}) (h.alloc body).2 :=
  hF.alloc _ (by rwa [hhandles, Multiset.coe_nil, add_zero]) (.of_kind hnothing hlist)

theorem word (hF : Kept A F) (hh : F held h) (w : Word) :
    F (held + {(h.alloc (.word w)).1}) (h.alloc (.word w)).2 :=
  hF.leaf hh rfl (by simp [Body.kind]) (by simp [Body.kind])

theorem text (hF : Kept A F) (hh : F held h) (raw : String) (special : Bool) :
    F (held + {(h.text raw special).1}) (h.text raw special).2 :=
  hF.word hh (.text raw special)

theorem number (hF : Kept A F) (hh : F held h) (value : Binary64) :
    F (held + {(h.number value).1}) (h.number value).2 :=
  hF.word hh (.number value)

theorem chainOf (hF : Kept A F) {items : List Addr} (hh : F (held + (items : Multiset Addr)) h) :
    F (held + {(h.chainOf items).1}) (h.chainOf items).2 := by
  induction items generalizing held with
  | nil => exact hF.nothing (by simpa using hh)
  | cons item items ih =>
    have hrest : F (held + {item} + {(h.chainOf items).1}) (h.chainOf items).2 := by
      refine ih ?_
      rwa [← Multiset.cons_coe, ← Multiset.singleton_add, ← add_assoc] at hh
    rw [chainOf_cons]
    refine hF.alloc _ ?_ (.of_kind (by simp [Body.kind]) (by simp [Body.kind]))
    rwa [coe_handles_cell, ← add_assoc]

end Kept

/-- **A fresh chain** has a cell for each element, and nobody else leads to its cells. -/
theorem Heap.chainOf_chain {h : Heap} {held : Multiset Addr} {items : List Addr}
    (hh : h.Exact (held + (items : Multiset Addr))) :
    ∃ cs, (h.chainOf items).2.Chain (h.chainOf items).1 cs ∧
      cs.map (h.chainOf items).2.itemOf = items ∧
      ∀ c ∈ cs, (held + {(h.chainOf items).1} + (h.chainOf items).2.stored).count c ≤ 1 := by
  induction items generalizing held with
  | nil => exact ⟨[], .nil hh.kind_nothing, rfl, by simp⟩
  | cons item items ih =>
    have hitems : h.Exact (held + {item} + (items : Multiset Addr)) := by
      rwa [← Multiset.cons_coe, ← Multiset.singleton_add, ← add_assoc] at hh
    obtain ⟨cs, hcs, hmap, hcount⟩ := ih hitems
    have hexact := kept_exact.chainOf hitems
    have hhead := hexact.live_of_held (a := (h.chainOf items).1) (by simp)
    rw [chainOf_cons]
    set k := (h.chainOf items).2
    have hbody := Heap.body_alloc k (.cell item (h.chainOf items).1) false
    have hne : ∀ c ∈ cs, c ≠ k.blocks.size := fun c hc => (hcs.live_of_mem hc).ne_size
    -- the new cell takes over the handle to the old head, and comes with one handle
    have hsum : held + {k.blocks.size} + (k.alloc (.cell item (h.chainOf items).1)).2.stored
        = held + {item} + {(h.chainOf items).1} + k.stored + {k.blocks.size} := by
      rw [stored_alloc, coe_handles_cell]
      abel
    refine ⟨k.blocks.size :: cs, .cons (n := (h.chainOf items).1) ?_
      ((hexact.agreeOn_alloc _ _).chain hhead.ne_size hcs), ?_, ?_⟩
    · exact Heap.next?_eq_some_iff.mpr ⟨item, (hbody _).trans (if_pos rfl)⟩
    · rw [List.map_cons, itemOf, hbody, if_pos rfl]
      refine congrArg (item :: ·) ((List.map_congr_left fun c hc => ?_).trans hmap)
      rw [itemOf, itemOf, hbody, if_neg (hne c hc)]
    · intro c hc
      rw [show (k.alloc (.cell item (h.chainOf items).1)).1 = k.blocks.size from rfl, hsum,
        Multiset.count_add]
      rcases List.mem_cons.mp hc with rfl | hc
      · rw [hexact.count_size, Multiset.count_singleton_self]
      · rw [Multiset.count_singleton, if_neg (hne c hc)]
        exact hcount c hc

namespace Kept

open Heap

variable {A : Set Act} {F : Multiset Addr → Heap → Prop} {h : Heap} {held : Multiset Addr}

theorem listOf (hF : Kept A F) (items : List Addr) (hh : F (held + (items : Multiset Addr)) h) :
    F (held + {(h.listOf items).1}) (h.listOf items).2 := by
  obtain ⟨cs, hcs, hmap, -⟩ := chainOf_chain (hF.exact hh)
  rw [listOf_eq]
  refine hF.alloc _ (by simpa only [Body.handles, Multiset.coe_singleton] using hF.chainOf hh)
    (.list (fun _ => ?_) fun _ => nothingAt_chainOf h items)
  rw [← congrArg List.length hmap, List.length_map]
  exact hcs.measures

theorem arrayOf (hF : Kept A F) {items : List Addr} (origin : ℤ)
    (hh : F (held + (items : Multiset Addr)) h) :
    F (held + {(h.arrayOf origin items).1}) (h.arrayOf origin items).2 :=
  hF.alloc _ hh (.of_kind (by simp [Body.kind]) (by simp [Body.kind]))

theorem procedure (hF : Kept A F) (hh : F held h) (text : String) :
    F (held + {(h.procedure text).1}) (h.procedure text).2 :=
  hF.leaf hh rfl (by simp [Body.kind]) (by simp [Body.kind])

/-- One new value for each of some descriptions. -/
theorem each (_ : Kept A F) {α : Type} {make : Heap → α → Addr × Heap}
    (hmake : ∀ {held h} x, F held h → F (held + {(make h x).1}) (make h x).2) (hh : F held h)
    (xs : List α) : F (held + ((each make xs h).1 : Multiset Addr)) (each make xs h).2 := by
  -- the values made so far are handed on in reverse
  have hfold : ∀ (xs : List α) (made : List Addr) {h : Heap},
      F (held + (made : Multiset Addr)) h →
        let r := xs.foldl (fun r x => ((make r.2 x).1 :: r.1, (make r.2 x).2)) (made, h)
        F (held + (r.1 : Multiset Addr)) r.2 := by
    intro xs
    induction xs with
    | nil => exact fun _ _ hh => hh
    | cons x xs ih =>
      intro made h hh
      refine ih _ ?_
      rw [← Multiset.cons_coe, ← Multiset.singleton_add, add_left_comm, add_comm {_}]
      exact hmake x hh
  have hmade := hfold xs [] (h := h) (by simpa using hh)
  simp only [Heap.each, Multiset.coe_reverse]
  exact hmade

/-- One text word for each of some texts. -/
theorem texts (hF : Kept A F) (hh : F held h) (raws : List String) :
    F (held + ((Heap.each (fun h raw => h.text raw) raws h).1 : Multiset Addr))
      (Heap.each (fun h raw => h.text raw) raws h).2 :=
  hF.each (fun raw hh => hF.text hh raw false) hh raws

theorem words (hF : Kept A F) (hh : F held h) (raws : List String) :
    F (held + {(h.words raws).1}) (h.words raws).2 := by
  rw [words_eq]
  exact hF.listOf _ (hF.texts hh raws)

theorem numbers (hF : Kept A F) (hh : F held h) (values : List Binary64) :
    F (held + {(h.numbers values).1}) (h.numbers values).2 := by
  rw [numbers_eq]
  exact hF.listOf _ (hF.each (fun value hh => hF.number hh value) hh values)

theorem wordArray (hF : Kept A F) (hh : F held h) (origin : ℤ) (raws : List String) :
    F (held + {(h.wordArray origin raws).1}) (h.wordArray origin raws).2 := by
  rw [wordArray_eq]
  exact hF.arrayOf origin (hF.texts hh raws)

theorem numberArray (hF : Kept A F) (hh : F held h) (origin : ℤ) (values : List Binary64) :
    F (held + {(h.numberArray origin values).1}) (h.numberArray origin values).2 := by
  rw [numberArray_eq]
  exact hF.arrayOf origin (hF.each (fun value hh => hF.number hh value) hh values)

theorem emptyArray (hF : Kept A F) (hh : F held h) (origin : ℤ) (size : ℕ) :
    F (held + {(h.emptyArray origin size).1}) (h.emptyArray origin size).2 := by
  rw [emptyArray_eq]
  exact hF.arrayOf origin (hF.each (fun _ hh => hF.listOf [] (by simpa using hh)) hh _)

theorem nested (hF : Kept A F) (hh : F held h) (raw : String) (depth : ℕ) :
    F (held + {(h.nested raw depth).1}) (h.nested raw depth).2 := by
  induction depth with
  | zero => exact hF.listOf [] (by simpa using hh)
  | succ depth ih =>
    rw [nested_succ]
    refine hF.listOf _ ?_
    rw [← Multiset.cons_coe, ← Multiset.singleton_add, Multiset.coe_singleton, add_comm {_},
      ← add_assoc]
    exact hF.text ih raw false

/-! ### Expressions -/

mutual

/-- **The value of an expression** is made by the simplest moves, if the registers it refers to
are held. -/
theorem eval (hF : Kept A F) {env : String → Option Addr} {h : Heap} {held : Multiset Addr}
    (henv : ∀ name a, env name = some a → a ∈ held) (e : Expr) (hh : F held h) :
    F (held + {(e.eval env h).1}) (e.eval env h).2 := by
  match e with
  | .nothing => exact hF.nothing hh
  | .truth value => exact hF.truth hh value
  | .number value => exact hF.word hh (.number value)
  | .text raw special => exact hF.word hh (.text raw special)
  | .list items => exact hF.listOf _ (hF.evalAll henv items hh)
  | .array origin items => exact hF.arrayOf origin (hF.evalAll henv items hh)
  | .node name children =>
    -- the registers are held while the parts are made, together with what is made so far
    have hname := hF.eval henv name hh
    have hchildren := hF.evalAll (fun n a ha => Multiset.mem_add.mpr (Or.inl (henv n a ha)))
      children hname
    refine hF.alloc (.node _ _) ?_ (.of_kind (by simp [Body.kind]) (by simp [Body.kind]))
    simpa only [Body.handles, ← Multiset.cons_coe, ← Multiset.singleton_add, ← add_assoc]
      using hchildren
  | .error code message tag =>
    have hmessage := hF.eval henv message hh
    have htag := hF.eval (fun n a ha => Multiset.mem_add.mpr (Or.inl (henv n a ha))) tag hmessage
    refine hF.alloc (.error ..) ?_ (.of_kind (by simp [Body.kind]) (by simp [Body.kind]))
    simpa only [Body.handles, ← Multiset.cons_coe, ← Multiset.singleton_add, Multiset.coe_nil,
      add_zero, ← add_assoc] using htag
  | .procedure payload => exact hF.procedure hh payload
  | .cell item next =>
    have hitem := hF.eval henv item hh
    have hnext := hF.eval (fun n a ha => Multiset.mem_add.mpr (Or.inl (henv n a ha))) next hitem
    refine hF.alloc (.cell ..) ?_ (.of_kind (by simp [Body.kind]) (by simp [Body.kind]))
    rwa [coe_handles_cell, ← add_assoc]
  | .register name =>
    rw [Expr.eval]
    split
    · next a ha => exact hF.retain hh (hF.live hh (henv name a ha))
    · exact hF.nothing hh

/-- The values of some expressions. -/
theorem evalAll (hF : Kept A F) {env : String → Option Addr} {h : Heap} {held : Multiset Addr}
    (henv : ∀ name a, env name = some a → a ∈ held) (es : List Expr) (hh : F held h) :
    F (held + ((Expr.evalAll env es h).1 : Multiset Addr)) (Expr.evalAll env es h).2 := by
  match es with
  | [] => simpa [Expr.evalAll] using hh
  | e :: es =>
    have hfirst := hF.eval henv e hh
    have hrest := hF.evalAll (fun n a ha => Multiset.mem_add.mpr (Or.inl (henv n a ha))) es hfirst
    simpa only [Expr.evalAll, ← Multiset.cons_coe, ← Multiset.singleton_add, ← add_assoc]
      using hrest

end

end Kept

end SharedValues
