import SharedValues.Proofs.Heap.Exact

/-!
# Releases keep the counts exact

A release works off a list of tasks.  Between two of them the handles named in the tasks are held
by the release itself, and the blocks still to be counted out are the retiring ones; with these
taken into account the counts are exact all the time, so they are exact at the end.  The blocks
that survive keep their content.

## Main definitions

* `Task.owed`, `owedBy` — the handles that tasks are to give up.
* `Heap.Thins h h'` — `h'` is what is left of `h`, and possibly the block for nothing.

## Main results

* `Balanced.discharge`, `Grounded.discharge` — the invariant of the task list.
* `Heap.discharge_thins` — survivors keep their content.
* `Exact.release`, `Exact.releaseAll` — what a release does to the handles held outside.
-/

namespace SharedValues

/-- The handles that a task is to give up. -/
def Task.owed : Task → Multiset Addr
  | .drop a => {a}
  | .unlink a => {a}
  | .retire => 0

/-- The handles that some tasks are to give up. -/
def owedBy (tasks : List Task) : Multiset Addr := (tasks.map Task.owed).sum

theorem owedBy_drop (held : Multiset Addr) (a : Addr) (tasks : List Task) :
    held + owedBy (.drop a :: tasks) = held + owedBy tasks + {a} := by
  simp only [owedBy, List.map_cons, List.sum_cons, Task.owed]
  abel

theorem owedBy_unlink (held : Multiset Addr) (a : Addr) (tasks : List Task) :
    held + owedBy (.unlink a :: tasks) = held + owedBy tasks + {a} := by
  simp only [owedBy, List.map_cons, List.sum_cons, Task.owed]
  abel

theorem owedBy_retire (held : Multiset Addr) (tasks : List Task) :
    held + owedBy (.retire :: tasks) = held + owedBy tasks := by
  simp only [owedBy, List.map_cons, List.sum_cons, Task.owed, zero_add]

theorem owedBy_drops (held : Multiset Addr) (as : List Addr) (tasks : List Task) :
    held + owedBy (as.map .drop ++ tasks)
      = held + owedBy tasks + (as : Multiset Addr) := by
  induction as with
  | nil => simp
  | cons a as ih =>
    rw [List.map_cons, List.cons_append, owedBy_drop, ih, ← Multiset.cons_coe,
      ← Multiset.singleton_add]
    abel

/-- The number of blocks that some tasks are to count out. -/
def retiring (tasks : List Task) : ℕ := tasks.count .retire

@[simp] theorem retiring_drop (a : Addr) (tasks : List Task) :
    retiring (.drop a :: tasks) = retiring tasks :=
  List.count_cons_of_ne (by simp)

@[simp] theorem retiring_unlink (a : Addr) (tasks : List Task) :
    retiring (.unlink a :: tasks) = retiring tasks :=
  List.count_cons_of_ne (by simp)

@[simp] theorem retiring_retire (tasks : List Task) :
    retiring (.retire :: tasks) = retiring tasks + 1 :=
  List.count_cons_self

@[simp] theorem retiring_drops (as : List Addr) (tasks : List Task) :
    retiring (as.map .drop ++ tasks) = retiring tasks := by
  induction as with
  | nil => rfl
  | cons a as ih => rw [List.map_cons, List.cons_append, retiring_drop, ih]

namespace Heap

variable {h : Heap} {held : Multiset Addr}

/-- The handles of a cell are its element and its next link. -/
theorem handles_of_cell? {body : Body} {item next : Addr} (hc : body.cell? = some (item, next)) :
    (body.handles : Multiset Addr) = {item} + {next} := by
  cases body with
  | cell i n =>
    obtain ⟨rfl, rfl⟩ := Prod.mk.inj (Option.some.inj hc)
    rfl
  | _ => exact absurd hc (by simp [Body.cell?])

/-- Working off tasks keeps the heap grounded: only blocks that are not permanent are taken out. -/
theorem Grounded.discharge {tasks : List Task} (hh : h.Grounded) :
    (h.discharge tasks).Grounded := by
  fun_induction Heap.discharge h tasks with
  | case1 h => exact hh
  | case2 h rest ih => exact ih (hh.congr (fun hk => Or.inl ⟨_, hk, rfl, rfl⟩)
      (fun hk hperm => ⟨_, hk, hperm, rfl⟩) rfl rfl rfl)
  | case3 h a rest hb ih => exact ih hh
  | case4 h a rest b hb hstay ih => exact ih (hh.modify (fun _ => rfl) fun _ => rfl)
  | case5 h a rest b hb hlast item next hc ih =>
    exact ih (hh.remove hb (by simpa using (not_or.mp hlast).1)).ensureNothing
  | case6 h a rest b hb hlast hc ih =>
    exact ih (hh.remove hb (by simpa using (not_or.mp hlast).1))
  | case7 h a rest hb ih => exact ih hh
  | case8 h a rest b hb hshared ih => exact ih hh
  | case9 h a rest b hb hlast item next hc ih =>
    exact ih (hh.remove hb (by simpa using (not_or.mp hlast).1))
  | case10 h a rest b hb hlast hc ih => exact ih hh

/-- **The invariant of a release.**  If the counts are exact with the handles that the tasks are to
give up, and with the blocks that they are to count out, then they are exact without them once the
tasks are worked off. -/
theorem Balanced.discharge {tasks : List Task}
    (hh : h.Balanced (held + owedBy tasks) (retiring tasks)) :
    (h.discharge tasks).Balanced held 0 := by
  fun_induction Heap.discharge h tasks with
  | case1 h => simpa [owedBy, retiring] using hh
  | case2 h rest ih =>
    rw [owedBy_retire, retiring_retire] at hh
    exact ih hh.countOut
  | case3 h a rest hb ih =>
    -- a handle that is held does not lead to a missing block
    rw [owedBy_drop] at hh
    obtain ⟨b, hb'⟩ := hh.live_of_held
      (Multiset.mem_add.mpr (Or.inr (Multiset.mem_singleton_self a)))
    exact absurd (hb.symm.trans hb') (by simp)
  | case4 h a rest b hb hstay ih =>
    rw [owedBy_drop, retiring_drop] at hh
    exact ih (hh.uncount hb hstay)
  | case5 h a rest b hb hlast item next hc ih =>
    rw [owedBy_drop, retiring_drop] at hh
    have hremove := hh.remove hb hlast
    rw [handles_of_cell? hc] at hremove
    refine ih ?_
    rw [owedBy_unlink, owedBy_drop, owedBy_retire, retiring_unlink, retiring_drop,
      retiring_retire, add_assoc (held + _)]
    exact hremove.ensureNothing
  | case6 h a rest b hb hlast hc ih =>
    rw [owedBy_drop, retiring_drop] at hh
    refine ih ?_
    rw [owedBy_drops, owedBy_retire, retiring_drops, retiring_retire]
    exact hh.remove hb hlast
  | case7 h a rest hb ih =>
    rw [owedBy_unlink, ← owedBy_drop, retiring_unlink, ← retiring_drop a] at hh
    exact ih hh
  | case8 h a rest b hb hshared ih =>
    rw [owedBy_unlink, ← owedBy_drop, retiring_unlink, ← retiring_drop a] at hh
    exact ih hh
  | case9 h a rest b hb hlast item next hc ih =>
    rw [owedBy_unlink, retiring_unlink] at hh
    have hremove := hh.remove hb (by rintro (hperm | hcount) <;> simp_all)
    rw [handles_of_cell? hc] at hremove
    refine ih ?_
    rw [owedBy_drop, owedBy_retire, owedBy_unlink, retiring_drop, retiring_retire,
      retiring_unlink, add_assoc (held + _), add_comm ({next} : Multiset Addr)]
    exact hremove
  | case10 h a rest b hb hlast hc ih =>
    rw [owedBy_unlink, ← owedBy_drop, retiring_unlink, ← retiring_drop a] at hh
    exact ih hh

/-! ### What survives -/

/-- `h'` is what is left of `h` when handles are given up: every block of it was there before with
the same content, unless it is the block for nothing, made in the meantime. -/
structure Thins (h h' : Heap) : Prop where
  /-- A survivor may have lost handles, but nothing else. -/
  old : ∀ {a b'}, h'.block? a = some b' →
    (∃ b, h.block? a = some b ∧ b' = { b with count := b'.count })
      ∨ (h.blocks.size ≤ a ∧ b'.body = .nothing)
  /-- No address is given out twice. -/
  size_le : h.blocks.size ≤ h'.blocks.size

namespace Thins

variable {h' h'' : Heap}

theorem refl (h : Heap) : h.Thins h := ⟨fun hb => Or.inl ⟨_, hb, rfl⟩, Nat.le_refl _⟩

theorem trans (hh : h.Thins h') (hh' : h'.Thins h'') : h.Thins h'' where
  old {a b''} hb'' := by
    rcases hh'.old hb'' with ⟨b', hb', hlast⟩ | ⟨hle, hbody⟩
    · rcases hh.old hb' with ⟨b, hb, hfirst⟩ | ⟨hle, hbody⟩
      · exact Or.inl ⟨b, hb, by rw [hlast, hfirst]⟩
      · exact Or.inr ⟨hle, by rw [hlast]; exact hbody⟩
    · exact Or.inr ⟨hh.size_le.trans hle, hbody⟩
  size_le := hh.size_le.trans hh'.size_le

theorem uncount (h : Heap) (a : Addr) : h.Thins (h.uncount a) where
  old {c b'} hb' := by
    rw [block?_uncount] at hb'
    split at hb'
    · obtain ⟨b, hb, rfl⟩ := Option.map_eq_some_iff.mp hb'
      exact Or.inl ⟨b, hb, rfl⟩
    · exact Or.inl ⟨b', hb', rfl⟩
  size_le := by simp [Heap.uncount, Heap.modify]

theorem remove (h : Heap) (a : Addr) : h.Thins (h.remove a) where
  old {c b'} hb' := by
    rw [block?_remove] at hb'
    split at hb'
    · exact absurd hb' (by simp)
    · exact Or.inl ⟨b', hb', rfl⟩
  size_le := by simp [Heap.remove]

theorem countOut (h : Heap) : h.Thins h.countOut :=
  ⟨fun hb => Or.inl ⟨_, hb, rfl⟩, Nat.le_refl _⟩

theorem ensureNothing (h : Heap) : h.Thins h.ensureNothing.2 := by
  unfold Heap.ensureNothing
  split
  · exact refl h
  · refine ⟨fun {c b'} hb' => ?_, by simp [Heap.alloc]⟩
    have hb' := (block?_alloc ..).symm.trans hb'
    split at hb'
    · next hc =>
      obtain rfl := Option.some.inj hb'
      exact Or.inr ⟨Nat.le_of_eq hc.symm, rfl⟩
    · exact Or.inl ⟨b', hb', rfl⟩

end Thins

theorem discharge_thins (h : Heap) (tasks : List Task) : h.Thins (h.discharge tasks) := by
  fun_induction Heap.discharge h tasks with
  | case1 h => exact .refl h
  | case2 h rest ih => exact (Thins.countOut h).trans ih
  | case3 h a rest hb ih => exact ih
  | case4 h a rest b hb hstay ih => exact (Thins.uncount h a).trans ih
  | case5 h a rest b hb hlast item next hc ih =>
    exact (Thins.remove h a).trans ((Thins.ensureNothing _).trans ih)
  | case6 h a rest b hb hlast hc ih => exact (Thins.remove h a).trans ih
  | case7 h a rest hb ih => exact ih
  | case8 h a rest b hb hshared ih => exact ih
  | case9 h a rest b hb hlast item next hc ih => exact (Thins.remove h a).trans ih
  | case10 h a rest b hb hlast hc ih => exact ih

/-! ### One task after the other -/

section Steps

variable {a : Addr} {b : Block} {rest : List Task}

theorem discharge_drop_none (hb : h.block? a = none) :
    h.discharge (.drop a :: rest) = h.discharge rest := by
  rw [Heap.discharge]
  split
  · rfl
  · next hb' => simp [hb] at hb'

theorem discharge_drop (hb : h.block? a = some b) :
    h.discharge (.drop a :: rest) =
      if b.permanent ∨ 1 < b.count then (h.uncount a).discharge rest
      else
        match b.body.cell? with
        | some (item, next) =>
          (h.remove a).ensureNothing.2.discharge (.unlink next :: .drop item :: .retire :: rest)
        | none => (h.remove a).discharge (b.body.handles.map .drop ++ .retire :: rest) := by
  rw [Heap.discharge]
  split
  · next hb' => simp [hb] at hb'
  · next b' hb' =>
    obtain rfl := Option.some.inj (hb.symm.trans hb')
    split
    · rfl
    · split <;> next hc => simp only [hc]

theorem discharge_unlink_none (hb : h.block? a = none) :
    h.discharge (.unlink a :: rest) = h.discharge (.drop a :: rest) := by
  conv_lhs => rw [Heap.discharge]
  split
  · rfl
  · next hb' => simp [hb] at hb'

theorem discharge_unlink (hb : h.block? a = some b) :
    h.discharge (.unlink a :: rest) =
      if b.permanent ∨ b.count ≠ 1 then h.discharge (.drop a :: rest)
      else
        match b.body.cell? with
        | some (item, next) =>
          (h.remove a).discharge (.drop item :: .retire :: .unlink next :: rest)
        | none => h.discharge (.drop a :: rest) := by
  conv_lhs => rw [Heap.discharge]
  split
  · next hb' => simp [hb] at hb'
  · next b' hb' =>
    obtain rfl := Option.some.inj (hb.symm.trans hb')
    split
    · rfl
    · split <;> next hc => simp only [hc]

end Steps

/-- Tasks are worked off one after the other. -/
theorem discharge_append (h : Heap) (ts us : List Task) :
    h.discharge (ts ++ us) = (h.discharge ts).discharge us := by
  -- the cases are the ways in which the first task can be worked off
  fun_induction Heap.discharge h ts with
  | case1 h => rfl
  | case2 h rest ih => rw [List.cons_append, Heap.discharge, ih]
  | case3 h a rest hb ih => rw [List.cons_append, discharge_drop_none hb, ih]
  | case4 h a rest b hb hstay ih =>
    rw [List.cons_append, discharge_drop hb, if_pos hstay, ih]
  | case5 h a rest b hb hlast item next hc ih =>
    rw [List.cons_append, discharge_drop hb, if_neg hlast, hc, ← ih]
    rfl
  | case6 h a rest b hb hlast hc ih =>
    rw [List.cons_append, discharge_drop hb, if_neg hlast, hc, ← ih, List.append_assoc]
    rfl
  | case7 h a rest hb ih =>
    rw [List.cons_append, discharge_unlink_none hb, ← ih]
    rfl
  | case8 h a rest b hb hshared ih =>
    rw [List.cons_append, discharge_unlink hb, if_pos hshared, ← ih]
    rfl
  | case9 h a rest b hb hlast item next hc ih =>
    rw [List.cons_append, discharge_unlink hb, if_neg hlast, hc, ← ih]
    rfl
  | case10 h a rest b hb hlast hc ih =>
    rw [List.cons_append, discharge_unlink hb, if_neg hlast, hc, ← ih]
    rfl

/-! ### Releases -/

theorem body_of_size_le {a : Addr} (ha : h.blocks.size ≤ a) : h.body a = .nothing := by
  simp [body, block?, Array.getElem?_eq_none ha]

/-- Whatever lives in the end lived before, or is the block for nothing. -/
theorem Thins.live_or {h' : Heap} (hh : h.Thins h') {a : Addr} (ha : h'.Live a) :
    h.Live a ∨ h.blocks.size ≤ a := by
  obtain ⟨b', hb'⟩ := ha
  rcases hh.old hb' with ⟨b, hb, -⟩ | ⟨hle, -⟩
  · exact Or.inl ⟨b, hb⟩
  · exact Or.inr hle

/-- Whatever lives in the end has kept its content. -/
theorem Thins.body_eq {h' : Heap} (hh : h.Thins h') {a : Addr} (ha : h'.Live a) :
    h'.body a = h.body a := by
  obtain ⟨b', hb'⟩ := ha
  rcases hh.old hb' with ⟨b, hb, hbb'⟩ | ⟨hle, hnothing⟩
  · rw [body_of_block? hb', body_of_block? hb, hbb']
  · rw [body_of_block? hb', hnothing, body_of_size_le hle]

theorem releaseAll_thins (h : Heap) (as : List Addr) : h.Thins (h.releaseAll as) :=
  discharge_thins h _

@[simp] theorem releaseAll_nil (h : Heap) : h.releaseAll [] = h := by
  rw [releaseAll, List.map_nil, Heap.discharge]

/-- Handles are given up one after the other. -/
theorem releaseAll_cons (h : Heap) (a : Addr) (as : List Addr) :
    h.releaseAll (a :: as) = (h.release a).releaseAll as :=
  discharge_append h [.drop a] (as.map .drop)

theorem Exact.releaseAll (as : List Addr) (hh : h.Exact (held + (as : Multiset Addr))) :
    (h.releaseAll as).Exact held := by
  refine ⟨Balanced.discharge ?_, hh.toGrounded.discharge⟩
  have howed := owedBy_drops held as []
  have hretiring := retiring_drops as []
  rw [List.append_nil] at howed hretiring
  rw [howed, hretiring]
  simpa [owedBy, retiring] using hh.toBalanced

theorem Exact.release {a : Addr} (hh : h.Exact (held + {a})) : (h.release a).Exact held :=
  Exact.releaseAll [a] hh

/-- What is held throughout a release keeps its content. -/
theorem Exact.body_releaseAll (as : List Addr) (hh : h.Exact (held + (as : Multiset Addr)))
    {a : Addr} (ha : a ∈ held) : (h.releaseAll as).body a = h.body a :=
  (releaseAll_thins h as).body_eq ((hh.releaseAll as).live_of_held ha)

end Heap

end SharedValues
