import SharedValues.Proofs.Chain.Elements
import SharedValues.Proofs.Heap.Pending

/-!
# Chains are released like anything else

The plain way to give up the last handle to a block is recursive: the handles in the block are given
up in order, each with all that goes with it, before the next one.  A chain of cells would be
released one cell deeper with every link.  So a dying cell takes the chain apart first: as long as
the link ahead is the only handle to another cell, nothing is put in the place of the link of that
cell, which then dies alone, and the loop goes on with the link that was taken out.

The two orders differ, and an element that dies on the way may hold cells further down the same
chain.  The same blocks are freed nevertheless, and the same heap is left.

## Main definitions

* `Heap.PlainRelease` — the recursive release of some handles.
* `Heap.ChainRelease` — the release with the loop that takes chains apart, with every handle to
  nothing that it puts in the place of a link.
* `Heap.workload` — what is left to be done, blocks and tasks together.
* `Heap.Ready` — tasks of the loop that can be worked off.

## Main results

* `Balanced.exists_plainRelease`, `Ready.exists_chainRelease` — both ways come to an end, and no
  handle leads to a missing block on the way.
* `PlainRelease.gives`, `ChainRelease.joins` — each gives up handles in an order of its own.
* `Exact.release_as_recursive` — the two ways free the same blocks and leave the same heap.
-/

namespace SharedValues

namespace Heap

/-- **The recursive release of some handles**, with the blocks that are freed and the heap that is
left.  No handle may lead to a missing block. -/
inductive PlainRelease : Heap → List Addr → List Addr → Heap → Prop
  /-- No handle is left. -/
  | done {h : Heap} : PlainRelease h [] [] h
  /-- The block stays. -/
  | keep {h g : Heap} {a : Addr} {b : Block} {as freed : List Addr} :
    h.block? a = some b → b.permanent = true ∨ 1 < b.count →
    PlainRelease (h.uncount a) as freed g → PlainRelease h (a :: as) freed g
  /-- The block goes, with what its handles lead to, before the next handle is given up. -/
  | free {h i g : Heap} {a : Addr} {b : Block} {as inner freed : List Addr} :
    h.block? a = some b → ¬(b.permanent = true ∨ 1 < b.count) →
    PlainRelease (h.remove a) b.body.handles inner i → PlainRelease i.countOut as freed g →
    PlainRelease h (a :: as) (a :: inner ++ freed) g

/-- **The release that takes chains apart**, with the blocks that are freed and the heap that is
left.  A handle to nothing stands where a link was taken out, until the cell is gone.  No handle may
lead to a missing block. -/
inductive ChainRelease : Heap → List Task → List Addr → Heap → Prop
  /-- No task is left. -/
  | done {h : Heap} : ChainRelease h [] [] h
  /-- A block that has gone is counted out. -/
  | retire {h g : Heap} {ts : List Task} {freed : List Addr} :
    ChainRelease h.countOut ts freed g → ChainRelease h (.retire :: ts) freed g
  /-- A handle is given up, and the block stays. -/
  | keep {h g : Heap} {a : Addr} {b : Block} {ts : List Task} {freed : List Addr} :
    h.block? a = some b → b.permanent = true ∨ 1 < b.count →
    ChainRelease (h.uncount a) ts freed g → ChainRelease h (.drop a :: ts) freed g
  /-- A block that is no cell goes, and its handles are given up. -/
  | free {h g : Heap} {a : Addr} {b : Block} {ts : List Task} {freed : List Addr} :
    h.block? a = some b → ¬(b.permanent = true ∨ 1 < b.count) → b.body.cell? = none →
    ChainRelease (h.remove a) (b.body.handles.map .drop ++ .retire :: ts) freed g →
    ChainRelease h (.drop a :: ts) (a :: freed) g
  /-- A cell goes.  Its link is taken out, and the rest of the chain is taken apart; then the
  element is given up, and the handle to nothing that stands for the link. -/
  | cell {h g : Heap} {a n item next : Addr} {b : Block} {ts : List Task} {freed : List Addr} :
    h.block? a = some b → ¬(b.permanent = true ∨ 1 < b.count) → b.body = .cell item next →
    h.nothingAt = some n →
    ChainRelease ((h.remove a).retain n) (.unlink next :: .drop item :: .drop n :: .retire :: ts)
      freed g →
    ChainRelease h (.drop a :: ts) (a :: freed) g
  /-- The chain goes on with a cell that has no other handle.  Its link is taken out, the cell is
  given up, and the loop goes on with the link. -/
  | cut {h g : Heap} {a n item next : Addr} {b : Block} {ts : List Task} {freed : List Addr} :
    h.block? a = some b → b.count = 1 → b.body = .cell item next → h.nothingAt = some n →
    ChainRelease ((h.retain n).setBody a (.cell item n)) (.drop a :: .unlink next :: ts) freed g →
    ChainRelease h (.unlink a :: ts) freed g
  /-- The chain ends, or goes on with a cell that has another handle.  The link is given up. -/
  | stop {h g : Heap} {a : Addr} {b : Block} {ts : List Task} {freed : List Addr} :
    h.block? a = some b → ¬(b.count = 1 ∧ b.body.kind = .cell) →
    ChainRelease h (.drop a :: ts) freed g → ChainRelease h (.unlink a :: ts) freed g

variable {h g : Heap} {held : Multiset Addr} {dying : ℕ} {a n item next : Addr} {b : Block}
  {as freed : List Addr} {ts : List Task}

/-! ### Both ways come to an end -/

/-- The weight of a heap is a sum over its blocks. -/
theorem weight_eq_total (h : Heap) : h.weight = h.total Block.weight := by
  simp [weight, total, List.sum, List.foldr_map]

theorem weight_retain (h : Heap) (a : Addr) : (h.retain a).weight = h.weight := by
  rw [weight_eq_total, weight_eq_total]
  exact total_modify_of_eq _ h a _ fun _ => rfl

theorem add_coe_cons (held : Multiset Addr) (a : Addr) (as : List Addr) :
    held + ((a :: as : List Addr) : Multiset Addr) = held + (as : Multiset Addr) + {a} := by
  rw [← Multiset.cons_coe, ← Multiset.singleton_add]
  abel

theorem coe_cons_add (gone : Multiset Addr) (a : Addr) (freed : List Addr) :
    gone + ((a :: freed : List Addr) : Multiset Addr) = a ::ₘ gone + (freed : Multiset Addr) := by
  rw [← Multiset.cons_coe, Multiset.add_cons, Multiset.cons_add]

/-- The handles that were released are not held any more. -/
theorem PlainRelease.balanced (hr : h.PlainRelease as freed g)
    (hh : h.Balanced (held + (as : Multiset Addr)) dying) : g.Balanced held dying := by
  induction hr generalizing held dying with
  | done => simpa using hh
  | keep hb hstay _ ih =>
    rw [add_coe_cons] at hh
    exact ih (hh.uncount hb hstay)
  | free hb hlast _ _ ihi ih =>
    rw [add_coe_cons] at hh
    exact ih (ihi (hh.remove hb hlast)).countOut

/-- **The recursive release comes to an end.** -/
theorem Balanced.exists_plainRelease (hh : h.Balanced (held + (as : Multiset Addr)) dying) :
    ∃ freed g, h.PlainRelease as freed g ∧ g.weight ≤ h.weight := by
  induction hN : h.weight + as.length using Nat.strong_induction_on
    generalizing h as held dying with
  | _ N ih =>
    cases as with
    | nil => exact ⟨[], h, .done, Nat.le_refl _⟩
    | cons a as =>
      rw [List.length_cons] at hN
      rw [add_coe_cons] at hh
      obtain ⟨b, hb⟩ := hh.live_of_held (a := a) (by simp)
      by_cases hstay : b.permanent = true ∨ 1 < b.count
      · have hweight := weight_uncount hb
        obtain ⟨freed, g, hg, hle⟩ := ih _ (by omega) (hh.uncount hb hstay) rfl
        exact ⟨freed, g, .keep hb hstay hg, by omega⟩
      · -- a block weighs more than its handles
        have hweight := weight_remove hb
        have hblock : b.weight = 2 * b.body.handles.length + 4 := rfl
        have hremove := hh.remove hb hstay
        obtain ⟨inner, i, hi, hile⟩ := ih _ (by omega) hremove rfl
        have hcount : i.countOut.weight = i.weight := rfl
        obtain ⟨freed, g, hg, hgle⟩ := ih _ (by omega) (hi.balanced hremove).countOut rfl
        exact ⟨_, g, .free hb hstay hi hg, by omega⟩

/-- A cell weighs the same with another link. -/
theorem weight_setBody (hb : h.block? a = some b) (hcell : b.body = .cell item next) (m : Addr) :
    (h.setBody a (.cell item m)).weight = h.weight := by
  have hsum := total_modify Block.weight (fun b => { b with body := .cell item m }) hb
  rw [weight_eq_total, weight_eq_total]
  simp only [Block.weight, hcell, Body.handles, List.length_cons, List.length_nil] at hsum
  exact Nat.add_right_cancel hsum

/-- What is left to be done: a block weighs more than the tasks that it leaves behind. -/
def workload (h : Heap) (ts : List Task) : ℕ := h.weight + Task.load ts

theorem workload_retire (h : Heap) (ts : List Task) :
    h.countOut.workload ts < h.workload (.retire :: ts) := by
  have hweight : h.countOut.weight = h.weight := rfl
  simp only [workload, Task.load, Task.weight]
  omega

theorem workload_keep (hb : h.block? a = some b) (ts : List Task) :
    (h.uncount a).workload ts < h.workload (.drop a :: ts) := by
  have hweight := weight_uncount hb
  simp only [workload, Task.load, Task.weight]
  omega

theorem workload_free (hb : h.block? a = some b) (ts : List Task) :
    (h.remove a).workload (b.body.handles.map .drop ++ .retire :: ts) <
      h.workload (.drop a :: ts) := by
  have hremove := weight_remove hb
  have hblock : b.weight = 2 * b.body.handles.length + 4 := rfl
  simp only [workload, Task.load, Task.load_append, Task.load_map_drop, Task.weight]
  omega

/-- The weight of a cell makes up for all of its tasks, whatever task it is given up for. -/
theorem workload_cell (hb : h.block? a = some b) (hcell : b.body = .cell item next) (m n : Addr)
    (ts : List Task) :
    ((h.remove a).retain n).workload (.unlink m :: .drop item :: .drop n :: .retire :: ts) <
      h.workload ts := by
  have hremove := weight_remove hb
  have hblock : b.weight = 8 := by
    rw [Block.weight, hcell]
    rfl
  simp only [workload, Task.load, Task.weight, weight_retain]
  omega

theorem workload_stop (h : Heap) (a : Addr) (ts : List Task) :
    h.workload (.drop a :: ts) < h.workload (.unlink a :: ts) := by
  simp only [workload, Task.load, Task.weight]
  omega

theorem workload_le_cons (h : Heap) (t : Task) (ts : List Task) :
    h.workload ts ≤ h.workload (t :: ts) := by
  simp only [workload, Task.load]
  omega

/-! ### The tasks of the loop -/

/-- **Tasks can be worked off**: the counts are exact with what they owe, and nothing has its
block. -/
structure Ready (h : Heap) (held : Multiset Addr) (n : Addr) (ts : List Task) : Prop where
  /-- The counts are exact. -/
  balanced : h.Balanced (held + owedBy ts) (retiring ts)
  /-- The permanent blocks are in their places. -/
  grounded : h.Grounded
  /-- Nothing is at a place that is known. -/
  nothing_at : h.nothingAt = some n

namespace Ready

theorem block_nothing (hr : h.Ready held n ts) :
    ∃ k, h.block? n = some k ∧ k.permanent = true ∧ k.body = .nothing :=
  hr.grounded.nothing_at hr.nothing_at

/-- A cell is not where nothing is. -/
theorem ne_nothing (hr : h.Ready held n ts) (hb : h.block? a = some b)
    (hcell : b.body = .cell item next) : a ≠ n := by
  rintro rfl
  obtain ⟨k, hk, -, hbody⟩ := hr.block_nothing
  rw [hb, Option.some_inj] at hk
  rw [← hk, hcell] at hbody
  exact absurd hbody (by simp)

/-- A handle to nothing is no handle to a cell. -/
theorem block?_retain_cell (hr : h.Ready held n ts) (hb : h.block? a = some b)
    (hcell : b.body = .cell item next) : (h.retain n).block? a = some b := by
  rw [block?_retain, if_neg (hr.ne_nothing hb hcell).symm, hb]

theorem live_drop (hr : h.Ready held n (.drop a :: ts)) : ∃ b, h.block? a = some b := by
  have hh := hr.balanced
  rw [owedBy_drop] at hh
  exact hh.live_of_held (by simp)

theorem retire (hr : h.Ready held n (.retire :: ts)) : h.countOut.Ready held n ts where
  balanced := by
    have hh := hr.balanced
    rw [owedBy_retire, retiring_retire] at hh
    exact hh.countOut
  grounded := hr.grounded.congr (fun hk => Or.inl ⟨_, hk, rfl, rfl⟩)
    (fun hk hperm => ⟨_, hk, hperm, rfl⟩) rfl rfl rfl
  nothing_at := hr.nothing_at

theorem keep (hr : h.Ready held n (.drop a :: ts)) (hb : h.block? a = some b)
    (hstay : b.permanent = true ∨ 1 < b.count) : (h.uncount a).Ready held n ts where
  balanced := by
    have hh := hr.balanced
    rw [owedBy_drop, retiring_drop] at hh
    exact hh.uncount hb hstay
  grounded := hr.grounded.modify (fun _ => rfl) fun _ => rfl
  nothing_at := hr.nothing_at

theorem free (hr : h.Ready held n (.drop a :: ts)) (hb : h.block? a = some b)
    (hlast : ¬(b.permanent = true ∨ 1 < b.count)) :
    (h.remove a).Ready held n (b.body.handles.map .drop ++ .retire :: ts) where
  balanced := by
    have hh := hr.balanced
    rw [owedBy_drop, retiring_drop] at hh
    rw [owedBy_drops, owedBy_retire, retiring_drops, retiring_retire]
    exact hh.remove hb hlast
  grounded := hr.grounded.remove hb (by simpa using (not_or.mp hlast).1)
  nothing_at := hr.nothing_at

theorem cell (hr : h.Ready held n (.drop a :: ts)) (hb : h.block? a = some b)
    (hlast : ¬(b.permanent = true ∨ 1 < b.count)) (hcell : b.body = .cell item next) :
    ((h.remove a).retain n).Ready held n
      (.unlink next :: .drop item :: .drop n :: .retire :: ts) where
  balanced := by
    have hh := hr.balanced
    obtain ⟨k, hk, -⟩ := hr.block_nothing
    -- the cell that goes is not the place where nothing is
    have hlive : (h.remove a).Live n :=
      ⟨k, by rw [block?_remove, if_neg (hr.ne_nothing hb hcell), hk]⟩
    rw [owedBy_drop, retiring_drop] at hh
    have hremove := (hh.remove hb hlast).retain hlive
    rw [hcell, coe_handles_cell] at hremove
    rw [owedBy_unlink, owedBy_drop, owedBy_drop, owedBy_retire, retiring_unlink, retiring_drop,
      retiring_drop, retiring_retire]
    convert hremove using 1
    abel
  grounded := (hr.grounded.remove hb (by simpa using (not_or.mp hlast).1)).modify (fun _ => rfl)
    fun _ => rfl
  nothing_at := hr.nothing_at

theorem cut (hr : h.Ready held n (.unlink a :: ts)) (hb : h.block? a = some b)
    (hcell : b.body = .cell item next) :
    ((h.retain n).setBody a (.cell item n)).Ready held n (.drop a :: .unlink next :: ts) where
  balanced := by
    have hh := hr.balanced
    obtain ⟨k, hk, -⟩ := hr.block_nothing
    rw [owedBy_unlink, retiring_unlink] at hh
    rw [owedBy_drop, owedBy_unlink, retiring_drop, retiring_unlink]
    refine (hh.retain ⟨k, hk⟩).setBody (hr.block?_retain_cell hb hcell) ?_
    rw [hcell, coe_handles_cell, coe_handles_cell]
    abel
  grounded := by
    have hperm := hr.grounded.not_permanent hb (by simp [hcell]) (by simp [hcell])
    have hretain : (h.retain n).Grounded := hr.grounded.modify (fun _ => rfl) fun _ => rfl
    exact hretain.setBody (hr.block?_retain_cell hb hcell) hperm (by simp)
  nothing_at := hr.nothing_at

/-- The cell whose link was taken out goes with the next handle. -/
theorem block?_cut (hr : h.Ready held n ts) (hb : h.block? a = some b) (hcount : b.count = 1)
    (hcell : b.body = .cell item next) :
    ((h.retain n).setBody a (.cell item n)).block? a = some { b with body := .cell item n } ∧
      ¬(b.permanent = true ∨ 1 < b.count) := by
  have hperm := hr.grounded.not_permanent hb (by simp [hcell]) (by simp [hcell])
  refine ⟨?_, by simp [hperm, hcount]⟩
  rw [block?_setBody, if_pos rfl, hr.block?_retain_cell hb hcell, Option.map_some]

theorem stop (hr : h.Ready held n (.unlink a :: ts)) : h.Ready held n (.drop a :: ts) where
  balanced := by
    have hh := hr.balanced
    rwa [owedBy_unlink, ← owedBy_drop, retiring_unlink, ← retiring_drop a] at hh
  grounded := hr.grounded
  nothing_at := hr.nothing_at

/-- A cell whose link was taken out weighs what it weighed. -/
theorem workload_cut (hr : h.Ready held n ts) (hb : h.block? a = some b)
    (hcell : b.body = .cell item next) (us : List Task) :
    ((h.retain n).setBody a (.cell item n)).workload us = h.workload us := by
  rw [workload, workload, weight_setBody (hr.block?_retain_cell hb hcell) hcell, h.weight_retain]

/-- **The release that takes chains apart comes to an end.** -/
theorem exists_chainRelease (hr : h.Ready held n ts) : ∃ freed g, h.ChainRelease ts freed g := by
  induction hN : h.workload ts using Nat.strong_induction_on generalizing h ts with
  | _ N ih =>
    subst hN
    match ts with
    | [] => exact ⟨[], h, .done⟩
    | .retire :: ts =>
      obtain ⟨freed, g, hg⟩ := ih _ (workload_retire h ts) hr.retire rfl
      exact ⟨freed, g, .retire hg⟩
    | .drop a :: ts =>
      obtain ⟨b, hb⟩ := hr.live_drop
      by_cases hstay : b.permanent = true ∨ 1 < b.count
      · obtain ⟨freed, g, hg⟩ := ih _ (workload_keep hb ts) (hr.keep hb hstay) rfl
        exact ⟨freed, g, .keep hb hstay hg⟩
      · cases hc : b.body.cell? with
        | none =>
          obtain ⟨freed, g, hg⟩ := ih _ (workload_free hb ts) (hr.free hb hstay) rfl
          exact ⟨a :: freed, g, .free hb hstay hc hg⟩
        | some p =>
          have hcell : b.body = .cell p.1 p.2 := cell?_eq_some_iff.mp hc
          have hless := (workload_cell hb hcell p.2 n ts).trans_le (workload_le_cons h (.drop a) ts)
          obtain ⟨freed, g, hg⟩ := ih _ hless (hr.cell hb hstay hcell) rfl
          exact ⟨a :: freed, g, .cell hb hstay hcell hr.nothing_at hg⟩
    | .unlink a :: ts =>
      obtain ⟨b, hb⟩ := hr.stop.live_drop
      by_cases hcut : b.count = 1 ∧ b.body.kind = .cell
      · -- the cell is given up at once, now that its link has been taken out
        obtain ⟨hcount, hkind⟩ := hcut
        obtain ⟨item, next, hcell⟩ : ∃ item next, b.body = .cell item next := by
          revert hkind
          cases b.body <;> simp [Body.kind]
        obtain ⟨hcutoff, hlast⟩ := hr.block?_cut hb hcount hcell
        have hless := workload_cell hcutoff rfl n n (.unlink next :: ts)
        rw [hr.workload_cut hb hcell] at hless
        obtain ⟨freed, g, hg⟩ := ih _ hless ((hr.cut hb hcell).cell hcutoff hlast rfl) rfl
        exact ⟨a :: freed, g,
          .cut hb hcount hcell hr.nothing_at (.cell hcutoff hlast rfl hr.nothing_at hg)⟩
      · obtain ⟨freed, g, hg⟩ := ih _ (workload_stop h a ts) hr.stop rfl
        exact ⟨freed, g, .stop hb hcut hg⟩

end Ready

/-! ### Both ways give up handles in some order -/

/-- The recursive release gives up one handle after the other. -/
theorem PlainRelease.gives (hr : h.PlainRelease as freed g) (k : ℕ) (owed gone : Multiset Addr) :
    Relation.ReflTransGen Pending.Gives
      ⟨h.countOutAll k, owed + (as : Multiset Addr), gone⟩
      ⟨g.countOutAll k, owed, gone + (freed : Multiset Addr)⟩ := by
  induction hr generalizing k owed gone with
  | done => simpa using .refl
  | keep hb hstay _ ih =>
    rw [add_coe_cons]
    exact .head (Pending.gives_keep hb hstay k _ gone) (ih k owed gone)
  | @free h i g a b as inner freed hb hlast _ _ ihi ih =>
    -- the handles of the block come before the others
    have hinner := ihi (k + 1) (owed + (as : Multiset Addr)) (a ::ₘ gone)
    have hrest := ih k owed (a ::ₘ gone + (inner : Multiset Addr))
    have hfreed : gone + ((a :: inner ++ freed : List Addr) : Multiset Addr) =
        a ::ₘ gone + (inner : Multiset Addr) + (freed : Multiset Addr) := by
      rw [List.cons_append, ← Multiset.cons_coe, ← Multiset.coe_add, Multiset.add_cons,
        Multiset.cons_add, Multiset.cons_add, add_assoc]
    rw [add_coe_cons, hfreed]
    rw [countOutAll_succ i] at hinner
    exact .head (Pending.gives_free hb hlast k _ gone) (hinner.trans hrest)

/-- A cell goes while a handle to nothing stands in the place of its link. -/
theorem Ready.joins_cell {us : List Task} {others gone : Multiset Addr}
    (hr : h.Ready held n (.drop a :: ts)) (hb : h.block? a = some b)
    (hlast : ¬(b.permanent = true ∨ 1 < b.count))
    (hcell : b.body = .cell item next)
    (howed : others + owedBy us = others + owedBy ts + ({item} + {next}) + {n})
    (hretiring : retiring us = retiring ts + 1) :
    (Pending.ofTasks h others (.drop a :: ts) gone).Joins
      (Pending.ofTasks ((h.remove a).retain n) others us (a ::ₘ gone)) := by
  obtain ⟨k, hk, hperm, -⟩ := hr.block_nothing
  have hk' : (h.remove a).block? n = some k := by
    rw [block?_remove, if_neg (hr.ne_nothing hb hcell), hk]
  -- without the handle to nothing, the handles of the cell are pending
  have hpending : others + owedBy (.drop item :: .drop next :: .retire :: ts) =
      others + owedBy ts + ({item} + {next}) := by
    rw [owedBy_drop, owedBy_drop, owedBy_retire]
    abel
  have hgone : (Pending.ofTasks h others (.drop a :: ts) gone).Gives
      (Pending.ofTasks (h.remove a) others (.drop item :: .drop next :: .retire :: ts)
        (a ::ₘ gone)) := by
    refine Pending.ofTasks_free hb hlast ?_ (by simp)
    rw [hpending, hcell, coe_handles_cell]
  have hback : (Pending.ofTasks ((h.remove a).retain n) others us (a ::ₘ gone)).Gives
      (Pending.ofTasks (h.remove a) others (.drop item :: .drop next :: .retire :: ts)
        (a ::ₘ gone)) := by
    refine Pending.ofTasks_back hk' hperm ?_ (by simp [hretiring])
    rw [hpending, howed]
  exact (Pending.joins_of_gives hgone).trans (Pending.joins_of_gives hback).symm

/-- The loop gives up handles too, apart from those to nothing, which it has taken itself. -/
theorem ChainRelease.joins (hc : h.ChainRelease ts freed g) (hr : h.Ready held n ts)
    (others gone : Multiset Addr) :
    (Pending.ofTasks h others ts gone).Joins ⟨g, others, gone + (freed : Multiset Addr)⟩ := by
  induction hc generalizing gone with
  | done => simpa [Pending.ofTasks, owedBy, retiring] using Pending.joins_equivalence.refl _
  | retire _ ih =>
    rw [Pending.ofTasks_retire]
    exact ih hr.retire gone
  | keep hb hstay _ ih =>
    exact (Pending.joins_of_gives (Pending.ofTasks_keep hb hstay)).trans
      (ih (hr.keep hb hstay) gone)
  | @free h g a b ts freed hb hlast hnone _ ih =>
    rw [coe_cons_add]
    refine (Pending.joins_of_gives (Pending.ofTasks_free hb hlast ?_ ?_)).trans
      (ih (hr.free hb hlast) (a ::ₘ gone))
    · rw [owedBy_drops, owedBy_retire]
    · simp
  | @cell h g a m item next b ts freed hb hlast hcell hn _ ih =>
    obtain rfl : m = n := Option.some.inj (hn.symm.trans hr.nothing_at)
    rw [coe_cons_add]
    refine (hr.joins_cell hb hlast hcell ?_ ?_).trans (ih (hr.cell hb hlast hcell) (a ::ₘ gone))
    · simp only [owedBy_unlink, owedBy_drop, owedBy_retire]
      abel
    · simp
  | @cut h g a m item next b ts freed hb hcount hcell hn _ ih =>
    obtain rfl : m = n := Option.some.inj (hn.symm.trans hr.nothing_at)
    obtain ⟨hcutoff, hlast⟩ := hr.block?_cut hb hcount hcell
    -- the cell goes, in the heap as it was and in the heap where its link was taken out
    have hgone : (Pending.ofTasks h others (.drop a :: ts) gone).Joins
        (Pending.ofTasks ((h.remove a).retain m) others
          (.drop item :: .drop m :: .retire :: .unlink next :: ts) (a ::ₘ gone)) := by
      refine hr.stop.joins_cell hb hlast hcell ?_ (by simp)
      simp only [owedBy_unlink, owedBy_drop, owedBy_retire]
      abel
    have hcutgone : (Pending.ofTasks ((h.retain m).setBody a (.cell item m)) others
        (.drop a :: .unlink next :: ts) gone).Gives
        (Pending.ofTasks ((h.remove a).retain m) others
          (.drop item :: .drop m :: .retire :: .unlink next :: ts) (a ::ₘ gone)) := by
      rw [← remove_retain (hr.ne_nothing hb hcell), ← remove_setBody _ a (.cell item m)]
      refine Pending.ofTasks_free hcutoff hlast ?_ (by simp)
      rw [owedBy_drop, owedBy_drop, owedBy_retire, coe_handles_cell]
      abel
    rw [Pending.ofTasks_unlink]
    exact hgone.trans ((Pending.joins_of_gives hcutgone).symm.trans (ih (hr.cut hb hcell) gone))
  | stop hb hno _ ih =>
    rw [Pending.ofTasks_unlink]
    exact ih hr.stop gone

/-- **A chain is released like anything else.**  Where the counts are exact and nothing has its
block, a handle is given up, in the recursive way or with the loop that takes chains apart.  Both
ways come to an end, without a handle that leads to a missing block.  They free the same blocks,
none of them twice, and leave the same heap, so that the counts of all other blocks are the same as
well; the blocks that were freed are those that are missing. -/
theorem Exact.release_as_recursive (hh : h.Exact (held + {a})) (hn : h.nothingAt = some n) :
    (∃ freed g, h.ChainRelease [.drop a] freed g) ∧ (∃ freed g, h.PlainRelease [a] freed g) ∧
    ∀ freed freed' g g', h.ChainRelease [.drop a] freed g → h.PlainRelease [a] freed' g' →
      g = g' ∧ g = h.release a ∧ freed.Perm freed' ∧ freed.Nodup ∧
        ∀ x, x ∈ freed ↔ h.Live x ∧ ¬g.Live x := by
  have hready : h.Ready held n [.drop a] := by
    refine ⟨?_, hh.toGrounded, hn⟩
    simpa [owedBy, retiring, Task.owed] using hh.toBalanced
  have hplain : h.Balanced (held + (([a] : List Addr) : Multiset Addr)) 0 := hh.toBalanced
  obtain ⟨freed, g, hg, -⟩ := hplain.exists_plainRelease
  refine ⟨hready.exists_chainRelease, ⟨freed, g, hg⟩, ?_⟩
  intro freed freed' g g' hg hg'
  -- both releases, and the working off of the tasks, start with the one handle
  have hstart : Pending.ofTasks h 0 [.drop a] 0 =
      ⟨h, 0 + (([a] : List Addr) : Multiset Addr), 0⟩ := by
    simp [Pending.ofTasks, owedBy, retiring, Task.owed]
  have hplain := hg'.gives 0 0 0
  have hchain := hg.joins hready 0 0
  obtain ⟨gone, hdischarge⟩ := Pending.joins_discharge hn [.drop a] 0 0
  rw [hstart] at hchain hdischarge
  have hsame := (hchain.symm.trans hdischarge).eq rfl rfl
  have hsame' := (hchain.symm.trans ⟨_, hplain, .refl⟩).eq rfl rfl
  simp only [Pending.mk.injEq, zero_add, Multiset.coe_eq_coe] at hsame hsame'
  obtain ⟨hrelease, -⟩ := hsame
  obtain ⟨rfl, -, hperm⟩ := hsame'
  have haccounts := (Pending.accounts_start h _).gives hplain
  refine ⟨rfl, hrelease, hperm, ?_, ?_⟩
  · have hnodup := haccounts.nodup
    rw [zero_add, Multiset.coe_nodup] at hnodup
    exact hperm.nodup_iff.mpr hnodup
  · intro x
    have hmem := haccounts.mem_iff x
    rw [zero_add, Multiset.mem_coe, ← hperm.mem_iff] at hmem
    exact hmem

end Heap

/-- Two lists on the same cells.  The first element of one is the other, which begins in the middle
of its chain: the loop comes to the shared cell first and stops there. -/
theorem Session.shared_tail_released :
    let s := (run [.build (.words ["a", "b"]) ⟨some "x", true⟩,
      .derive "x" (.piece .butFirst .checked) ⟨some "y", true⟩,
      .combine "x" .cons (.register "y") ⟨some "z", true⟩, .drop "x", .drop "y"] {}).2
    let h := s.store.heap
    h.Exact (0 + {8}) ∧ h.nothingAt = some 2 ∧
      h.body 8 = .list { head := 7, size := 3 } ∧ h.body 7 = .cell 6 4 ∧ h.body 4 = .cell 0 3 ∧
      h.body 6 = .list { head := 3, size := 1 } ∧
      ∃ freed freed', h.ChainRelease [.drop 8] freed (h.release 8) ∧
        h.PlainRelease [8] freed' (h.release 8) ∧ freed.Perm freed' ∧
        freed.Perm [0, 1, 3, 4, 6, 7, 8] := by
  intro s h
  have hfacts : s.held = {8} ∧ h.nothingAt = some 2 ∧
      h.body 8 = .list { head := 7, size := 3 } ∧ h.body 7 = .cell 6 4 ∧ h.body 4 = .cell 0 3 ∧
      h.body 6 = .list { head := 3, size := 1 } ∧ h.blocks.size = 9 ∧
      ∀ x < 9, ((h.block? x).isSome && ((h.release 8).block? x).isNone) =
        decide (x ∈ [0, 1, 3, 4, 6, 7, 8]) := by
    decide +kernel
  obtain ⟨hheld, hnothing, hz, hcell, hnext, hy, hsize, hgone⟩ := hfacts
  have hexact : h.Exact (0 + {8}) := by
    have hrun : h.Exact s.held := exact_run _
    rwa [hheld, ← zero_add {8}] at hrun
  clear_value h
  obtain ⟨⟨freed, g, hchain⟩, ⟨freed', g', hplain⟩, hsame⟩ := hexact.release_as_recursive hnothing
  obtain ⟨rfl, rfl, hperm, hnodup, hfreed⟩ := hsame freed freed' g g' hchain hplain
  refine ⟨hexact, hnothing, hz, hcell, hnext, hy, freed, freed', hchain, hplain, hperm, ?_⟩
  -- which blocks are freed is seen from those that are missing in the end
  refine (List.perm_ext_iff_of_nodup hnodup (by decide)).mpr fun x => ?_
  rw [hfreed]
  by_cases hx : x < 9
  · have hx := hgone x hx
    rw [← decide_eq_true_iff (p := x ∈ _), ← hx, Bool.and_eq_true, Option.isSome_iff_exists,
      Option.isNone_iff_eq_none, Option.eq_none_iff_forall_ne_some]
    simp only [Heap.Live, not_exists, ne_eq]
  · have hless : ∀ y ∈ [0, 1, 3, 4, 6, 7, 8], y < 9 := by decide
    exact iff_of_false (fun hlive => hx (hsize ▸ hlive.1.lt_size)) fun hmem => hx (hless x hmem)

end SharedValues
