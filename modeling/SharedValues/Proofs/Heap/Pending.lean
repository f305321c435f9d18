import Mathlib.Logic.Relation
import SharedValues.Proofs.Heap.Lent

/-!
# Handles are given up in any order

While handles are given up, more and more of them may be pending: those that the blocks leave behind
that go.  What happens to one of them depends on the block that it leads to and on nothing else, so
any two pending handles can be given up one after the other or the other way round.  Hence however
they are given up, the same blocks are freed and the same heap is left.

## Main definitions

* `Heap.isLast` — the next handle to a block that is given up is the last one.
* `Pending` — a heap with the handles to be given up and the blocks freed so far.
* `Pending.Gives` — any one of the handles is given up.
* `Pending.Joins` — two states that come to the same in the end.
* `Pending.ofTasks` — the state in which some tasks are pending.

## Main results

* `Gives.diamond` — two handles are given up in either order.
* `Joins.eq` — two ways to the end lead to one end.
* `joins_discharge` — working off tasks is one of the ways.
* `Accounts.gives` — no block is freed twice, and what is gone was freed.
-/

namespace SharedValues

namespace Heap

variable {h : Heap} {a c : Addr} {b : Block}

/-- The next handle to an address that is given up is the last one, so the block goes with it. -/
def isLast (h : Heap) (a : Addr) : Bool := (h.block? a).any fun b => !b.permanent && b.count ≤ 1

theorem isLast_eq_true (hb : h.block? a = some b) (hlast : ¬(b.permanent = true ∨ 1 < b.count)) :
    h.isLast a = true := by
  simpa [isLast, hb] using hlast

theorem isLast_eq_false (hb : h.block? a = some b) (hstay : b.permanent = true ∨ 1 < b.count) :
    h.isLast a = false := by
  simp only [isLast, hb, Option.any_some]
  rcases hstay with hperm | hcount
  · simp [hperm]
  · simp [hcount]

/-- There is a block where the last handle leads to. -/
theorem exists_block?_of_isLast (ha : h.isLast a = true) : ∃ b, h.block? a = some b := by
  revert ha
  unfold isLast
  cases h.block? a <;> simp

/-- Changes at two places of an array can be made in either order. -/
private theorem modify_modify_comm {α : Type} (xs : Array α) {i j : ℕ} (hij : i ≠ j) (f g : α → α) :
    (xs.modify i f).modify j g = (xs.modify j g).modify i f := by
  apply Array.ext_getElem?
  intro k
  simp only [Array.getElem?_modify]
  split_ifs with hj hi hi
  · exact absurd (hi.trans hj.symm) hij
  · rfl
  · rfl
  · rfl

/-- A handle that is taken and given back. -/
theorem uncount_retain (h : Heap) (a : Addr) : (h.retain a).uncount a = h := by
  rw [← h.lent_zero, retain_lent, uncount_lent]

/-- A block is taken out, whatever was written there before. -/
theorem remove_setBody (h : Heap) (a : Addr) (body : Body) :
    (h.setBody a body).remove a = h.remove a := by
  have hblocks : (h.blocks.modify a (·.map fun b => { b with body })).modify a (fun _ => none) =
      h.blocks.modify a fun _ => none := by
    apply Array.ext_getElem?
    intro i
    simp only [Array.getElem?_modify]
    split
    · cases h.blocks[i]? <;> rfl
    · rfl
  exact congrArg (fun blocks => { h with blocks }) hblocks

theorem remove_retain (hac : a ≠ c) : (h.retain c).remove a = (h.remove a).retain c := by
  exact congrArg (fun blocks => { h with blocks }) (modify_modify_comm h.blocks hac.symm _ _)

/-- The heap with some live blocks less. -/
def countOutAll (h : Heap) (n : ℕ) : Heap := { h with live := h.live - n }

@[simp] theorem countOutAll_zero (h : Heap) : h.countOutAll 0 = h := rfl

theorem countOutAll_succ (h : Heap) (n : ℕ) :
    h.countOutAll (n + 1) = h.countOut.countOutAll n := by
  have hlive : h.live - (n + 1) = h.live - 1 - n := by omega
  exact congrArg (fun live => { h with live }) hlive

@[simp] theorem block?_countOutAll (h : Heap) (n : ℕ) (a : Addr) :
    (h.countOutAll n).block? a = h.block? a := rfl

end Heap

/-! ### One handle after the other -/

/-- A heap with the handles that are still to be given up, and the blocks that were freed on the
way. -/
structure Pending where
  /-- The heap. -/
  heap : Heap
  /-- The handles to be given up. -/
  owed : Multiset Addr
  /-- The blocks that were freed. -/
  freed : Multiset Addr

namespace Pending

variable {p q r : Pending} {a c : Addr}

/-- One handle to an address is given up: the block goes and leaves its handles behind, or one
handle less is counted. -/
def give (p : Pending) (a : Addr) : Pending :=
  if p.heap.isLast a then
    { heap := (p.heap.remove a).countOut
      owed := p.owed.erase a + ((p.heap.body a).handles : Multiset Addr)
      freed := a ::ₘ p.freed }
  else { p with heap := p.heap.uncount a, owed := p.owed.erase a }

/-- Any one of the handles is given up. -/
def Gives (p q : Pending) : Prop := ∃ a ∈ p.owed, q = p.give a

/-- Other blocks are not touched. -/
theorem block?_give (hac : a ≠ c) : (p.give a).heap.block? c = p.heap.block? c := by
  unfold give
  split
  · simp [hac]
  · simp [hac]

/-- Two handles to different blocks can be given up in either order. -/
theorem give_comm (hac : a ≠ c) (ha : a ∈ p.owed) (hc : c ∈ p.owed) :
    (p.give a).give c = (p.give c).give a := by
  have hat {x y : Addr} (hxy : x ≠ y) : (p.give x).heap.isLast y = p.heap.isLast y ∧
      (p.give x).heap.body y = p.heap.body y := by
    simp only [Heap.isLast, Heap.body, block?_give hxy, and_self]
  have hmem {x y : Addr} (hxy : x ≠ y) (hx : x ∈ p.owed) : x ∈ p.owed.erase y :=
    (Multiset.mem_erase_of_ne hxy).mpr hx
  rw [give.eq_def (p.give a), give.eq_def (p.give c), (hat hac).1, (hat hac).2, (hat hac.symm).1,
    (hat hac.symm).2]
  cases hla : p.heap.isLast a <;> cases hlc : p.heap.isLast c <;>
    simp [give, hla, hlc, Heap.uncount, Heap.remove, Heap.modify, Heap.countOut,
      Heap.modify_modify_comm _ hac, Multiset.erase_comm p.owed a c,
      Multiset.erase_add_left_pos _ (hmem hac ha), Multiset.erase_add_left_pos _ (hmem hac.symm hc),
      Multiset.cons_swap a c, add_right_comm]

/-- **Two handles are given up in either order.**  What is done with one of them depends on its
own block only. -/
theorem Gives.diamond (hq : p.Gives q) (hr : p.Gives r) :
    ∃ t, Relation.ReflGen Gives q t ∧ Relation.ReflTransGen Gives r t := by
  obtain ⟨a, ha, rfl⟩ := hq
  obtain ⟨c, hc, rfl⟩ := hr
  by_cases hac : a = c
  · subst hac
    exact ⟨_, .refl, .refl⟩
  · have howed {x y : Addr} (hxy : x ≠ y) (hx : x ∈ p.owed) : x ∈ (p.give y).owed := by
      have hmem := (Multiset.mem_erase_of_ne hxy).mpr hx
      unfold give
      split
      · exact Multiset.mem_add.mpr (Or.inl hmem)
      · exact hmem
    exact ⟨(p.give a).give c, .single ⟨c, howed (Ne.symm hac) hc, rfl⟩,
      .single ⟨a, howed hac ha, give_comm hac ha hc⟩⟩

section Steps

variable {h : Heap} {b : Block}

/-- One handle less is counted. -/
theorem gives_keep (hb : h.block? a = some b) (hstay : b.permanent = true ∨ 1 < b.count) (k : ℕ)
    (owed freed : Multiset Addr) :
    Gives ⟨h.countOutAll k, owed + {a}, freed⟩ ⟨(h.uncount a).countOutAll k, owed, freed⟩ := by
  refine ⟨a, by simp, ?_⟩
  have hlast : (h.countOutAll k).isLast a = false := Heap.isLast_eq_false hb hstay
  simp only [give, hlast, Multiset.add_comm owed, Multiset.singleton_add, Multiset.erase_cons_head]
  rfl

/-- The block goes, and leaves its handles to be given up. -/
theorem gives_free (hb : h.block? a = some b) (hlast : ¬(b.permanent = true ∨ 1 < b.count)) (k : ℕ)
    (owed freed : Multiset Addr) :
    Gives ⟨h.countOutAll k, owed + {a}, freed⟩
      ⟨(h.remove a).countOutAll (k + 1), owed + (b.body.handles : Multiset Addr), a ::ₘ freed⟩ := by
  refine ⟨a, by simp, ?_⟩
  have hlast : (h.countOutAll k).isLast a = true := Heap.isLast_eq_true hb hlast
  have hbody : (h.countOutAll k).body a = b.body := Heap.body_of_block? hb
  simp only [give, hlast, hbody, Multiset.add_comm owed {a}, Multiset.singleton_add,
    Multiset.erase_cons_head]
  rfl

/-- A handle to a permanent block is given back. -/
theorem gives_back (hb : h.block? a = some b) (hperm : b.permanent = true) (k : ℕ)
    (owed freed : Multiset Addr) :
    Gives ⟨(h.retain a).countOutAll k, owed + {a}, freed⟩ ⟨h.countOutAll k, owed, freed⟩ := by
  have hb' : (h.retain a).block? a = some { b with count := b.count + 1 } := by
    rw [Heap.block?_retain, if_pos rfl, hb, Option.map_some]
  have hgives := gives_keep hb' (Or.inl hperm) k owed freed
  rwa [Heap.uncount_retain] at hgives

/-- Nothing is counted where there is no block. -/
theorem gives_missing (hb : h.block? a = none) (k : ℕ) (owed freed : Multiset Addr) :
    Gives ⟨h.countOutAll k, owed + {a}, freed⟩ ⟨h.countOutAll k, owed, freed⟩ := by
  refine ⟨a, by simp, ?_⟩
  have hblock : (h.countOutAll k).block? a = none := hb
  have hsame : (h.countOutAll k).uncount a = h.countOutAll k := Heap.modify_of_none hblock _
  simp [give, Heap.isLast, hb, hsame, Multiset.add_comm owed]

end Steps

/-! ### The end -/

/-- Two states come to the same if handles are given up in suitable orders. -/
def Joins : Pending → Pending → Prop := Relation.Join (Relation.ReflTransGen Gives)

theorem joins_equivalence : Equivalence Joins :=
  Relation.equivalence_join_reflTransGen fun _ _ _ => Gives.diamond

theorem joins_of_gives (hq : p.Gives q) : p.Joins q := ⟨q, .single hq, .refl⟩

theorem Joins.trans (hpq : p.Joins q) (hqr : q.Joins r) : p.Joins r :=
  joins_equivalence.trans hpq hqr

theorem Joins.symm (hpq : p.Joins q) : q.Joins p := joins_equivalence.symm hpq

/-- Nothing happens if there is no handle to be given up. -/
theorem eq_of_gives_of_done (hp : p.owed = 0) (hq : Relation.ReflTransGen Gives p q) : p = q := by
  rcases Relation.ReflTransGen.cases_head hq with rfl | ⟨r, ⟨a, ha, -⟩, -⟩
  · rfl
  · rw [hp] at ha
    exact absurd ha (Multiset.notMem_zero a)

/-- **All ways to the end lead to one end.** -/
theorem Joins.eq (hpq : p.Joins q) (hp : p.owed = 0) (hq : q.owed = 0) : p = q := by
  obtain ⟨r, hpr, hqr⟩ := hpq
  rw [eq_of_gives_of_done hp hpr, eq_of_gives_of_done hq hqr]

/-! ### Tasks -/

section Tasks

variable {h : Heap} {b : Block} {others gone : Multiset Addr} {ts us : List Task}

/-- The state in which some tasks are pending, and other handles too. -/
def ofTasks (h : Heap) (others : Multiset Addr) (ts : List Task) (gone : Multiset Addr) : Pending :=
  ⟨h.countOutAll (retiring ts), others + owedBy ts, gone⟩

theorem ofTasks_retire :
    ofTasks h others (.retire :: ts) gone = ofTasks h.countOut others ts gone := by
  rw [ofTasks, owedBy_retire, retiring_retire, Heap.countOutAll_succ]
  rfl

theorem ofTasks_unlink :
    ofTasks h others (.unlink a :: ts) gone = ofTasks h others (.drop a :: ts) gone := by
  rw [ofTasks, ofTasks, owedBy_unlink, owedBy_drop, retiring_unlink, retiring_drop]

theorem ofTasks_keep (hb : h.block? a = some b) (hstay : b.permanent = true ∨ 1 < b.count) :
    (ofTasks h others (.drop a :: ts) gone).Gives (ofTasks (h.uncount a) others ts gone) := by
  rw [ofTasks, owedBy_drop, retiring_drop]
  exact gives_keep hb hstay _ _ gone

theorem ofTasks_free (hb : h.block? a = some b) (hlast : ¬(b.permanent = true ∨ 1 < b.count))
    (howed : others + owedBy us = others + owedBy ts + (b.body.handles : Multiset Addr))
    (hretiring : retiring us = retiring ts + 1) :
    (ofTasks h others (.drop a :: ts) gone).Gives
      (ofTasks (h.remove a) others us (a ::ₘ gone)) := by
  rw [ofTasks, owedBy_drop, retiring_drop, ofTasks, howed, hretiring]
  exact gives_free hb hlast _ _ gone

theorem ofTasks_back (hb : h.block? a = some b) (hperm : b.permanent = true)
    (howed : others + owedBy us = others + owedBy ts + {a})
    (hretiring : retiring us = retiring ts) :
    (ofTasks (h.retain a) others us gone).Gives (ofTasks h others ts gone) := by
  rw [ofTasks, howed, hretiring]
  exact gives_back hb hperm _ _ gone

theorem ofTasks_missing (hb : h.block? a = none) :
    (ofTasks h others (.drop a :: ts) gone).Gives (ofTasks h others ts gone) := by
  rw [ofTasks, owedBy_drop, retiring_drop]
  exact gives_missing hb _ _ gone

/-- **Working off tasks gives up the handles that they owe**, once nothing has its block. -/
theorem joins_discharge (hn : h.nothingAt = some c) (ts : List Task) (others gone : Multiset Addr) :
    ∃ freed, (ofTasks h others ts gone).Joins ⟨h.discharge ts, others, freed⟩ := by
  -- nothing has its block, so none is made for a link that is taken out
  have hensure {g : Heap} (hg : g.nothingAt = some c) : g.ensureNothing.2 = g := by
    rw [Heap.ensureNothing, hg]
  fun_induction Heap.discharge h ts generalizing gone with
  | case1 h => exact ⟨gone, by simpa [ofTasks, owedBy, retiring] using joins_equivalence.refl _⟩
  | case2 h rest ih =>
    rw [ofTasks_retire]
    exact ih hn gone
  | case3 h a rest hb ih =>
    obtain ⟨freed, hrest⟩ := ih hn gone
    exact ⟨freed, (joins_of_gives (ofTasks_missing hb)).trans hrest⟩
  | case4 h a rest b hb hstay ih =>
    obtain ⟨freed, hrest⟩ := ih hn gone
    exact ⟨freed, (joins_of_gives (ofTasks_keep hb hstay)).trans hrest⟩
  | case5 h a rest b hb hlast item next hc ih =>
    -- the link and the element of the cell are the handles that its block leaves behind
    rw [hensure (g := h.remove a) hn] at ih ⊢
    obtain ⟨freed, hrest⟩ := ih hn (a ::ₘ gone)
    refine ⟨freed, (joins_of_gives (ofTasks_free hb hlast ?_ ?_)).trans hrest⟩
    · rw [owedBy_unlink, owedBy_drop, owedBy_retire, Heap.handles_of_cell? hc, add_assoc]
    · simp
  | case6 h a rest b hb hlast hc ih =>
    obtain ⟨freed, hrest⟩ := ih hn (a ::ₘ gone)
    refine ⟨freed, (joins_of_gives (ofTasks_free hb hlast ?_ ?_)).trans hrest⟩
    · rw [owedBy_drops, owedBy_retire]
    · simp
  | case7 h a rest hb ih =>
    rw [ofTasks_unlink]
    exact ih hn gone
  | case8 h a rest b hb hshared ih =>
    rw [ofTasks_unlink]
    exact ih hn gone
  | case9 h a rest b hb hlast item next hc ih =>
    obtain ⟨freed, hrest⟩ := ih hn (a ::ₘ gone)
    rw [ofTasks_unlink]
    refine ⟨freed, (joins_of_gives (ofTasks_free hb ?_ ?_ ?_)).trans hrest⟩
    -- a link that is cut is the only handle to its cell
    · rintro (hperm | hcount) <;> simp_all
    · rw [owedBy_drop, owedBy_retire, owedBy_unlink, Heap.handles_of_cell? hc, add_assoc,
        add_comm ({next} : Multiset Addr)]
    · simp
  | case10 h a rest b hb hlast hc ih =>
    rw [ofTasks_unlink]
    exact ih hn gone

end Tasks

/-! ### What was freed -/

/-- **The blocks that were freed**, none of them twice, are those that a heap had and that are no
longer there. -/
structure Accounts (h : Heap) (p : Pending) : Prop where
  /-- No block is freed twice. -/
  nodup : p.freed.Nodup
  /-- No block is made. -/
  live : ∀ x, p.heap.Live x → h.Live x
  /-- What was freed is what is gone. -/
  mem_iff : ∀ x, x ∈ p.freed ↔ h.Live x ∧ ¬p.heap.Live x

variable {h : Heap}

theorem accounts_start (h : Heap) (owed : Multiset Addr) : Accounts h ⟨h, owed, 0⟩ where
  nodup := Multiset.nodup_zero
  live _ := id
  mem_iff x := by simp

theorem Accounts.give (hp : Accounts h p) (a : Addr) : Accounts h (p.give a) := by
  unfold Pending.give
  split
  · next hlast =>
    obtain ⟨b, hb⟩ := Heap.exists_block?_of_isLast hlast
    -- only the block that goes is missing afterwards
    have hlive : ∀ x, ((p.heap.remove a).countOut).Live x ↔ x ≠ a ∧ p.heap.Live x := by
      intro x
      by_cases hax : a = x
      · simp [Heap.Live, hax]
      · simp [Heap.Live, hax, Ne.symm hax]
    refine ⟨Multiset.nodup_cons.mpr ⟨?_, hp.nodup⟩, ?_, ?_⟩
    · intro hmem
      exact ((hp.mem_iff a).mp hmem).2 ⟨b, hb⟩
    · intro x hx
      exact hp.live x ((hlive x).mp hx).2
    · intro x
      rw [hlive, Multiset.mem_cons, hp.mem_iff]
      by_cases hxa : x = a
      · subst hxa
        simp [hp.live x ⟨b, hb⟩]
      · simp [hxa]
  · have hlive : ∀ x, (p.heap.uncount a).Live x ↔ p.heap.Live x := fun x => Heap.live_uncount
    exact ⟨hp.nodup, fun x hx => hp.live x ((hlive x).mp hx),
      fun x => (hp.mem_iff x).trans (by rw [hlive])⟩

/-- **The account is kept** however the handles are given up. -/
theorem Accounts.gives (hp : Accounts h p) (hq : Relation.ReflTransGen Gives p q) :
    Accounts h q := by
  induction hq with
  | refl => exact hp
  | tail _ hstep ih =>
    obtain ⟨a, -, rfl⟩ := hstep
    exact ih.give a

end Pending

end SharedValues
