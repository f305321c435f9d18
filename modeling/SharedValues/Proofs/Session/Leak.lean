import Mathlib.Data.Fintype.Order
import Mathlib.Logic.Relation
import Mathlib.Order.WellFounded
import SharedValues.Proofs.Session.Run

/-!
# Only cycles leak

A block whose count is exact is freed with its last handle, so what lives without being used is
kept alive by other such blocks.  Going back from holder to holder inside a finite heap one has to
come round to a block met before: only values that contain themselves can be forgotten without
being freed.

## Main definitions

* `Heap.Stores`, `Heap.Reaches` — a block holds a handle, a way along stored handles.
* `Heap.Reachable` — a way from a handle held outside.
* `Heap.Circular` — a block that contains itself.
* `Heap.Leaking` — a circular block that is live and out of reach with all that it is circular with.

## Main results

* `Exact.exists_holder` — every block that is not permanent has a holder.
* `Exact.permanent_or_reachable_or_leaking` — why a block is live.
* `Session.only_cycles_leak` — the same after every run, and after all registers are emptied.
-/

namespace SharedValues

namespace Heap

variable {h h' : Heap} {held : Multiset Addr} {a c p : Addr}

/-! ### The graph of stored handles -/

/-- A block holds a handle. -/
def Stores (h : Heap) (p a : Addr) : Prop := a ∈ (h.body p).handles

/-- A way along stored handles, of any length. -/
def Reaches (h : Heap) : Addr → Addr → Prop := Relation.ReflTransGen h.Stores

/-- A way along stored handles from a handle held outside. -/
def Reachable (h : Heap) (held : Multiset Addr) (a : Addr) : Prop := ∃ r ∈ held, h.Reaches r a

/-- A block contains itself: a way of at least one step leads back to it. -/
def Circular (h : Heap) (c : Addr) : Prop := Relation.TransGen h.Stores c c

/-- A block stays, whatever its count. -/
def Permanent (h : Heap) (a : Addr) : Prop := ∃ b, h.block? a = some b ∧ b.permanent = true

/-- A block lies on a cycle of live blocks that are all out of reach. -/
structure Leaking (h : Heap) (held : Multiset Addr) (c : Addr) : Prop where
  /-- The block contains itself. -/
  circular : h.Circular c
  /-- Everything that contains the block and is contained in it is live. -/
  live : ∀ b, h.Reaches c b → h.Reaches b c → h.Live b
  /-- None of it is reached from outside. -/
  out_of_reach : ∀ b, h.Reaches c b → h.Reaches b c → ¬h.Reachable held b

theorem Stores.live (hp : h.Stores p a) : h.Live p := by
  refine live_of_body rfl ?_
  intro hnothing
  rw [Stores, hnothing] at hp
  simp [Body.handles] at hp

/-- A permanent block holds no handles. -/
theorem Exact.not_stores_of_permanent (hh : h.Exact held) (hp : h.Permanent p) :
    ¬h.Stores p a := by
  obtain ⟨b, hb, hperm⟩ := hp
  rw [Stores, body_of_block? hb]
  rcases hh.plain hb hperm with hbody | ⟨w, hbody⟩ <;> simp [hbody, Body.handles]

/-- A stored handle is stored in a block. -/
theorem exists_stores_of_mem (ha : a ∈ h.stored) : ∃ p, h.Stores p a := by
  -- an address in the sum is in one of the summands
  have hsum : ∀ {ss : List (Multiset Addr)}, a ∈ ss.sum → ∃ s ∈ ss, a ∈ s := by
    intro ss
    induction ss with
    | nil => simp
    | cons s ss ih =>
      rw [List.sum_cons, Multiset.mem_add]
      rintro (hs | hss)
      · exact ⟨s, List.mem_cons_self, hs⟩
      · obtain ⟨t, ht, hat⟩ := ih hss
        exact ⟨t, List.mem_cons_of_mem s ht, hat⟩
  obtain ⟨s, hs, has⟩ := hsum ha
  obtain ⟨o, ho, rfl⟩ := List.mem_map.mp hs
  obtain ⟨p, hp⟩ := List.mem_iff_getElem?.mp ho
  cases o with
  | none => simp at has
  | some b =>
    have hb : h.block? p = some b := by simpa [block?, Option.join_eq_some_iff] using hp
    exact ⟨p, by rwa [Stores, body_of_block? hb]⟩

/-- **Every block that is not permanent has a holder**, outside of the heap or in it. -/
theorem Exact.exists_holder (hh : h.Exact held) (ha : h.Live a) (hperm : ¬h.Permanent a) :
    a ∈ held ∨ ∃ p, h.Stores p a := by
  obtain ⟨b, hb⟩ := ha
  have hcount := hh.count_eq hb
  have hnot : b.permanent ≠ true := fun h => hperm ⟨b, hb, h⟩
  have hused := (hh.used hb).resolve_left hnot
  rw [if_neg hnot, add_zero] at hcount
  have hmem : a ∈ held + h.stored := Multiset.count_pos.mp (hcount ▸ hused)
  exact (Multiset.mem_add.mp hmem).imp_right exists_stores_of_mem

/-! ### Why a block is live -/

/-- What cannot be reached from outside cannot be reached from a holder of it either. -/
theorem not_reachable_of_reaches (hout : ¬h.Reachable held a) (hp : h.Reaches p a) :
    ¬h.Reachable held p := fun ⟨r, hr, hrp⟩ => hout ⟨r, hr, hrp.trans hp⟩

/-- Whatever leads to a live block is live. -/
theorem live_of_reaches (hp : h.Reaches p a) (ha : h.Live a) : h.Live p := by
  rcases Relation.ReflTransGen.cases_head hp with rfl | ⟨q, hpq, -⟩
  · exact ha
  · exact hpq.live

/-- **Why a block is live**: it is permanent, or it is reached from outside, or it is reached from
a cycle that is not. -/
theorem Exact.permanent_or_reachable_or_leaking (hh : h.Exact held) (ha : h.Live a) :
    h.Permanent a ∨ h.Reachable held a ∨ ∃ c, h.Leaking held c ∧ h.Reaches c a := by
  by_contra! hno
  obtain ⟨hperm, hout, hcycle⟩ := hno
  -- the blocks that lead to `a`, each of which has a holder that leads to `a` as well
  let T := {p : Addr // h.Reaches p a}
  have hholder : ∀ p : T, ∃ q : T, h.Stores q.1 p.1 := by
    rintro ⟨p, hp⟩
    have hnot : ¬h.Permanent p := by
      intro hpp
      rcases Relation.ReflTransGen.cases_head hp with rfl | ⟨q, hpq, -⟩
      · exact hperm hpp
      · exact hh.not_stores_of_permanent hpp hpq
    rcases hh.exists_holder (live_of_reaches hp ha) hnot with hheld | ⟨q, hq⟩
    · exact absurd ⟨p, hheld, hp⟩ hout
    · exact ⟨⟨q, .head hq hp⟩, hq⟩
  have hfinite : Finite T := by
    have hlt : ∀ p : T, p.1 < h.blocks.size := fun p => (live_of_reaches p.2 ha).lt_size
    exact Finite.of_injective (fun p : T => (⟨p.1, hlt p⟩ : Fin h.blocks.size))
      fun p q hpq => Subtype.ext (Fin.mk.inj hpq)
  -- none of them lies on a cycle, so going back from holder to holder comes to an end
  have hirrefl : ∀ p : T, ¬h.Circular p.1 := by
    rintro ⟨p, hp⟩ hcirc
    refine hcycle p ⟨hcirc, fun b _ hb => live_of_reaches (hb.trans hp) ha, fun b _ hb => ?_⟩ hp
    exact not_reachable_of_reaches hout (hb.trans hp)
  let R : T → T → Prop := fun p q => Relation.TransGen h.Stores p.1 q.1
  have : IsTrans T R := ⟨fun _ _ _ => Relation.TransGen.trans⟩
  have : Std.Irrefl R := ⟨hirrefl⟩
  obtain ⟨m, -, hmin⟩ := (Finite.wellFounded_of_trans_of_irrefl R).has_min Set.univ
    ⟨⟨a, .refl⟩, trivial⟩
  obtain ⟨q, hq⟩ := hholder m
  exact hmin q trivial (.single hq)

/-! ### What is left of a heap -/

theorem Thins.stores (hthins : h.Thins h') (hp : h'.Stores p a) : h.Stores p a := by
  rwa [Stores, ← hthins.body_eq hp.live]

theorem Thins.circular (hthins : h.Thins h') (hc : h'.Circular c) : h.Circular c :=
  Relation.TransGen.mono (p := h.Stores) (fun _ _ => hthins.stores) _ _ hc

/-- Without cycles and without handles held outside only permanent blocks are live. -/
theorem Exact.permanent_of_acyclic (hh : h.Exact 0) (hacyclic : ∀ c, ¬h.Circular c)
    (ha : h.Live a) : h.Permanent a := by
  rcases hh.permanent_or_reachable_or_leaking ha with hperm | ⟨r, hr, -⟩ | ⟨c, hc, -⟩
  · exact hperm
  · exact absurd hr (Multiset.notMem_zero r)
  · exact absurd hc.circular (hacyclic c)

end Heap

/-! ### Runs -/

namespace Session

open Heap

/-- **Only cycles leak.**  After every run, with whatever faults, a live block is permanent, or it
is reached from a register or a cursor, or it is reached from a cycle of live blocks none of which
is.  If no block contains itself, only permanent blocks are live after all registers are emptied. -/
theorem only_cycles_leak (cs : List Command) :
    let s := (run cs {}).2
    (∀ a, s.store.heap.Live a → s.store.heap.Permanent a ∨ s.store.heap.Reachable s.held a ∨
      ∃ c, s.store.heap.Leaking s.held c ∧ s.store.heap.Reaches c a) ∧
    ((∀ c, ¬s.store.heap.Circular c) →
      ∀ a, (s.step .dropAll).2.store.heap.Live a → (s.step .dropAll).2.store.heap.Permanent a) := by
  intro s
  refine ⟨fun a ha => (exact_run cs).permanent_or_reachable_or_leaking ha, ?_⟩
  intro hacyclic a ha
  have hthins : s.store.heap.Thins (s.step .dropAll).2.store.heap := releaseAll_thins _ _
  have hexact : (s.step .dropAll).2.store.heap.Exact 0 := by
    have hrun := exact_run (cs ++ [.dropAll])
    rw [run_concat] at hrun
    exact hrun
  exact hexact.permanent_of_acyclic (fun c hc => hacyclic c (hthins.circular hc)) ha

/-- Two lists on the same cells are freed with all that they hold. -/
theorem only_permanent_left_of_shared :
    let s := (run [.build (.words ["a", "b"]) ⟨some "x", true⟩,
      .combine "x" .cons (.text "z" false) ⟨some "y", true⟩] {}).2
    ∀ a, (s.step .dropAll).2.store.heap.Live a → (s.step .dropAll).2.store.heap.Permanent a := by
  intro s
  refine (only_cycles_leak _).2 ?_
  -- every handle leads to an older block
  have hold : ∀ p < s.store.heap.blocks.size, ∀ a ∈ (s.store.heap.body p).handles, a < p := by
    decide +kernel
  have hlt : ∀ {p a : Addr}, Relation.TransGen s.store.heap.Stores p a → a < p := by
    intro p a hpa
    induction hpa with
    | single hstep => exact hold _ hstep.live.lt_size _ hstep
    | tail _ hstep ih => exact (hold _ hstep.live.lt_size _ hstep).trans ih
  exact fun c hc => (hlt hc).false

end Session

end SharedValues
