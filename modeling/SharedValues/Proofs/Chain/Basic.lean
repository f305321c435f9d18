import Mathlib.Data.List.Nodup
import Mathlib.Data.Set.Basic
import SharedValues.Heap.Chain

/-!
# Chains

The cells of a list hang together by their next links.  The links that follow from a place are
numbered from zero, whether they ever end or not; a chain is the list of the cells among them if
they end in nothing.  Whatever depends on the links of a chain only stays as it is when these do.

## Main definitions

* `Heap.next?` — the next link of a cell.
* `Heap.nth` — the link that is reached after some steps.
* `Heap.Linked` — the links lead to cells, and to nothing in the end if there is one.
* `Heap.Chain` — the links lead through certain cells to nothing.
* `Heap.Offers` — the links lead through certain cells.
* `Heap.Measures`, `Heap.Measured` — a size is the length of the chain, all sizes are.
* `Heap.AgreeOn` — two heaps have the same links in a region that links do not leave.

## Main results

* `Chain.unique`, `Chain.nodup` — a chain is determined by its head and meets no cell twice.
* `Chain.chain_eq`, `Chain.lap_eq` — what the two walks along a list find on a chain.
* `AgreeOn.measures` — sizes are right in one of two agreeing heaps if they are in the other.
-/

namespace SharedValues.Heap

variable {h h' : Heap} {a b n : Addr} {cs ds : List Addr}

/-! ### Links -/

/-- The next link of the cell at an address. -/
def next? (h : Heap) (a : Addr) : Option Addr := (h.body a).cell?.map Prod.snd

theorem next?_eq_some_iff : h.next? a = some n ↔ ∃ item, h.body a = .cell item n := by
  unfold next?
  cases h.body a <;> simp [Body.cell?]

theorem kind_of_next? (hn : h.next? a = some n) : h.kind a = .cell := by
  obtain ⟨item, hbody⟩ := next?_eq_some_iff.mp hn
  rw [kind, hbody]
  rfl

theorem next?_of_kind (hk : h.kind a ≠ .cell) : h.next? a = none := by
  cases hn : h.next? a with
  | none => rfl
  | some n => exact absurd (kind_of_next? hn) hk

theorem exists_next?_of_kind (hk : h.kind a = .cell) : ∃ n, h.next? a = some n := by
  revert hk
  unfold kind next?
  cases h.body a <;> simp [Body.kind, Body.cell?]

/-- The link that is reached from a place after some steps. -/
def nth (h : Heap) (a : Addr) : ℕ → Option Addr
  | 0 => some a
  | i + 1 => (h.nth a i).bind h.next?

@[simp] theorem nth_zero (h : Heap) (a : Addr) : h.nth a 0 = some a := rfl

theorem nth_succ (h : Heap) (a : Addr) (i : ℕ) : h.nth a (i + 1) = (h.nth a i).bind h.next? := rfl

theorem nth_add (h : Heap) (a : Addr) (i j : ℕ) :
    h.nth a (i + j) = (h.nth a i).bind fun b => h.nth b j := by
  induction j with
  | zero => cases h.nth a i <;> rfl
  | succ j ih =>
    rw [← Nat.add_assoc, nth_succ, ih]
    cases h.nth a i <;> rfl

/-- The first step can be taken apart as well as the last one. -/
theorem nth_succ' (h : Heap) (a : Addr) (i : ℕ) :
    h.nth a (i + 1) = (h.next? a).bind fun n => h.nth n i := by
  rw [Nat.add_comm, nth_add]
  rfl

/-- The steps from a cell are the steps from its next link. -/
theorem nth_next (hn : h.next? a = some n) (i : ℕ) : h.nth a (i + 1) = h.nth n i := by
  rw [nth_succ', hn, Option.bind_some]

/-- No step leads away from what is no cell. -/
theorem nth_succ_of_kind (hk : h.kind a ≠ .cell) (i : ℕ) : h.nth a (i + 1) = none := by
  rw [nth_succ', next?_of_kind hk, Option.bind_none]

/-- A step that is taken is taken from a cell. -/
theorem exists_nth_of_succ {i : ℕ} (hb : h.nth a (i + 1) = some b) :
    ∃ c, h.nth a i = some c ∧ h.next? c = some b :=
  Option.bind_eq_some_iff.mp hb

/-- The links from a place lead to cells, and to nothing in the end if there is one. -/
def Linked (h : Heap) (a : Addr) : Prop :=
  ∀ i b, h.nth a i = some b → h.kind b = .cell ∨ h.kind b = .nothing

theorem Linked.kind (ha : h.Linked a) : h.kind a = .cell ∨ h.kind a = .nothing := ha 0 a rfl

theorem Linked.nth {i : ℕ} (ha : h.Linked a) (hb : h.nth a i = some b) : h.Linked b := by
  intro j c hc
  refine ha (i + j) c ?_
  rw [nth_add, hb]
  exact hc

theorem Linked.next (ha : h.Linked a) (hn : h.next? a = some n) : h.Linked n :=
  ha.nth (i := 1) (by rw [nth_next hn]; rfl)

theorem linked_of_next (hn : h.next? a = some n) (hl : h.Linked n) : h.Linked a := by
  intro i b hb
  cases i with
  | zero =>
    obtain rfl := Option.some.inj hb
    exact Or.inl (kind_of_next? hn)
  | succ i => exact hl i b (nth_next hn i ▸ hb)

theorem linked_of_nothing (ha : h.kind a = .nothing) : h.Linked a := by
  intro i b hb
  cases i with
  | zero =>
    obtain rfl := Option.some.inj hb
    exact Or.inr ha
  | succ i =>
    rw [nth_succ_of_kind (by rw [ha]; decide)] at hb
    exact absurd hb (by simp)

/-- Links that stay among some cells and nothing. -/
theorem linked_of_closed {S : List Addr} (hkind : ∀ b ∈ S, h.kind b = .cell ∨ h.kind b = .nothing)
    (hnext : ∀ b ∈ S, ∀ n ∈ h.next? b, n ∈ S) (ha : a ∈ S) : h.Linked a := by
  have hstay : ∀ i b, h.nth a i = some b → b ∈ S := by
    intro i
    induction i with
    | zero => exact fun b hb => Option.some.inj hb ▸ ha
    | succ i ih =>
      intro b hb
      obtain ⟨c, hc, hn⟩ := exists_nth_of_succ hb
      exact hnext c (ih c hc) b hn
  exact fun i b hb => hkind b (hstay i b hb)

/-- The lists of a heap start among such cells. -/
theorem linked_of_heads {S : List Addr} (hkind : ∀ b ∈ S, h.kind b = .cell ∨ h.kind b = .nothing)
    (hnext : ∀ b ∈ S, ∀ n ∈ h.next? b, n ∈ S)
    (hheads : ∀ x < h.blocks.size, ∀ l ∈ (h.body x).list?, l.head ∈ S) (x : Addr) (l : ListHeader)
    (hx : h.body x = .list l) : h.Linked l.head := by
  refine linked_of_closed hkind hnext (hheads x ?_ l (by rw [hx]; rfl))
  by_contra hle
  simp [Heap.body, block?, Array.getElem?_eq_none (Nat.le_of_not_lt hle)] at hx

/-! ### Finite chains -/

/-- The links from a place lead through some cells, and then to nothing. -/
inductive Chain (h : Heap) : Addr → List Addr → Prop
  /-- Nothing ends a chain. -/
  | nil {a : Addr} : h.kind a = .nothing → Chain h a []
  /-- A cell goes before the chain that it is linked to. -/
  | cons {a n : Addr} {cs : List Addr} : h.next? a = some n → Chain h n cs → Chain h a (a :: cs)

/-- The links from a place lead through some cells, whatever comes after them: other cells, the same
ones again, or nothing. -/
inductive Offers (h : Heap) : Addr → List Addr → Prop
  /-- No step is taken. -/
  | nil {a : Addr} : Offers h a []
  /-- A cell goes before those that are reached from the next link. -/
  | cons {a n : Addr} {cs : List Addr} : h.next? a = some n → Offers h n cs → Offers h a (a :: cs)

theorem Chain.offers (hc : h.Chain a cs) : h.Offers a cs := by
  induction hc with
  | nil _ => exact .nil
  | cons hn _ ih => exact .cons hn ih

/-- Links are unique, so chains are. -/
theorem Chain.unique (hc : h.Chain a cs) (hd : h.Chain a ds) : cs = ds := by
  induction hc generalizing ds with
  | nil hk =>
    cases hd with
    | nil _ => rfl
    | cons hn _ =>
      rw [kind_of_next? hn] at hk
      exact absurd hk (by decide)
  | cons hn _ ih =>
    cases hd with
    | nil hk =>
      rw [kind_of_next? hn] at hk
      exact absurd hk (by decide)
    | cons hn' hd =>
      -- both go on from the same next link
      rw [hn, Option.some_inj] at hn'
      subst hn'
      rw [ih hd]

theorem Chain.linked (hc : h.Chain a cs) : h.Linked a := by
  induction hc with
  | nil hk => exact linked_of_nothing hk
  | cons hn _ ih => exact linked_of_next hn ih

theorem Chain.kind_of_mem (hc : h.Chain a cs) : ∀ c ∈ cs, h.kind c = .cell := by
  induction hc with
  | nil _ => simp
  | cons hn _ ih => simpa using ⟨kind_of_next? hn, ih⟩

theorem Chain.tail (hc : h.Chain a cs) (hn : h.next? a = some n) :
    ∃ ds, cs = a :: ds ∧ h.Chain n ds := by
  cases hc with
  | nil hk =>
    rw [kind_of_next? hn] at hk
    exact absurd hk (by decide)
  | cons hn' hd =>
    rw [hn, Option.some_inj] at hn'
    subst hn'
    exact ⟨_, rfl, hd⟩

/-- From every link of a chain on, the chain is what is left of it. -/
theorem Chain.nth (hc : h.Chain a cs) {i : ℕ} (hb : h.nth a i = some b) :
    h.Chain b (cs.drop i) ∧ i ≤ cs.length := by
  induction i generalizing a cs with
  | zero =>
    obtain rfl := Option.some.inj hb
    exact ⟨hc, Nat.zero_le _⟩
  | succ i ih =>
    cases hc with
    | nil hk =>
      rw [nth_succ_of_kind (by rw [hk]; decide)] at hb
      exact absurd hb (by simp)
    | cons hn hd =>
      rw [nth_next hn] at hb
      obtain ⟨hchain, hle⟩ := ih hd hb
      exact ⟨hchain, Nat.succ_le_succ hle⟩

/-- The cells of a chain are its links. -/
theorem Chain.nth_of_getElem? (hc : h.Chain a cs) {i : ℕ} (hi : cs[i]? = some b) :
    h.nth a i = some b := by
  induction hc generalizing i with
  | nil _ => simp at hi
  | cons hn _ ih =>
    cases i with
    | zero => exact hi
    | succ i =>
      rw [nth_next hn]
      exact ih (by simpa using hi)

/-- The links before the end of a chain are its cells. -/
theorem Chain.mem_of_nth (hc : h.Chain a cs) {i : ℕ} (hi : i < cs.length)
    (hb : h.nth a i = some b) : b ∈ cs := by
  obtain rfl : cs[i] = b :=
    Option.some.inj ((hc.nth_of_getElem? (List.getElem?_eq_getElem hi)).symm.trans hb)
  exact List.getElem_mem hi

/-- A chain that comes back to a cell would never end. -/
theorem Chain.nodup (hc : h.Chain a cs) : cs.Nodup := by
  induction hc with
  | nil _ => exact List.nodup_nil
  | @cons a n cs hn hd ih =>
    refine List.nodup_cons.mpr ⟨?_, ih⟩
    intro hmem
    -- the rest of the chain from its second meeting with `a` is shorter than the chain from `a`
    have hsuffix : ∀ {b : Addr} {ds : List Addr}, h.Chain b ds → a ∈ ds →
        ∃ es, h.Chain a es ∧ es.length ≤ ds.length := by
      intro b ds hds
      induction hds with
      | nil _ => simp
      | @cons b m ds hm hds ih =>
        intro hmem
        by_cases hab : a = b
        · subst hab
          exact ⟨_, .cons hm hds, Nat.le_refl _⟩
        · obtain ⟨es, hes, hle⟩ := ih (by simpa [hab] using hmem)
          exact ⟨es, hes, hle.trans (Nat.le_succ _)⟩
    obtain ⟨es, hes, hle⟩ := hsuffix hd hmem
    rw [← (Chain.cons hn hd).unique hes, List.length_cons] at hle
    omega

/-! ### Walks -/

/-- A bounded walk finds the links that are reached step by step, all of them cells. -/
theorem nth_of_chain_found {k i : ℕ} {c : Addr} (hc : (h.chain k a).found[i]? = some c) :
    h.nth a i = some c ∧ h.kind c = .cell := by
  induction k generalizing a i with
  | zero => simp [Heap.chain] at hc
  | succ k ih =>
    cases hbody : h.body a with
    | cell item next =>
      have hn : h.next? a = some next := next?_eq_some_iff.mpr ⟨item, hbody⟩
      rw [Heap.chain, hbody] at hc
      cases i with
      | zero =>
        obtain rfl : a = c := by simpa using hc
        exact ⟨rfl, kind_of_next? hn⟩
      | succ i =>
        -- one step more from the head is one step less from its link
        rw [nth_next hn]
        exact ih (by simpa using hc)
    | _ =>
      rw [Heap.chain, hbody] at hc
      simp at hc

/-- A walk of as many steps as there are cells finds all of them. -/
theorem Offers.chain_eq (hc : h.Offers a cs) : h.chain cs.length a = ⟨cs, none⟩ := by
  induction hc with
  | nil => rfl
  | cons hn _ ih =>
    obtain ⟨item, hbody⟩ := next?_eq_some_iff.mp hn
    rw [List.length_cons, Heap.chain, hbody]
    simp only [ih]

theorem Offers.take (hc : h.Offers a cs) (k : ℕ) : h.Offers a (cs.take k) := by
  induction hc generalizing k with
  | nil =>
    rw [List.take_nil]
    exact .nil
  | cons hn _ ih =>
    cases k with
    | zero => exact .nil
    | succ k => exact .cons hn (ih k)

theorem Offers.kind_of_mem (hc : h.Offers a cs) : ∀ c ∈ cs, h.kind c = .cell := by
  induction hc with
  | nil => simp
  | cons hn _ ih => exact List.forall_mem_cons.mpr ⟨kind_of_next? hn, ih⟩

/-- A walk along links that lead to cells does not break off. -/
theorem broken_chain (ha : h.Linked a) (n : ℕ) : (h.chain n a).broken = none := by
  induction n generalizing a with
  | zero => rfl
  | succ n ih =>
    rw [Heap.chain]
    split
    · rfl
    · next item next hbody => exact ih (ha.next (next?_eq_some_iff.mpr ⟨item, hbody⟩))
    · next hnothing hcell =>
      have hkind := ha.kind
      rw [Heap.kind] at hkind
      revert hkind hnothing hcell
      cases h.body a <;> simp [Body.kind]

/-- No fault is met on the way through the elements of a value, if its links lead to cells when it
is a list. -/
theorem fault?_elements (ha : ∀ l, h.body a = .list l → h.Linked l.head) :
    (h.elements a).fault? = none := by
  have hbroken : (h.elements a).broken = none := by
    unfold elements
    split
    · next l hl => exact broken_chain (ha l hl) l.size
    · rfl
    · rfl
  rw [Walk.fault?, hbroken, Option.map_none]

/-- A bounded walk finds the first cells of a chain. -/
theorem Chain.chain_eq (hc : h.Chain a cs) (k : ℕ) : h.chain k a = ⟨cs.take k, none⟩ := by
  induction hc generalizing k with
  | @nil a hk =>
    cases k with
    | zero => rfl
    | succ k =>
      revert hk
      unfold Heap.chain kind
      cases h.body a <;> simp [Body.kind]
  | @cons a n cs hn _ ih =>
    cases k with
    | zero => rfl
    | succ k =>
      -- the walk takes the head and has one step less for the rest
      obtain ⟨item, hbody⟩ := next?_eq_some_iff.mp hn
      rw [Heap.chain, hbody]
      simp only [ih k, List.take_succ_cons]

/-- A walk up to the first cell met twice finds the whole chain. -/
theorem Chain.lapFrom_eq (hc : h.Chain a cs) {k : ℕ} (hk : cs.length ≤ k) {seen : List Addr}
    (hseen : ∀ c ∈ cs, c ∉ seen) : h.lapFrom k seen a = ⟨cs, none⟩ := by
  induction hc generalizing k seen with
  | @nil a hkind =>
    cases k with
    | zero => rfl
    | succ k =>
      revert hkind
      unfold Heap.lapFrom kind
      cases h.body a <;> simp [Body.kind]
  | @cons a n cs hn hd ih =>
    obtain ⟨k, rfl⟩ : ∃ m, k = m + 1 := ⟨k - 1, by simp only [List.length_cons] at hk; omega⟩
    obtain ⟨item, hbody⟩ := next?_eq_some_iff.mp hn
    -- the head is met now, and the rest does not come back to it
    have hnot := (List.nodup_cons.mp (Chain.cons hn hd).nodup).1
    have ih := @ih k (by simpa using hk) (a :: seen) fun c hc => by
      refine List.not_mem_cons_of_ne_of_not_mem ?_ (hseen c (List.mem_cons_of_mem _ hc))
      rintro rfl
      exact hnot hc
    rw [Heap.lapFrom, hbody]
    simp only [ih]
    rw [if_neg (by simpa using hseen a List.mem_cons_self)]

/-- A chain has no more cells than the heap has places. -/
theorem Chain.length_le (hc : h.Chain a cs) : cs.length ≤ h.blocks.size := by
  have hsubset : cs ⊆ List.range h.blocks.size := by
    intro c hmem
    have hkind := hc.kind_of_mem c hmem
    refine List.mem_range.mpr ?_
    by_contra hle
    simp [Heap.kind, Heap.body, block?, Array.getElem?_eq_none (Nat.le_of_not_lt hle), Body.kind]
      at hkind
  simpa using hc.nodup.length_le_of_subset hsubset

/-- The walk that stops at the first cell met twice finds the whole chain. -/
theorem Chain.lap_eq (hc : h.Chain a cs) : h.lap a = ⟨cs, none⟩ :=
  hc.lapFrom_eq hc.length_le (by simp)

/-- The link of the last cell of a chain is nothing. -/
theorem Chain.next_of_last (hc : h.Chain a (cs ++ [b])) :
    ∃ n, h.next? b = some n ∧ h.kind n = .nothing := by
  induction cs generalizing a with
  | nil =>
    cases hc with
    | cons hn hd =>
      cases hd with
      | nil hk => exact ⟨_, hn, hk⟩
  | cons c cs ih =>
    cases hc with
    | cons hn hd => exact ih hd

/-! ### Sizes -/

/-- A size is right for a head: the links from the head lead to cells, and if they end, the size
is the number of cells. -/
def Measures (h : Heap) (head : Addr) (size : ℕ) : Prop :=
  h.Linked head ∧ ∀ cs, h.Chain head cs → size = cs.length

/-- The sizes of all lists are right. -/
def Measured (h : Heap) : Prop := ∀ x l, h.body x = .list l → h.Measures l.head l.size

theorem Chain.measures (hc : h.Chain a cs) : h.Measures a cs.length :=
  ⟨hc.linked, fun _ hd => by rw [hc.unique hd]⟩

/-- The size of the rest of a chain. -/
theorem Measures.next {size : ℕ} (hm : h.Measures a size) (hn : h.next? a = some n) :
    h.Measures n (size - 1) := by
  refine ⟨hm.1.next hn, ?_⟩
  intro cs hc
  rw [hm.2 _ (.cons hn hc)]
  rfl

/-- The size of a chain with one more cell in front. -/
theorem Measures.cons {size : ℕ} (hm : h.Measures n size) (hn : h.next? a = some n) :
    h.Measures a (size + 1) := by
  refine ⟨linked_of_next hn hm.1, ?_⟩
  intro cs hc
  obtain ⟨ds, rfl, hd⟩ := hc.tail hn
  rw [hm.2 _ hd, List.length_cons]

/-! ### Agreement of two heaps -/

/-- Two heaps have the same links in a region, and the links do not leave it. -/
structure AgreeOn (S : Set Addr) (h h' : Heap) : Prop where
  /-- The same kinds of values. -/
  kind_eq : ∀ a ∈ S, h'.kind a = h.kind a
  /-- The same links. -/
  next_eq : ∀ a ∈ S, h'.next? a = h.next? a
  /-- Links stay in the region. -/
  closed : ∀ a ∈ S, ∀ n, h.next? a = some n → n ∈ S

namespace AgreeOn

variable {S : Set Addr}

theorem symm (hh : AgreeOn S h h') : AgreeOn S h' h :=
  ⟨fun a ha => (hh.kind_eq a ha).symm, fun a ha => (hh.next_eq a ha).symm,
    fun a ha n hn => hh.closed a ha n ((hh.next_eq a ha).symm.trans hn)⟩

theorem nth_eq (hh : AgreeOn S h h') (ha : a ∈ S) (i : ℕ) :
    h'.nth a i = h.nth a i ∧ ∀ b, h.nth a i = some b → b ∈ S := by
  induction i with
  | zero => exact ⟨rfl, fun b hb => Option.some.inj hb ▸ ha⟩
  | succ i ih =>
    obtain ⟨heq, hmem⟩ := ih
    rw [nth_succ, nth_succ, heq]
    cases hc : h.nth a i with
    | none => simp
    | some c =>
      simp only [Option.bind_some]
      exact ⟨hh.next_eq c (hmem c hc), fun b hb => hh.closed c (hmem c hc) b hb⟩

theorem chain (hh : AgreeOn S h h') (ha : a ∈ S) (hc : h.Chain a cs) : h'.Chain a cs := by
  induction hc with
  | nil hk => exact .nil ((hh.kind_eq _ ha).trans hk)
  | cons hn _ ih => exact .cons ((hh.next_eq _ ha).trans hn) (ih (hh.closed _ ha _ hn))

theorem linked (hh : AgreeOn S h h') (ha : a ∈ S) (hl : h.Linked a) : h'.Linked a := by
  intro i b hb
  obtain ⟨heq, hmem⟩ := hh.nth_eq ha i
  rw [heq] at hb
  rw [hh.kind_eq b (hmem b hb)]
  exact hl i b hb

theorem measures (hh : AgreeOn S h h') (ha : a ∈ S) {size : ℕ} (hm : h.Measures a size) :
    h'.Measures a size :=
  ⟨hh.linked ha hm.1, fun cs hc => hm.2 cs (hh.symm.chain ha hc)⟩

end AgreeOn

end SharedValues.Heap
