import SharedValues.Proofs.Chain.Successor
import SharedValues.Proofs.Sequence.Report

/-!
# Shared cells

Lists share their cells, so a change of one list may show in others.  Counts aside, a change writes
the header of its list and no more than one field of one cell; nothing else that is left afterwards
has another content, whatever has been given up on the way.  So another list has the elements that
it had, unless it walks over this cell.  A list that is made from another one stands on cells that
are there or on new ones, and no block that was there changes.

## Main definitions

* `CellWrite`, `Body.after` — a value for one field of a cell, and what becomes of a content.
* `Heap.Rewritten` — the header of a list and one such field have been written.
* `Heap.Grown` — there are more blocks.
* `Heap.Derived` — a list has been made on cells of another one.

## Main results

* `Rewritten.field`, `Rewritten.relink`, … — what the steps of a change write.
* `Rewritten.elements_eq` — a list that does not walk over the cell has its elements.
* `Exact.derived_headed`, `Exact.derived_consed`, `Exact.derived_listOf` — the lists that are made.
-/

namespace SharedValues

open Heap

/-! ### One field of a cell -/

/-- A value for one field of a cell. -/
inductive CellWrite where
  /-- Another element. -/
  | item (c value : Addr)
  /-- Another next link. -/
  | link (c target : Addr)
  deriving DecidableEq, Repr

namespace CellWrite

/-- The cell. -/
def cell : CellWrite → Addr
  | item c _ => c
  | link c _ => c

/-- The content of the cell with the new value. -/
def apply : CellWrite → Body → Body
  | item _ value, .cell _ n => .cell value n
  | link _ target, .cell i _ => .cell i target
  | _, body => body

theorem kind_apply (w : CellWrite) (body : Body) : (w.apply body).kind = body.kind := by
  cases w <;> cases body <;> rfl

end CellWrite

namespace Body

/-- The content at an address after at most one field has been written. -/
def after (body : Body) (w : Option CellWrite) (a : Addr) : Body :=
  match w with
  | none => body
  | some w => if a = w.cell then w.apply body else body

@[simp] theorem after_none (body : Body) (a : Addr) : body.after none a = body := rfl

theorem after_of_ne {w : Option CellWrite} {a : Addr} (hw : ∀ v ∈ w, v.cell ≠ a) (body : Body) :
    body.after w a = body := by
  cases w with
  | none => rfl
  | some v => exact if_neg (hw v rfl).symm

@[simp] theorem kind_after (body : Body) (w : Option CellWrite) (a : Addr) :
    (body.after w a).kind = body.kind := by
  cases w with
  | none => rfl
  | some v =>
    show (if a = v.cell then v.apply body else body).kind = body.kind
    split
    · exact v.kind_apply body
    · rfl

/-- A field is written in cells only. -/
theorem after_of_kind {body : Body} (hbody : body.kind ≠ .cell) (w : Option CellWrite) (a : Addr) :
    body.after w a = body := by
  cases w with
  | none => rfl
  | some v =>
    show (if a = v.cell then v.apply body else body) = body
    split
    · revert hbody
      cases v <;> cases body <;> simp [kind, CellWrite.apply]
    · rfl

end Body

namespace Heap

variable {h g k : Heap} {held held' : Multiset Addr} {a c item m n x z : Addr}
  {l r : ListHeader} {w : Option CellWrite} {as : List Addr}

/-- **The header of the list `x` and one field of a cell have been written**, if any, and blocks may
have been made or given up: what is left of the old blocks has no other marks, and no other content
but for that. -/
structure Rewritten (h g : Heap) (x : Addr) (w : Option CellWrite) : Prop where
  /-- No address is given out twice. -/
  size_le : h.blocks.size ≤ g.blocks.size
  /-- What is left was there. -/
  live : ∀ {a}, a < h.blocks.size → g.Live a → h.Live a
  /-- The marks are the same. -/
  marks : ∀ {a b b'}, h.block? a = some b → g.block? a = some b' →
    b'.permanent = b.permanent ∧ b'.frozen = b.frozen
  /-- The list is still a list. -/
  list : h.Live x → g.Live x → h.kind x = .list → g.kind x = .list
  /-- Another block has the content that it had, but for the field. -/
  body_eq : ∀ {a}, h.Live a → g.Live a → a ≠ x → g.body a = (h.body a).after w a

theorem size_blocks_modify (h : Heap) (a : Addr) (f : Block → Block) :
    (h.modify a f).blocks.size = h.blocks.size := Array.size_modify

/-- A walk ends at once at what is no cell. -/
theorem chain_of_kind (ha : h.kind a ≠ .cell) (n : ℕ) :
    h.chain (n + 1) a = ⟨[], if h.kind a = .nothing then none else some (h.kind a)⟩ := by
  revert ha
  unfold chain kind
  cases h.body a <;> simp [Body.kind]

namespace Rewritten

/-- Nothing has been written. -/
theorem of_body (hsize : h.blocks.size ≤ g.blocks.size)
    (hlive : ∀ {a}, a < h.blocks.size → g.Live a → h.Live a)
    (hmarks : ∀ {a b b'}, h.block? a = some b → g.block? a = some b' →
      b'.permanent = b.permanent ∧ b'.frozen = b.frozen)
    (hbody : ∀ {a}, h.Live a → g.Live a → g.body a = h.body a) : h.Rewritten g x none where
  size_le := hsize
  live := hlive
  marks := hmarks
  list hh hg hx := by rw [kind, hbody hh hg, ← kind, hx]
  body_eq hh hg _ := hbody hh hg

/-- One after the other. -/
theorem trans {u v : Option CellWrite} (hh : h.Rewritten k x u) (hg : k.Rewritten g x v)
    (hw : ∀ a body, (Body.after body u a).after v a = body.after w a) : h.Rewritten g x w where
  size_le := hh.size_le.trans hg.size_le
  live ha hlive := hh.live ha (hg.live (ha.trans_le hh.size_le) hlive)
  marks {a b b'} hb hb' := by
    have hlive : h.Live a := ⟨b, hb⟩
    obtain ⟨b'', hb''⟩ := hg.live (hlive.lt_size.trans_le hh.size_le) ⟨b', hb'⟩
    obtain ⟨hp, hf⟩ := hh.marks hb hb''
    obtain ⟨hp', hf'⟩ := hg.marks hb'' hb'
    exact ⟨hp'.trans hp, hf'.trans hf⟩
  list hlive hlive' hx :=
    -- a list is followed through the heap in between, where it lives as well
    have hmid := hg.live (hlive.lt_size.trans_le hh.size_le) hlive'
    hg.list hmid hlive' (hh.list hlive hmid hx)
  body_eq {a} hlive hlive' hax := by
    have hmid := hg.live (hlive.lt_size.trans_le hh.size_le) hlive'
    rw [hg.body_eq hmid hlive' hax, hh.body_eq hlive hmid hax, hw]


/-- Nothing more is written. -/
theorem also (hw : h.Rewritten k x w) (hg : k.Rewritten g x none) : h.Rewritten g x w :=
  hw.trans hg fun _ _ => rfl

/-- Nothing was written before. -/
theorem before (hk : h.Rewritten k x none) (hw : k.Rewritten g x w) : h.Rewritten g x w :=
  hk.trans hw fun _ _ => rfl

/-! ### Elementary steps -/

theorem of_thins (hh : h.Thins g) : h.Rewritten g x none where
  size_le := hh.size_le
  live ha hlive := (hh.live_or hlive).resolve_right (Nat.not_le_of_lt ha)
  marks {a b b'} hb hb' := by
    rcases hh.old hb' with ⟨b₀, hb₀, heq⟩ | ⟨hle, -⟩
    · obtain rfl := Option.some.inj (hb₀.symm.trans hb)
      rw [heq]
      exact ⟨rfl, rfl⟩
    · exact absurd (show h.Live a from ⟨b, hb⟩).lt_size (Nat.not_lt_of_le hle)
  list _ hlive hx := by rw [kind, hh.body_eq hlive, ← kind, hx]
  body_eq _ hlive _ := hh.body_eq hlive

theorem marks_modify {f : Block → Block} {b b' : Block}
    (hf : ∀ b, (f b).permanent = b.permanent ∧ (f b).frozen = b.frozen)
    (hb : h.block? c = some b) (hb' : (h.modify a f).block? c = some b') :
    b'.permanent = b.permanent ∧ b'.frozen = b.frozen := by
  rw [block?_modify, hb] at hb'
  split at hb'
  · obtain rfl := Option.some.inj hb'
    exact hf b
  · obtain rfl := Option.some.inj hb'
    exact ⟨rfl, rfl⟩

theorem retain (h : Heap) (a x : Addr) : h.Rewritten (h.retain a) x none :=
  of_body (size_blocks_modify ..).ge (fun _ => live_modify.mp) (marks_modify fun _ => ⟨rfl, rfl⟩)
    fun _ _ => body_retain ..

theorem alloc (h : Heap) (body : Body) (x : Addr) : h.Rewritten (h.alloc body).2 x none where
  size_le := by simp [Heap.alloc]
  live ha hlive := (live_alloc.mp hlive).resolve_left ha.ne
  marks {a b b'} hb hb' := by
    rw [block?_alloc, if_neg (show h.Live a from ⟨b, hb⟩).ne_size, hb] at hb'
    obtain rfl := Option.some.inj hb'
    exact ⟨rfl, rfl⟩
  list hlive _ hx := by rw [kind, body_alloc, if_neg hlive.ne_size, ← kind, hx]
  body_eq hlive _ _ := by rw [body_alloc, if_neg hlive.ne_size, Body.after_none]

theorem nothing (h : Heap) (x : Addr) : h.Rewritten h.nothing.2 x none :=
  (of_thins (.ensureNothing h)).also (retain ..)

theorem header (h : Heap) (x : Addr) (r : ListHeader) :
    h.Rewritten (h.setBody x (.list r)) x none where
  size_le := (size_blocks_modify ..).ge
  live _ := live_modify.mp
  marks := marks_modify fun _ => ⟨rfl, rfl⟩
  list hlive _ _ := by rw [kind, body_setBody hlive]; rfl
  body_eq _ _ hax := body_setBody_of_ne hax _

/-- One field of a cell is written. -/
theorem field (v : CellWrite) (hc : h.kind v.cell = .cell) (x : Addr) :
    h.Rewritten (h.setBody v.cell (v.apply (h.body v.cell))) x (some v) where
  size_le := (size_blocks_modify ..).ge
  live _ := live_modify.mp
  marks := marks_modify fun _ => ⟨rfl, rfl⟩
  list _ _ hx := by
    have hne : x ≠ v.cell := by
      -- a cell is no list
      rintro rfl
      exact absurd (hx.symm.trans hc) (by decide)
    rw [kind, body_setBody_of_ne hne, ← kind, hx]
  body_eq {a} hlive _ _ := by
    by_cases hac : a = v.cell
    · rw [hac, body_setBody (hac ▸ hlive)]
      exact (if_pos rfl).symm
    · rw [body_setBody_of_ne hac]
      exact (if_neg hac).symm

/-- The element of a cell is replaced, and the old one given up. -/
theorem setItem (hc : h.body c = .cell item n) (value x : Addr) :
    h.Rewritten (((h.retain value).setBody c (.cell value n)).release item) x
      (some (.item c value)) := by
  have hk : (h.retain value).kind c = .cell := by rw [kind, body_retain, hc, Body.kind]
  have hfield := field (.item c value) hk x
  rw [CellWrite.cell, body_retain, hc] at hfield
  exact ((retain ..).before hfield).also (of_thins (releaseAll_thins _ [item]))

/-- A cell is linked anew, some handles are given up, and the list gets its header. -/
theorem relink (hc : h.body c = .cell item n) (m : Addr) (as : List Addr) (x : Addr)
    (r : ListHeader) : h.Rewritten (h.relink c item m as x r) x (some (.link c m)) := by
  have hk : (h.retain m).kind c = .cell := by rw [kind, body_retain, hc, Body.kind]
  have hfield := field (.link c m) hk x
  rw [CellWrite.cell, body_retain, hc] at hfield
  exact (((retain ..).before hfield).also (of_thins (releaseAll_thins _ as))).also (header ..)


/-! ### The elements of the other lists -/

/-- A block that is left is of the kind that it was. -/
theorem kind_eq (hw : h.Rewritten g x w) (hx : h.kind x = .list) (ha : h.Live a)
    (hga : g.Live a) : g.kind a = h.kind a := by
  by_cases hax : a = x
  · subst hax
    rw [hw.list ha hga hx, hx]
  · rw [kind, hw.body_eq ha hga hax, Body.kind_after, kind]

/-- A walk that does not meet the cell finds the same cells, with the same elements. -/
theorem chain_eq (hw : h.Rewritten g x w) (hx : h.kind x = .list) (hh : h.Exact held)
    (hg : g.Exact held') (ha : h.Live a) (hga : g.Live a) (n : ℕ)
    (hmiss : ∀ v ∈ w, v.cell ∉ (h.chain n a).found) :
    g.chain n a = h.chain n a ∧ ∀ c ∈ (h.chain n a).found, g.itemOf c = h.itemOf c := by
  induction n generalizing a with
  | zero => exact ⟨rfl, by simp [chain]⟩
  | succ n ih =>
    by_cases hk : h.kind a = .cell
    · -- a cell that is not the one that has been written
      obtain ⟨item, next, hbody⟩ := exists_cell_of_kind hk
      have hwalk : h.chain (n + 1) a = ⟨a :: (h.chain n next).found, (h.chain n next).broken⟩ := by
        rw [chain, hbody]
      have hax : a ≠ x := by
        rintro rfl
        exact absurd (hx.symm.trans hk) (by decide)
      have hsame : g.body a = .cell item next := by
        rw [hw.body_eq ha hga hax, hbody]
        refine Body.after_of_ne (fun v hv hva => hmiss v hv ?_) _
        rw [hwalk, hva]
        exact List.mem_cons_self
      have hnext := hh.live_of_mem hbody (a := next) (by simp [Body.handles])
      have hgnext := hg.live_of_mem hsame (a := next) (by simp [Body.handles])
      obtain ⟨hchain, hitems⟩ := ih hnext hgnext fun v hv hmem => hmiss v hv (by
        rw [hwalk]
        exact List.mem_cons_of_mem a hmem)
      rw [hwalk]
      refine ⟨by rw [chain, hsame]; simp only [hchain], ?_⟩
      intro c hc
      rcases List.mem_cons.mp hc with rfl | hc
      · rw [itemOf, itemOf, hsame, hbody]
      · exact hitems c hc
    · have hgk : g.kind a = h.kind a := hw.kind_eq hx ha hga
      rw [chain_of_kind hk, chain_of_kind (hgk ▸ hk), hgk]
      exact ⟨rfl, by simp⟩

/-- **Another list has the elements that it had** if it does not walk over the cell that has been
written. -/
theorem elements_eq (hw : h.Rewritten g x w) (hx : h.kind x = .list) (hh : h.Exact held)
    (hg : g.Exact held') (hzx : z ≠ x) (hz : h.body z = .list l) (hlive : g.Live z)
    (hmiss : ∀ v ∈ w, v.cell ∉ (h.cells l).found) :
    g.body z = .list l ∧ g.elements z = h.elements z := by
  have hgz : g.body z = .list l := by
    rw [hw.body_eq (live_of_body hz (by simp)) hlive hzx, hz]
    exact Body.after_of_kind (by simp [Body.kind]) ..
  obtain ⟨hchain, hitems⟩ := hw.chain_eq hx hh hg (hh.live_of_mem hz List.mem_cons_self)
    (hg.live_of_mem hgz List.mem_cons_self) l.size hmiss
  refine ⟨hgz, ?_⟩
  unfold elements
  rw [hgz, hz]
  simp only [cells, hchain]
  rw [List.map_congr_left hitems]

end Rewritten
end Heap

/-! ### Lists made from a list -/

namespace Heap

variable {h g k : Heap} {held held' : Multiset Addr} {a c item n x y head : Addr}
  {l r : ListHeader} {new old items as cs : List Addr} {body : Body}

/-- **There are more blocks**, and no block that was there has changed, but for its count. -/
structure Grown (h g : Heap) (new : List Addr) : Prop where
  /-- No address is given out twice. -/
  size_le : h.blocks.size ≤ g.blocks.size
  /-- What was there is there, with its content and marks. -/
  block : ∀ {a b}, h.block? a = some b → ∃ n, b.count ≤ n ∧ g.block? a = some { b with count := n }
  /-- What is there was there or is new. -/
  live_iff : ∀ {a}, g.Live a ↔ h.Live a ∨ a ∈ new
  /-- What is new has a new place. -/
  fresh : ∀ a ∈ new, h.blocks.size ≤ a

namespace Grown

theorem refl (h : Heap) : h.Grown h [] where
  size_le := Nat.le_refl _
  block {_ b} hb := ⟨b.count, Nat.le_refl _, hb⟩
  live_iff := by simp
  fresh := by simp

theorem live (hg : h.Grown g new) (ha : h.Live a) : g.Live a := hg.live_iff.mpr (Or.inl ha)

theorem trans {later : List Addr} (hk : h.Grown k new) (hg : k.Grown g later) :
    h.Grown g (later ++ new) where
  size_le := hk.size_le.trans hg.size_le
  block {a b} hb := by
    obtain ⟨m, hm, hmid⟩ := hk.block hb
    obtain ⟨n, hn, hlast⟩ := hg.block hmid
    exact ⟨n, hm.trans hn, hlast⟩
  live_iff {a} := by
    rw [hg.live_iff, hk.live_iff, List.mem_append]
    tauto
  fresh a ha := by
    rcases List.mem_append.mp ha with ha | ha
    · exact hk.size_le.trans (hg.fresh a ha)
    · exact hk.fresh a ha

theorem retain (hg : h.Grown k new) (a : Addr) : h.Grown (k.retain a) new where
  size_le := hg.size_le.trans (size_blocks_modify ..).ge
  block {c b} hb := by
    obtain ⟨n, hn, hk⟩ := hg.block hb
    rw [block?_retain, hk]
    split
    · exact ⟨n + 1, by omega, rfl⟩
    · exact ⟨n, hn, rfl⟩
  live_iff := live_retain.trans hg.live_iff
  fresh := hg.fresh

theorem retainAll (hg : h.Grown k new) (as : List Addr) : h.Grown (k.retainAll as) new := by
  induction as generalizing k with
  | nil => exact hg
  | cons a as ih => exact ih (hg.retain a)

theorem alloc (hg : h.Grown k new) (body : Body) :
    h.Grown (k.alloc body).2 (k.blocks.size :: new) where
  size_le := hg.size_le.trans (by simp [Heap.alloc])
  block {a b} hb := by
    have hne := (hg.live ⟨b, hb⟩).ne_size
    obtain ⟨n, hn, hk⟩ := hg.block hb
    exact ⟨n, hn, by rw [block?_alloc, if_neg hne, hk]⟩
  live_iff {a} := by
    rw [live_alloc, hg.live_iff, List.mem_cons]
    tauto
  fresh a ha := by
    rcases List.mem_cons.mp ha with rfl | ha
    · exact hg.size_le
    · exact hg.fresh a ha

/-- Nothing has its place already. -/
theorem nothing (hg : h.Grown k new) (hn : k.nothingAt.isSome = true) :
    h.Grown k.nothing.2 new := by
  obtain ⟨a, ha⟩ := Option.isSome_iff_exists.mp hn
  have hnothing : k.nothing = (a, k.retain a) := by rw [Heap.nothing, ensureNothing, ha]
  rw [hnothing]
  exact hg.retain a

/-- The cells of a new chain are new. -/
theorem chainOf (hg : h.Grown k new) (hn : k.nothingAt.isSome = true)
    (hk : k.Exact (held + (items : Multiset Addr))) :
    ∃ cs, h.Grown (k.chainOf items).2 (cs ++ new) ∧
      (k.chainOf items).2.Chain (k.chainOf items).1 cs := by
  induction items generalizing held with
  | nil => exact ⟨[], hg.nothing hn, .nil hk.kind_nothing⟩
  | cons item items ih =>
    have hk : k.Exact (held + {item} + (items : Multiset Addr)) := by
      rwa [add_assoc, Multiset.singleton_add, Multiset.cons_coe]
    obtain ⟨cs, hgrown, hcs⟩ := ih hk
    have hexact := kept_exact.chainOf hk
    have hhead := hexact.live_of_held (a := (k.chainOf items).1) (by simp)
    rw [chainOf_cons]
    refine ⟨(k.chainOf items).2.blocks.size :: cs, hgrown.alloc _,
      .cons (n := (k.chainOf items).1) ?_ ?_⟩
    · exact next?_eq_some_iff.mpr ⟨item, (body_alloc ..).trans (if_pos rfl)⟩
    · exact (hexact.agreeOn_alloc _ _).chain hhead.ne_size hcs

theorem body_eq (hg : h.Grown g new) (ha : h.Live a) : g.body a = h.body a := by
  obtain ⟨b, hb⟩ := ha
  obtain ⟨n, -, hg⟩ := hg.block hb
  rw [body_of_block? hg, body_of_block? hb]

/-- Nothing has been written. -/
theorem rewritten (hg : h.Grown g new) (x : Addr) : h.Rewritten g x none := by
  refine .of_body hg.size_le (fun ha hlive => ?_) (fun hb hb' => ?_) fun hlive _ => hg.body_eq hlive
  · exact (hg.live_iff.mp hlive).resolve_right fun hnew => Nat.not_lt_of_le (hg.fresh _ hnew) ha
  · obtain ⟨n, -, hg⟩ := hg.block hb
    obtain rfl := Option.some.inj (hg.symm.trans hb')
    exact ⟨rfl, rfl⟩

end Grown

/-- **A list is made on cells of a list**, behind some new ones: it walks over these first, and then
over the old ones.  No block that was there has changed. -/
structure Derived (h g : Heap) (y : Addr) (new old items : List Addr) : Prop where
  /-- The list and the new cells are made, and nothing else. -/
  grown : h.Grown g (y :: new)
  /-- The list walks over the cells. -/
  cells : ∃ r, g.body y = .list r ∧ (g.cells r).found = new ++ old
  /-- The elements. -/
  items : (g.elements y).found = items

/-- The elements are the ones in the cells. -/
theorem Grown.derived (hg : h.Grown g (y :: new)) (as old : List Addr) (hy : g.body y = .list r)
    (hcells : (g.cells r).found = new ++ old) (hnew : new.map g.itemOf = as)
    (hold : ∀ c ∈ old, g.itemOf c = h.itemOf c) :
    h.Derived g y new old (as ++ old.map h.itemOf) := by
  refine ⟨hg, ⟨r, hy, hcells⟩, ?_⟩
  unfold elements
  rw [hy]
  simp only [hcells, List.map_append, hnew, List.map_congr_left hold]

/-- A walk of fewer steps finds the first cells. -/
theorem take_found_chain {m : ℕ} (hm : m ≤ n) :
    (h.chain n a).found.take m = (h.chain m a).found := by
  induction n generalizing a m with
  | zero =>
    obtain rfl := Nat.le_zero.mp hm
    rfl
  | succ n ih =>
    cases m with
    | zero => rfl
    | succ m =>
      rw [chain, chain]
      cases h.body a with
      | cell item next => simp only [List.take_succ_cons, ih (Nat.le_of_succ_le_succ hm)]
      | _ => rfl

/-- All cells but the first are found from the next link on. -/
theorem tail_found_cells (hc : h.body l.head = .cell item n) :
    (h.cells l).found.tail = (h.chain (l.size - 1) n).found := by
  unfold Heap.cells
  cases l.size with
  | zero => rfl
  | succ k =>
    rw [chain, hc]
    rfl

theorem found_elements_of_list (hx : h.body x = .list l) :
    (h.elements x).found = (h.cells l).found.map h.itemOf := by
  rw [elements, hx]

theorem grown_headed (h : Heap) (head : Addr) (size : ℕ) :
    h.Grown (h.headed head size).2 [(h.headed head size).1] :=
  ((Grown.refl h).retainAll _).alloc _

namespace Exact

/-- A new list on links that are there. -/
theorem derived_headed {size : ℕ} (hh : h.Exact held)
    (hg : (h.headed head size).2.Exact held') (hx : h.kind x = .list) (hhead : h.Live head) :
    h.Derived (h.headed head size).2 (h.headed head size).1 [] (h.chain size head).found
      ((h.chain size head).found.map h.itemOf) := by
  have hgrown := grown_headed h head size
  obtain ⟨hchain, hitems⟩ := (hgrown.rewritten x).chain_eq hx hh hg hhead (hgrown.live hhead) size
    (by simp)
  exact hgrown.derived [] _ ((body_alloc ..).trans (if_pos rfl)) (by rw [cells, hchain]; rfl)
    rfl hitems

/-- A new list with a new cell in front of the ones that are there. -/
theorem derived_consed (hh : h.Exact held) (hg : (h.consed value l.head l.size).2.Exact held')
    (hx : h.body x = .list l) :
    h.Derived (h.consed value l.head l.size).2 (h.consed value l.head l.size).1
      [(h.withFirst value l.head).1] (h.cells l).found (value :: (h.elements x).found) := by
  -- first there is the cell in front, and then the header that leads to it
  have hcell : h.Grown (h.withFirst value l.head).2 [(h.withFirst value l.head).1] :=
    ((Grown.refl h).retainAll _).alloc _
  have hgrown : h.Grown (h.consed value l.head l.size).2
      [(h.consed value l.head l.size).1, (h.withFirst value l.head).1] := hcell.alloc _
  have hhead := hh.live_of_mem hx List.mem_cons_self
  obtain ⟨hchain, hitems⟩ := (hgrown.rewritten x).chain_eq (by rw [kind, hx, Body.kind]) hh hg hhead
    (hgrown.live hhead) l.size (by simp)
  have hbody : (h.consed value l.head l.size).2.body (h.withFirst value l.head).1
      = .cell value l.head := by
    have hlive : (h.withFirst value l.head).2.Live (h.withFirst value l.head).1 :=
      hcell.live_iff.mpr (Or.inr List.mem_cons_self)
    rw [consed, body_alloc, if_neg hlive.ne_size]
    exact (body_alloc ..).trans (if_pos rfl)
  have hderived := hgrown.derived [value] (h.cells l).found
    ((body_alloc ..).trans (if_pos rfl))
    (by rw [cells, chain, hbody]; simp only [hchain]; rfl)
    (by rw [List.map_singleton, itemOf, hbody]; rfl) hitems
  -- the new element is in the new cell, and the others are those of the old chain
  rwa [← found_elements_of_list hx] at hderived

/-- A new list on new cells. -/
theorem derived_listOf (hh : h.Exact held) (hitems : ∀ a ∈ items, h.Live a)
    (hn : h.nothingAt.isSome = true) :
    ∃ cs, h.Derived ((h.retainAll items).listOf items).2 ((h.retainAll items).listOf items).1 cs []
      items := by
  have hk : (h.retainAll items).Exact (held + (items : Multiset Addr)) :=
    kept_exact.retainAll hh hitems
  obtain ⟨cs, hgrown, hcs⟩ := ((Grown.refl h).retainAll items).chainOf
    (by rwa [nothingAt_retainAll]) hk
  have hexact := kept_exact.chainOf hk
  have hhead := hexact.live_of_held (a := ((h.retainAll items).chainOf items).1) (by simp)
  obtain ⟨head, ds, hnew⟩ := hk.unshared_listOf
  rw [listOf_eq] at hnew ⊢
  set k := ((h.retainAll items).chainOf items).2
  -- the cells of the chain are the cells of the list
  have hheader := Body.list.inj (hnew.body.symm.trans ((body_alloc ..).trans (if_pos rfl)))
  obtain rfl := congrArg ListHeader.head hheader
  obtain rfl := hnew.chain.unique ((hexact.agreeOn_alloc _ _).chain hhead.ne_size hcs)
  rw [List.append_nil] at hgrown
  refine ⟨ds, ?_⟩
  have hderived := (hgrown.alloc _).derived _ [] hnew.body
    (by rw [hnew.cells_eq, List.append_nil]) hnew.items (by simp)
  rwa [List.map_nil, List.append_nil] at hderived

end Exact

end Heap

end SharedValues
