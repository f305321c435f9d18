import SharedValues.Proofs.Chain.Shared
import SharedValues.Proofs.Query.Symmetry

/-!
# Members of a sequence

Whether a value is a member of a sequence, and what is left of the sequence from the first such
member on, is found by two searches that compare the elements one after the other.  In a list they
have the elements on different sides.  Each comparison may settle words that the next one looks at,
but as it settles the same ones whichever side a value is on, both searches come to the same place.

What is left of a list from there on stands on the cells of the list, which are counted anew.  The
size that is found so is the number of elements, because a chain that ends has no cell twice.

## Main definitions

* `Heap.Sought` — the elements before the first one that equals a value, and the others.
* `Heap.Portion` — a value has what is left of a sequence from some place on.

## Main results

* `run_firstMatch` — the search for an element, whichever side the elements are on.
* `membership_agrees` — a value is a member exactly if something is left from it on.
-/

namespace SharedValues

open Heap Operation

namespace Heap

variable {h g : Heap} {σ τ : Settled} {ignoreCase : Bool} {value e x y : Addr}
  {before rest es slots : List Addr} {held held' : Multiset Addr} {l : ListHeader}

/-! ### The search -/

/-- A value is compared with another one, with the same answer and the same words settled whichever
way round. -/
def Compares (h : Heap) (ignoreCase : Bool) (value e : Addr) (σ : Settled) (r : Bool)
    (τ : Settled) : Prop :=
  (h.equal ignoreCase e value).run σ = (.ok r, τ) ∧ (h.equal ignoreCase value e).run σ = (.ok r, τ)

/-- **The search for a value among some elements**: one after the other, those in `before` turn out
to differ from it, and the first of `rest` to equal it, if any is left. -/
inductive Sought (h : Heap) (ignoreCase : Bool) (value : Addr) :
    Settled → List Addr → List Addr → Settled → Prop
  | none {σ : Settled} : Sought h ignoreCase value σ [] [] σ
  | found {σ τ : Settled} {e : Addr} {es : List Addr}
      (he : h.Compares ignoreCase value e σ true τ) : Sought h ignoreCase value σ [] (e :: es) τ
  | skip {σ τ υ : Settled} {e : Addr} {before rest : List Addr}
      (he : h.Compares ignoreCase value e σ false τ)
      (hrest : Sought h ignoreCase value τ before rest υ) :
      Sought h ignoreCase value σ (e :: before) rest υ

/-- The place of the first element that is left. -/
def placeOf (rest : List Addr) (i : ℕ) : Option ℕ := rest.head?.map fun _ => i

@[simp] theorem placeOf_nil (i : ℕ) : placeOf [] i = none := rfl

@[simp] theorem placeOf_cons (e : Addr) (es : List Addr) (i : ℕ) :
    placeOf (e :: es) i = some i := rfl

theorem isSome_placeOf (rest : List Addr) (i : ℕ) : (placeOf rest i).isSome = !rest.isEmpty := by
  cases rest <;> rfl

/-- A comparison has one answer whichever way round, or both break off. -/
theorem compares_or_breaks (hσ : σ.Valid h) (ignoreCase : Bool) (value e : Addr) :
    (∃ r τ, h.Compares ignoreCase value e σ r τ ∧ τ.Valid h) ∨
      ∃ f f' τ, h.Breaks f ∧ h.Breaks f' ∧ (h.equal ignoreCase e value).run σ = (.error f, τ) ∧
        (h.equal ignoreCase value e).run σ = (.error f', τ) := by
  have hends := endAlike_equal hσ ignoreCase e value
  unfold EndAlike at hends
  cases hleft : (h.equal ignoreCase e value).run σ with | mk r τ =>
  cases hright : (h.equal ignoreCase value e).run σ with | mk r' τ' =>
  rw [hleft, hright] at hends
  cases hends with
  | ok hvalid => exact .inl ⟨_, τ, ⟨hleft, hright⟩, hvalid⟩
  | error hf hf' => exact .inr ⟨_, _, τ, hf, hf', rfl, rfl⟩

/-- **Both searches come to the same place**, or both break off. -/
theorem run_firstMatch (hσ : σ.Valid h) (ignoreCase : Bool) (value : Addr) (es : List Addr)
    (i : ℕ) :
    (∃ before rest τ, es = before ++ rest ∧ h.Sought ignoreCase value σ before rest τ ∧
      (firstMatch (fun e => h.equal ignoreCase e value) es none i).run σ
        = (.ok (placeOf rest (i + before.length)), τ) ∧
      (firstMatch (fun e => h.equal ignoreCase value e) es none i).run σ
        = (.ok (placeOf rest (i + before.length)), τ)) ∨
    ∃ f f' τ, h.Breaks f ∧ h.Breaks f' ∧
      (firstMatch (fun e => h.equal ignoreCase e value) es none i).run σ = (.error f, τ) ∧
      (firstMatch (fun e => h.equal ignoreCase value e) es none i).run σ = (.error f', τ) := by
  induction es generalizing σ i with
  | nil => exact .inl ⟨[], [], σ, rfl, .none, rfl, rfl⟩
  | cons e es ih =>
    rw [firstMatch, firstMatch, run_bind, run_bind]
    rcases compares_or_breaks hσ ignoreCase value e with
      ⟨r, τ, he, hτ⟩ | ⟨f, f', τ, hf, hf', hleft, hright⟩
    -- either both directions end with one answer, or both break at a nested chain
    · rw [he.1, he.2]
      cases r with
      | true => exact .inl ⟨[], e :: es, τ, rfl, .found he, rfl, rfl⟩
      | false =>
        rcases ih hτ (i + 1) with ⟨before, rest, υ, rfl, hrest, hleft, hright⟩ | hbreak
        · have hplace : i + 1 + before.length = i + (e :: before).length := by
            rw [List.length_cons]
            omega
          rw [hplace] at hleft hright
          exact .inl ⟨e :: before, rest, υ, rfl, .skip he hrest, hleft, hright⟩
        -- a break among the later elements is one of the walk
        · exact .inr hbreak
    · rw [hleft, hright]
      exact .inr ⟨f, f', τ, hf, hf', rfl, rfl⟩

/-! ### What is left from a place on -/

/-- **The value `y` has what is left** of the sequence `x` from the place `k` on, the elements
`rest`.  It is the one new block.  A list stands on cells of the list `x`, and an array has the
origin of the array `x`. -/
structure Portion (h g : Heap) (x y : Addr) (k : ℕ) (rest : List Addr) : Prop where
  /-- No other block is made, and none is changed. -/
  grown : h.Grown g [y]
  /-- The elements. -/
  elements : (g.elements y).found = rest
  /-- Whether there are any. -/
  isEmpty : Sequence.isEmpty y g = pure rest.isEmpty
  /-- A list has the cells of `x` from the place on, and the number of elements as its size. -/
  list : ∀ l cs, h.body x = .list l → h.Chain l.head cs →
    ∃ head, g.Listed y head (cs.drop k) rest
  /-- An array has the origin of `x`. -/
  array : ∀ origin slots, h.body x = .array origin slots → g.body y = .array origin rest

theorem Listed.portion {cs : List Addr} {k : ℕ} {head : Addr}
    (hy : g.Listed y head (cs.drop k) rest) (hgrown : h.Grown g [y]) (hx : h.body x = .list l)
    (hcs : h.Chain l.head cs) : h.Portion g x y k rest where
  grown := hgrown
  elements := by rw [found_elements_of_list hy.body, hy.cells_eq, hy.items]
  isEmpty := by
    rw [Sequence.isEmpty, hy.body, ← hy.isNothing_head]
  list l' cs' hx' hcs' := by
    obtain rfl := Body.list.inj (hx.symm.trans hx')
    obtain rfl := hcs.unique hcs'
    exact ⟨head, hy⟩
  array origin slots hx' := by
    rw [hx] at hx'
    exact absurd hx' (by simp)

theorem portion_of_array {origin : ℤ} {k : ℕ} (hgrown : h.Grown g [y])
    (hx : h.body x = .array origin slots) (hy : g.body y = .array origin rest) :
    h.Portion g x y k rest where
  grown := hgrown
  elements := by rw [Heap.elements, hy]
  isEmpty := by rw [Sequence.isEmpty, hy]
  list l cs hx' := by
    rw [hx] at hx'
    exact absurd hx' (by simp)
  array origin' slots' hx' := by
    rw [hx] at hx'
    obtain ⟨rfl, -⟩ := Body.array.inj hx'
    exact hy

/-- Where a chain ends, there is nothing. -/
theorem Exact.isSome_nothingAt {head : Addr} {cs : List Addr} (hh : h.Exact held)
    (hcs : h.Chain head cs) (hlive : h.Live head) : h.nothingAt.isSome = true := by
  induction hcs with
  | nil hk =>
    rw [hh.nothingAt_of_kind hlive hk]
    rfl
  | cons hn _ ih => exact ih (hh.live_next hn)

/-- A new header on the cells from some place on. -/
theorem Exact.portion_headed {cs : List Addr} {k : ℕ} (hh : h.Exact held)
    (hx : h.body x = .list l) (hcs : h.Chain l.head cs) (hk : k < cs.length) :
    h.Portion (h.headed cs[k] (cs.length - k)).2 x (h.headed cs[k] (cs.length - k)).1 k
      ((cs.drop k).map h.itemOf) := by
  have hchain := (hcs.nth (hcs.nth_of_getElem? (List.getElem?_eq_getElem hk))).1
  have hlive := hcs.live_of_mem (List.getElem_mem hk)
  have hsized : h.Sized cs[k] (cs.length - k) := fun _ => List.length_drop ▸ hchain.measures
  have hnothing := hh.isSome_nothingAt hchain hlive
  set made := h.headed cs[k] (cs.length - k) with hmade
  have hg : made.2.Exact (held + {made.1}) := kept_exact.create hh
    (by simpa [Body.handles] using hlive) (.list hsized fun _ => hnothing)
  have hgrown : h.Grown made.2 [made.1] := grown_headed ..
  -- the cells are the old ones, with their elements
  obtain ⟨hnew, hitems⟩ := hchain.congr hh hg hlive (hgrown.live hlive) fun a ha _ =>
    hgrown.body_eq ha
  have hlisted : made.2.Listed made.1 cs[k] (cs.drop k) ((cs.drop k).map h.itemOf) := by
    refine ⟨?_, hnew, hitems⟩
    rw [List.length_map, List.length_drop, hmade]
    exact (body_alloc ..).trans (if_pos rfl)
  exact hlisted.portion hgrown hx hcs

/-- A new list without cells. -/
theorem Exact.portion_empty {cs : List Addr} (hh : h.Exact held) (hx : h.body x = .list l)
    (hcs : h.Chain l.head cs) : h.Portion (h.listOf []).2 x (h.listOf []).1 cs.length [] := by
  have hnothing := hh.isSome_nothingAt hcs (hh.live_of_mem hx List.mem_cons_self)
  have hgrown : h.Grown (h.listOf []).2 [(h.listOf []).1] :=
    ((Grown.refl h).nothing hnothing).alloc _
  have hunshared : ∃ head ds, (h.listOf []).2.Unshared held (h.listOf []).1 head ds [] :=
    Exact.unshared_listOf (by simpa using hh)
  obtain ⟨head, ds, hnew⟩ := hunshared
  obtain rfl := List.eq_nil_of_length_eq_zero hnew.length_eq
  have hlisted : (h.listOf []).2.Listed (h.listOf []).1 head (cs.drop cs.length) [] := by
    rw [List.drop_length]
    exact hnew.toListed
  exact hlisted.portion hgrown hx hcs

/-- A copy of the slots from some place on. -/
theorem portion_copy {origin : ℤ} (hx : h.body x = .array origin slots) (k : ℕ) :
    h.Portion ((h.retainAll rest).alloc (.array origin rest)).2 x
      ((h.retainAll rest).alloc (.array origin rest)).1 k rest :=
  portion_of_array (((Grown.refl h).retainAll _).alloc _) hx ((body_alloc ..).trans (if_pos rfl))

end Heap

/-! ### Membership -/

section Membership

variable {s : Store} {held : Multiset Addr} {x value : Addr} {ignoreCase : Bool} {l : ListHeader}
  {origin : ℤ} {slots before rest cs : List Addr} {τ : Settled}

/-- The first cell with an element that equals the value starts what is left of a list. -/
theorem Heap.Exact.run_list_fromMember (hh : s.heap.Exact held) (hx : s.heap.body x = .list l)
    (hcs : s.heap.Chain l.head cs) (hsize : l.size = cs.length)
    (hitems : cs.map s.heap.itemOf = before ++ rest)
    (hfind : (s.heap.memberAt ignoreCase x value).run s.settled
      = (.ok (placeOf rest before.length), τ)) :
    ∃ y t, (l.fromMember ignoreCase x value).run s = (.ok y, t) ∧ t.settled = τ ∧
      s.heap.Portion t.heap x y before.length rest := by
  -- the place found is within the chain, and behind it there is a cell for each item that is left
  have hlength : cs.length = before.length + rest.length := by
    rw [← List.length_append, ← hitems, List.length_map]
  refine Ensures.exists_ok (ensures_bind.mpr ((ensures_ask_of_ok hfind).mpr ?_))
  cases rest with
  | nil =>
    refine ensures_make.mpr ⟨rfl, ?_⟩
    have hportion := hh.portion_empty hx hcs
    rwa [hlength] at hportion
  | cons e es =>
    have hk : before.length < cs.length := by
      rw [hlength, List.length_cons]
      omega
    have hhead : (s.heap.cells l).found.getD before.length l.head = cs[before.length] := by
      rw [cells, hcs.chain_eq, hsize, List.take_length, List.getD_eq_getElem?_getD,
        List.getElem?_eq_getElem hk, Option.getD_some]
    have hchain := (hcs.nth (hcs.nth_of_getElem? (List.getElem?_eq_getElem hk))).1
    -- the list made there counts its cells anew, and finds those behind the place
    have hcount : ListHeader.distinctCells cs[before.length] s.heap
        = .ok (cs.length - before.length) := by
      rw [ListHeader.distinctCells, hchain.lap_eq, ← List.length_drop]
      rfl
    refine ensures_bind.mpr (ensures_look.mpr ?_)
    rw [hhead]
    refine ensures_bind.mpr ((ensures_check_of_ok (s := { s with settled := τ }) hcount).mpr ?_)
    refine ensures_create.mpr ⟨rfl, ?_⟩
    have hportion := hh.portion_headed hx hcs hk
    rwa [List.map_drop, hitems, List.drop_left] at hportion

/-- The slots from the first one on that equals the value are copied. -/
theorem run_row_fromMember (hx : s.heap.body x = .array origin (before ++ rest))
    (hfind : (s.heap.memberAt ignoreCase x value).run s.settled
      = (.ok (placeOf rest before.length), τ)) :
    ∃ y t, (Row.fromMember ignoreCase x ⟨origin, before ++ rest⟩ value).run s = (.ok y, t) ∧
      t.settled = τ ∧ s.heap.Portion t.heap x y before.length rest := by
  have hdrop : (before ++ rest).drop ((placeOf rest before.length).getD (before ++ rest).length)
      = rest := by
    cases rest with
    | nil => simp
    | cons e es => simp
  refine Ensures.exists_ok (ensures_bind.mpr ((ensures_ask_of_ok hfind).mpr ?_))
  rw [hdrop]
  exact ensures_create.mpr ⟨rfl, portion_copy hx _⟩

theorem run_memberAt (hfault : (s.heap.elements x).fault? = none) {r : Except Fault (Option ℕ)}
    (hfind : (firstMatch (fun e => s.heap.equal ignoreCase e value) (s.heap.elements x).found none
      0).run s.settled = (r, τ)) :
    (s.heap.memberAt ignoreCase x value).run s.settled = (r, τ) := by
  rw [memberAt, hfault, hfind]

/-- In a list the value is compared with the elements. -/
theorem run_isMember_list (hx : s.heap.body x = .list l)
    (hfault : (s.heap.elements x).fault? = none) {r : Except Fault (Option ℕ)}
    (hfind : (firstMatch (fun e => s.heap.equal ignoreCase value e) (s.heap.elements x).found none
      0).run s.settled = (r, τ)) :
    (s.heap.isMember ignoreCase x value).run s.settled = (r.map Option.isSome, τ) := by
  rw [isMember, hx]
  dsimp only
  rw [hfault, run_bind, hfind]
  cases r <;> rfl

/-- In an array the elements are compared with the value. -/
theorem run_isMember_array (hx : s.heap.body x = .array origin slots) {r : Except Fault (Option ℕ)}
    (hfind : (s.heap.memberAt ignoreCase x value).run s.settled = (r, τ)) :
    (s.heap.isMember ignoreCase x value).run s.settled = (r.map Option.isSome, τ) := by
  rw [isMember, hx, run_bind, hfind]
  cases r <;> rfl

theorem run_fromMember_list (hx : s.heap.body x = .list l) :
    (Sequence.fromMember ignoreCase x value).run s = (l.fromMember ignoreCase x value).run s := by
  rw [Sequence.fromMember, run_look_bind, hx]

theorem run_fromMember_array (hx : s.heap.body x = .array origin slots) :
    (Sequence.fromMember ignoreCase x value).run s =
      (Row.fromMember ignoreCase x { origin, slots } value).run s := by
  rw [Sequence.fromMember, run_look_bind, hx]

/-- **Membership and the part from a member on agree.**  The list has a chain that ends, and its
size is the length of the chain; or it is an array.  Either the elements are some that differ from
the value and, after those, some that begin with one that equals it or none at all; then the value
is a member exactly if some are left, and these are what is given back, by a list on the own cells
or by an array with the same origin.  Or else one of the comparisons meets a list below the elements
whose chain breaks off, and then both operations do.  The words that are settled are the same. -/
theorem membership_agrees (hh : s.heap.Exact held) (hσ : s.settled.Valid s.heap)
    (hseq : s.heap.IsSequence x)
    (hsize : ∀ l, s.heap.body x = .list l → ∃ cs, s.heap.Chain l.head cs ∧ l.size = cs.length)
    (ignoreCase : Bool) (value : Addr) :
    (∃ before rest τ, (s.heap.elements x).found = before ++ rest ∧
      s.heap.Sought ignoreCase value s.settled before rest τ ∧
      (s.heap.isMember ignoreCase x value).run s.settled = (.ok (!rest.isEmpty), τ) ∧
      ∃ y t, (Sequence.fromMember ignoreCase x value).run s = (.ok y, t) ∧ t.settled = τ ∧
        s.heap.Portion t.heap x y before.length rest) ∨
    ∃ f f' τ, s.heap.Breaks f ∧ s.heap.Breaks f' ∧
      (s.heap.isMember ignoreCase x value).run s.settled = (.error f, τ) ∧
      (Sequence.fromMember ignoreCase x value).run s = (.error f', { s with settled := τ }) := by
  -- the chain of the sequence itself is linked, so only a nested one can break
  have hfault : (s.heap.elements x).fault? = none := fault?_elements fun l hx => by
    obtain ⟨cs, hcs, -⟩ := hsize l hx
    exact hcs.linked
  have hsearch := run_firstMatch hσ ignoreCase value (s.heap.elements x).found 0
  simp only [Nat.zero_add] at hsearch
  rcases hseq with hkind | hkind
  · obtain ⟨l, hx⟩ := exists_list_of_kind hkind
    obtain ⟨cs, hcs, hlength⟩ := hsize l hx
    have hitems : (s.heap.elements x).found = cs.map s.heap.itemOf := by
      rw [found_elements_of_list hx, cells, hcs.chain_eq, hlength, List.take_length]
    -- a list tells membership and place by comparing in opposite directions
    rw [run_fromMember_list hx]
    rcases hsearch with
      ⟨before, rest, τ, hfound, hsought, hleft, hright⟩ | ⟨f, f', τ, hf, hf', hleft, hright⟩
    · have hmember := run_isMember_list hx hfault hright
      rw [Except.map, isSome_placeOf] at hmember
      exact .inl ⟨before, rest, τ, hfound, hsought, hmember,
        hh.run_list_fromMember hx hcs hlength (hitems ▸ hfound) (run_memberAt hfault hleft)⟩
    · refine .inr ⟨f', f, τ, hf', hf, run_isMember_list hx hfault hright, ?_⟩
      rw [ListHeader.fromMember, run_bind, run_ask (run_memberAt hfault hleft)]
  · obtain ⟨origin, slots, hx⟩ := exists_array_of_kind hkind
    have hslots : (s.heap.elements x).found = slots := by rw [Heap.elements, hx]
    -- an array compares in one direction for both
    rw [run_fromMember_array hx]
    rcases hsearch with
      ⟨before, rest, τ, hfound, hsought, hleft, -⟩ | ⟨f, -, τ, hf, -, hleft, -⟩
    · have hfind := run_memberAt hfault hleft
      have hmember := run_isMember_array hx hfind
      rw [Except.map, isSome_placeOf] at hmember
      obtain rfl : slots = before ++ rest := hslots.symm.trans hfound
      exact .inl ⟨before, rest, τ, hfound, hsought, hmember, run_row_fromMember hx hfind⟩
    · have hfind := run_memberAt hfault hleft
      refine .inr ⟨f, f, τ, hf, hf, run_isMember_array hx hfind, ?_⟩
      rw [Row.fromMember, run_bind, run_ask hfind]

/-- The text `1.0` is the first member that equals the number one, and is found to be a number by
the search, whichever search it is.  What is left of the list stands on the second cell. -/
theorem number_among_texts :
    let s := (Session.run [
      .make (.list [.text "a" false, .text "1.0" false, .text "b" false]) ⟨some "x", true⟩,
      .make (.number (.ofNat 1)) ⟨some "v", true⟩] {}).2.store
    s.settled.Valid s.heap ∧ s.heap.IsSequence 7 ∧
      (∀ l, s.heap.body 7 = .list l → ∃ cs, s.heap.Chain l.head cs ∧ l.size = cs.length) ∧
      ∃ τ y t, (s.heap.isMember false 7 8).run s.settled = (.ok true, τ) ∧
        s.heap.Sought false 8 s.settled [0] [1, 2] τ ∧ τ.contains 1 = true ∧
        (Sequence.fromMember false 7 8).run s = (.ok y, t) ∧ t.settled = τ ∧
        s.heap.Portion t.heap 7 y 1 [1, 2] := by
  intro s
  have hbody : s.heap.body 7 = .list ⟨6, 3, 0, []⟩ := by decide +kernel
  have hcells : s.heap.kind 3 = .nothing ∧ s.heap.next? 6 = some 5 ∧ s.heap.next? 5 = some 4 ∧
      s.heap.next? 4 = some 3 := by decide +kernel
  obtain ⟨h3, h6, h5, h4⟩ := hcells
  have hchain : s.heap.Chain 6 [6, 5, 4] := .cons h6 (.cons h5 (.cons h4 (.nil h3)))
  have hseq : s.heap.IsSequence 7 := .inl (by rw [Heap.kind, hbody]; rfl)
  have hsize : ∀ l, s.heap.body 7 = .list l →
      ∃ cs, s.heap.Chain l.head cs ∧ l.size = cs.length := by
    intro l hl
    obtain rfl := Body.list.inj (hbody.symm.trans hl)
    exact ⟨_, hchain, rfl⟩
  have hvalid : s.settled.Valid s.heap := (Session.backed_run _).valid
  have hruns : ((s.heap.isMember false 7 8).run s.settled).1 = .ok true ∧
      ((s.heap.isMember false 7 8).run s.settled).2.contains 1 = true ∧
      ((Sequence.fromMember false 7 8).run s).1 = .ok 9 ∧
      (((Sequence.fromMember false 7 8).run s).2.heap.elements 9).found = [1, 2] ∧
      (s.heap.elements 7).found = [0] ++ [1, 2] := by decide +kernel
  obtain ⟨hmember, hsettled, hmade, hleft, helements⟩ := hruns
  refine ⟨hvalid, hseq, hsize, ?_⟩
  have hexact : ∃ held, s.heap.Exact held := ⟨_, Session.exact_run _⟩
  clear_value s
  obtain ⟨held, hexact⟩ := hexact
  rcases membership_agrees hexact hvalid hseq hsize false 8 with
    ⟨before, rest, τ, hfound, hsought, hrun, y, t, hrun', ht, hportion⟩ | ⟨f, f', τ, -, -, hrun, -⟩
  · rw [hrun] at hsettled
    rw [hrun'] at hmade hleft
    obtain rfl : y = 9 := Except.ok.inj hmade
    obtain rfl : rest = [1, 2] := hportion.elements.symm.trans hleft
    obtain rfl : before = [0] := (List.append_cancel_right (helements.symm.trans hfound)).symm
    exact ⟨τ, 9, t, hrun, hsought, hsettled, hrun', ht, hportion⟩
  · rw [hrun] at hmember
    exact absurd hmember (by simp)

end Membership

end SharedValues
