import Mathlib.Data.String.Basic
import SharedValues.Proofs.Session.Operation

/-!
# Registers and what they hold

Between two commands the handles held outside of the heap are those of the registers.  A register
that gets a new content gives up the handle it had; so that this is the only one, the registers are
kept in the order of their names.

## Main definitions

* `Registers.held` — the handles of the registers.
* `Session.Sound F extra` — the registers are in order, and `F` holds of the heap and of the handles
  of the registers and of the command under way.
* `Session.Owns F rs extra` — the same while the registers stay what they are.

## Main results

* `Registers.held_set`, `Registers.held_erase` — what changes when a register does.
* `Kept.step_put`, `Kept.step_keep`, `Kept.step_withOperand` — registers, results, second values.
-/

namespace SharedValues

/-! ### Registers -/

namespace Registers

variable {rs : Registers} {name : String} {x y : Holding}

/-- The handles of the registers. -/
def held (rs : Registers) : Multiset Addr := (rs.map (·.2.handle) : List Addr)

/-- The registers are in the strict order of their names. -/
def Sorted (rs : Registers) : Prop := rs.Pairwise fun r r' => r.1 < r'.1

@[simp] theorem held_cons (r : String × Holding) (rs : Registers) :
    held (r :: rs) = {r.2.handle} + held rs := rfl

/-- The handle of a register, if it is in use. -/
def handle? (rs : Registers) (name : String) : Multiset Addr :=
  ((rs.lookup name).toList.map Holding.handle : List Addr)

@[simp] theorem handle?_self (rs : Registers) : handle? ((name, x) :: rs) name = {x.handle} := by
  simp [handle?]

theorem handle?_of_ne {other : String} (hne : name ≠ other) :
    handle? ((other, x) :: rs) name = handle? rs name := by
  have hbeq : (name == other) = false := by simpa using hne
  simp [handle?, List.lookup_cons, hbeq]

theorem lookup_eq_none_of_lt (h : ∀ r ∈ rs, name < r.1) : rs.lookup name = none := by
  apply List.lookup_eq_none_iff.mpr
  intro r hr
  simpa using (h r hr).ne

/-- A new content takes the place of the old one. -/
theorem held_set (name : String) (x : Holding) (h : Sorted rs) :
    held (set name x rs) + handle? rs name = held rs + {x.handle} := by
  induction rs with
  | nil => simp [set, handle?, held]
  | cons r rs ih =>
    obtain ⟨other, y⟩ := r
    obtain ⟨hfirst, hrest⟩ := List.pairwise_cons.mp h
    rw [set]
    split
    · -- a register that is not in use goes in front of the first greater name
      next hlt =>
      have hnone : List.lookup name ((other, y) :: rs) = none := by
        apply lookup_eq_none_of_lt
        intro r hr
        rcases List.mem_cons.mp hr with rfl | hr
        · exact hlt
        · exact hlt.trans (hfirst r hr)
      simp only [handle?, hnone, held_cons, Option.toList_none, List.map_nil, Multiset.coe_nil]
      abel
    · split
      · next hname =>
        subst hname
        simp only [handle?_self, held_cons]
        abel
      · next hname =>
        rw [handle?_of_ne hname, held_cons, held_cons, add_assoc, ih hrest, add_assoc]

theorem mem_set {r : String × Holding} (hr : r ∈ set name x rs) : r = (name, x) ∨ r ∈ rs := by
  induction rs with
  | nil => exact Or.inl (by simpa [set] using hr)
  | cons r' rs ih =>
    rw [set] at hr
    split at hr
    · simpa using hr
    · split at hr
      · rcases List.mem_cons.mp hr with rfl | hr
        · exact Or.inl rfl
        · exact Or.inr (List.mem_cons_of_mem _ hr)
      · rcases List.mem_cons.mp hr with rfl | hr
        · exact Or.inr List.mem_cons_self
        · exact (ih hr).imp_right (List.mem_cons_of_mem _)

theorem Sorted.set (h : Sorted rs) : Sorted (set name x rs) := by
  induction rs with
  | nil => simp [Sorted, Registers.set]
  | cons r rs ih =>
    obtain ⟨other, y⟩ := r
    obtain ⟨hfirst, hrest⟩ := List.pairwise_cons.mp h
    rw [Registers.set]
    -- the entry goes before the first name that is greater, or replaces that of its own name
    split
    · next hlt =>
      refine List.pairwise_cons.mpr ⟨?_, h⟩
      intro r hr
      rcases List.mem_cons.mp hr with rfl | hr
      · exact hlt
      · exact hlt.trans (hfirst r hr)
    · next hnlt =>
      split
      · next hname =>
        subst hname
        exact List.pairwise_cons.mpr ⟨hfirst, hrest⟩
      · next hname =>
        refine List.pairwise_cons.mpr ⟨?_, ih hrest⟩
        intro r hr
        rcases mem_set hr with rfl | hr
        · exact lt_of_le_of_ne (not_lt.mp hnlt) (Ne.symm hname)
        · exact hfirst r hr

/-- An emptied register gives up its handle. -/
theorem held_erase (name : String) (h : Sorted rs) :
    held (erase name rs) + handle? rs name = held rs := by
  induction rs with
  | nil => simp [erase, handle?, held]
  | cons r rs ih =>
    obtain ⟨other, y⟩ := r
    obtain ⟨hfirst, hrest⟩ := List.pairwise_cons.mp h
    by_cases hname : name = other
    · subst hname
      -- the other registers have other names
      have hnone : rs.lookup name = none := lookup_eq_none_of_lt hfirst
      have ih := ih hrest
      simp only [handle?, hnone, Option.toList_none, List.map_nil, Multiset.coe_nil,
        add_zero] at ih
      have herase : erase name ((name, y) :: rs) = erase name rs := by simp [erase]
      rw [herase, handle?_self, held_cons, ih, add_comm]
    · have herase : erase name ((other, y) :: rs) = (other, y) :: erase name rs := by
        simp [erase, Ne.symm hname]
      rw [handle?_of_ne hname, herase, held_cons, held_cons, add_assoc, ih hrest]

@[simp] theorem lookup_set (rs : Registers) (name : String) (x : Holding) :
    (set name x rs).lookup name = some x := by
  induction rs with
  | nil => simp [set]
  | cons r rs ih =>
    rw [set]
    split
    · simp
    · split
      · simp
      · next hname => rw [List.lookup_cons, beq_false_of_ne hname, ih]

theorem lookup_set_of_ne {other : String} (hne : other ≠ name) :
    (set name x rs).lookup other = rs.lookup other := by
  induction rs with
  | nil => simp [set, List.lookup_cons, beq_false_of_ne hne]
  | cons r rs ih =>
    rw [set]
    split
    · rw [List.lookup_cons, beq_false_of_ne hne]
    · split
      · next hname =>
        subst hname
        rw [List.lookup_cons, List.lookup_cons, beq_false_of_ne hne]
      · rw [List.lookup_cons, List.lookup_cons, ih]

theorem lookup_erase_of_ne {other : String} (hne : other ≠ name) :
    (erase name rs).lookup other = rs.lookup other := by
  induction rs with
  | nil => rfl
  | cons r rs ih =>
    obtain ⟨key, y⟩ := r
    by_cases hkey : key = name
    · have herase : erase name ((key, y) :: rs) = erase name rs := by simp [erase, hkey]
      rw [herase, ih, List.lookup_cons, beq_false_of_ne (hkey ▸ hne)]
    · have herase : erase name ((key, y) :: rs) = (key, y) :: erase name rs := by
        simp [erase, hkey]
      rw [herase, List.lookup_cons, List.lookup_cons, ih]

/-- What a register held before makes no difference to the others. -/
@[simp] theorem erase_set (rs : Registers) (name : String) (x : Holding) :
    erase name (set name x rs) = erase name rs := by
  induction rs with
  | nil => simp [set, erase]
  | cons r rs ih =>
    rw [set]
    split
    · simp [erase]
    · split
      · next hname => simp [erase, hname]
      · rw [erase, List.filter_cons, ← erase, ih, erase, erase, List.filter_cons]

theorem Sorted.erase (h : Sorted rs) : Sorted (erase name rs) := h.filter _

/-- A register that is in use holds its handle. -/
theorem handle_mem_held (hx : rs.lookup name = some x) : x.handle ∈ held rs := by
  obtain ⟨l, r, rfl, -⟩ := List.lookup_eq_some_iff.mp hx
  simp [held]

/-- It does so without another one. -/
theorem handle_mem_held_erase {other : String} (hx : rs.lookup other = some x)
    (hne : other ≠ name) : x.handle ∈ held (erase name rs) := by
  obtain ⟨l, r, rfl, -⟩ := List.lookup_eq_some_iff.mp hx
  simp [held, erase, hne]

end Registers

/-! ### Sessions -/

/-- The handles held outside of the heap between two commands. -/
def Session.held (s : Session) : Multiset Addr := Registers.held s.registers

/-- **A session between two steps**: its registers are in order, and a property holds of the heap
and of the handles of the registers, with the ones in `extra` owned by the command under way. -/
structure Session.Sound (F : Multiset Addr → Heap → Prop) (extra : Multiset Addr) (s : Session) :
    Prop where
  /-- The registers are in order. -/
  sorted : s.registers.Sorted
  /-- The property holds. -/
  kept : F (s.held + extra) s.store.heap

/-- The same while a command leaves the registers as they were. -/
structure Session.Owns (F : Multiset Addr → Heap → Prop) (rs : Registers) (extra : Multiset Addr)
    (s : Session) : Prop where
  /-- The registers are what they were. -/
  registers_eq : s.registers = rs
  /-- The property holds. -/
  kept : F (rs.held + extra) s.store.heap

theorem Session.Sound.owns {F : Multiset Addr → Heap → Prop} {extra : Multiset Addr} {s : Session}
    (hs : s.Sound F extra) : s.Owns F s.registers extra :=
  ⟨rfl, hs.kept⟩

theorem Session.Owns.sound {F : Multiset Addr → Heap → Prop} {rs : Registers}
    {extra : Multiset Addr} {s : Session} (hs : s.Owns F rs extra) (hrs : rs.Sorted) :
    s.Sound F extra := by
  obtain ⟨rfl, hF⟩ := hs
  exact ⟨hrs, hF⟩

theorem Session.mem_held_of_value? {s : Session} {name : String} {a : Addr}
    (ha : s.value? name = some a) : a ∈ s.held := by
  unfold Session.value? at ha
  split at ha
  · next b hb =>
    obtain rfl := Option.some.inj ha
    exact Registers.handle_mem_held hb
  · exact absurd ha (by simp)

theorem Session.lookup_of_cursor? {s : Session} {name : String} {c : Cursor}
    (hc : s.cursor? name = some c) : s.registers.lookup name = some (.cursor c) := by
  unfold Session.cursor? at hc
  split at hc
  · next d hd =>
    obtain rfl := Option.some.inj hc
    exact hd
  · exact absurd hc (by simp)

theorem Session.value?_of_lookup {s : Session} {name : String} {a : Addr}
    (ha : s.registers.lookup name = some (.value a)) : s.value? name = some a := by
  rw [Session.value?, ha]

theorem Session.cursor?_of_lookup {s : Session} {name : String} {c : Cursor}
    (hc : s.registers.lookup name = some (.cursor c)) : s.cursor? name = some c := by
  rw [Session.cursor?, hc]

/-! ### Steps -/

section Steps

variable {α : Type} {s : Session} {Q : α → Session → Prop} {E : Fault → Session → Prop}

theorem run_on (op : Operation α) (s : Session) :
    (Step.on op).run s = ((op.run s.store).1, { s with store := (op.run s.store).2 }) := rfl

theorem ensures_on {op : Operation α} :
    Ensures (Step.on op) s Q E ↔
      Ensures op s.store (fun a t => Q a { s with store := t })
        (fun f t => E f { s with store := t }) := by
  unfold Ensures
  rw [run_on]
  rcases op.run s.store with ⟨_ | _, _⟩ <;> exact Iff.rfl

theorem ensures_step_holding {a : Addr} {step : Step α} :
    Ensures (Step.holding a step) s Q E ↔
      Ensures step s
        (fun b t => Q b { t with store := { t.store with heap := t.store.heap.release a } })
        (fun f t => E f { t with store := { t.store with heap := t.store.heap.release a } }) := by
  have hrun : (Step.holding a step).run s = ((step.run s).1, { (step.run s).2 with
      store := { (step.run s).2.store with heap := (step.run s).2.store.heap.release a } }) := rfl
  unfold Ensures
  rw [hrun]
  rcases step.run s with ⟨_ | _, _⟩ <;> exact Iff.rfl

theorem ensures_value {name : String} {Q : Addr → Session → Prop}
    (hQ : ∀ a, s.value? name = some a → Q a s) (hE : E (.unbound name) s) :
    Ensures (Step.value name) s Q E := by
  refine ensures_bind.mpr (ensures_get.mpr ?_)
  split
  · next a ha => exact ensures_pure.mpr (hQ a ha)
  · exact ensures_throw.mpr hE

theorem ensures_value_of {name : String} {x : Addr} {Q : Addr → Session → Prop}
    (hname : s.value? name = some x) (hQ : Q x s) : Ensures (Step.value name) s Q E := by
  refine ensures_bind.mpr (ensures_get.mpr ?_)
  rw [hname]
  exact ensures_pure.mpr hQ

theorem ensures_cursor {name : String} {Q : Cursor → Session → Prop}
    (hQ : ∀ c, s.registers.lookup name = some (.cursor c) → Q c s) (hE : E (.unbound name) s) :
    Ensures (Step.cursor name) s Q E := by
  refine ensures_bind.mpr (ensures_get.mpr ?_)
  split
  · next c hc => exact ensures_pure.mpr (hQ c (Session.lookup_of_cursor? hc))
  · exact ensures_throw.mpr hE

theorem ensures_bound {names : List String} {Q : Unit → Session → Prop} (hQ : Q () s)
    (hE : ∀ f, E f s) : Ensures (Step.bound names) s Q E := by
  refine ensures_bind.mpr (ensures_get.mpr ?_)
  split
  · exact ensures_throw.mpr (hE _)
  · exact ensures_pure.mpr hQ

theorem ensures_bound_of {names : List String} {Q : Unit → Session → Prop}
    (hnames : ∀ name ∈ names, (s.value? name).isSome) (hQ : Q () s) :
    Ensures (Step.bound names) s Q E := by
  have hfind : (names.find? fun name => (s.value? name).isNone) = none :=
    List.find?_eq_none.mpr fun name hname => by
      simpa [Option.isSome_iff_ne_none] using hnames name hname
  refine ensures_bind.mpr (ensures_get.mpr ?_)
  rw [hfind]
  exact ensures_pure.mpr hQ

theorem ensures_promise {x : Addr} {expected : Option Kind} {Q : Unit → Session → Prop}
    (hQ : Q () s) (hE : ∀ f, E f s) : Ensures (Step.promise x expected) s Q E := by
  refine ensures_bind.mpr (ensures_on.mpr ((Operation.ensures_look).mpr ?_))
  split
  · split
    · exact ensures_throw.mpr (hE _)
    · exact ensures_pure.mpr hQ
  · exact ensures_pure.mpr hQ

/-- A promise that holds. -/
theorem ensures_promise_of {x : Addr} {expected : Option Kind} {Q : Unit → Session → Prop}
    (hkind : ∀ k, expected = some k → s.store.heap.kind x = k) (hQ : Q () s) :
    Ensures (Step.promise x expected) s Q E := by
  refine ensures_bind.mpr (ensures_on.mpr ((Operation.ensures_look).mpr ?_))
  cases expected with
  | none => exact ensures_pure.mpr hQ
  | some k =>
    dsimp only
    rw [if_neg (by simpa using (hkind k rfl).symm)]
    exact ensures_pure.mpr hQ

/-- What is put into a register is there, and all that is left of the heap is what it was. -/
theorem ensures_put (name : String) (x : Holding) :
    Ensures (Step.put name x) s
      (fun _ t => t.registers.lookup name = some x ∧ s.store.heap.Thins t.store.heap)
      fun _ _ => False := by
  have hlookup := Registers.lookup_set s.registers name x
  refine ensures_bind.mpr (ensures_get.mpr (ensures_bind.mpr (ensures_modify.mpr ?_)))
  split
  · exact ensures_on.mpr (Operation.ensures_release.mpr ⟨hlookup, Heap.releaseAll_thins _ [_]⟩)
  · exact ensures_pure.mpr ⟨hlookup, .refl _⟩

end Steps

/-! ### Values owned by a command -/

namespace Kept

open Operation

variable {A : Set Act} {F : Multiset Addr → Heap → Prop} {s : Session} {rs : Registers}
  {extra : Multiset Addr} {a x : Addr} {α : Type}

/-- An operation that keeps a property, as a step. -/
theorem step_on {op : Operation α} (own : α → Multiset Addr) {extra' : Multiset Addr}
    (hs : s.Owns F rs extra)
    (hop : F (rs.held + extra) s.store.heap →
      Ensures op s.store (fun r t => F (rs.held + extra' + own r) t.heap)
        fun _ t => F (rs.held + extra) t.heap) :
    Ensures (Step.on op) s (fun r t => t.Owns F rs (extra' + own r)) fun _ t => t.Owns F rs extra :=
  ensures_on.mpr ((hop hs.kept).mono
    (fun _ _ ht => ⟨hs.registers_eq, by rwa [← add_assoc]⟩) fun _ _ ht => ⟨hs.registers_eq, ht⟩)

theorem step_yields {op : Operation Addr} (hs : s.Owns F rs extra)
    (hop : Yields F (rs.held + extra) op s.store) :
    Ensures (Step.on op) s (fun b t => t.Owns F rs (extra + {b})) fun _ t => t.Owns F rs extra :=
  step_on (fun b => {b}) hs fun _ => hop

theorem step_keeps {op : Operation α} (hs : s.Owns F rs extra)
    (hop : Keeps F (rs.held + extra) op s.store) :
    Ensures (Step.on op) s (fun _ t => t.Owns F rs extra) fun _ t => t.Owns F rs extra :=
  ensures_on.mpr (Ensures.mono hop (fun _ _ ht => ⟨hs.registers_eq, ht⟩)
    fun _ _ ht => ⟨hs.registers_eq, ht⟩)

theorem step_release (hF : Kept A F) (hs : s.Owns F rs (extra + {a})) :
    ({ s with store := { s.store with heap := s.store.heap.release a } } : Session).Owns F rs
      extra :=
  ⟨hs.registers_eq, hF.release (by simpa only [add_assoc] using hs.kept)⟩

theorem env_of_owns (hs : s.Owns F rs extra) (name : String) (a : Addr)
    (ha : s.value? name = some a) : a ∈ rs.held + extra := by
  have hmem := Session.mem_held_of_value? ha
  rw [Session.held, hs.registers_eq] at hmem
  exact Multiset.mem_add.mpr (Or.inl hmem)

theorem step_eval (hF : Kept A F) (hs : s.Owns F rs extra) (e : Expr) :
    Ensures (Step.eval e) s (fun a t => t.Owns F rs (extra + {a}))
      fun _ t => t.Owns F rs extra := by
  refine ensures_bind.mpr (ensures_bound ?_ fun _ => hs)
  refine ensures_bind.mpr (ensures_get.mpr ?_)
  exact step_yields hs (make_yields (hF.eval (env_of_owns hs) e hs.kept))

theorem step_evalAll (hF : Kept A F) (hs : s.Owns F rs extra) (es : List Expr) :
    Ensures (Step.evalAll es) s (fun as t => t.Owns F rs (extra + (as : Multiset Addr)))
      fun _ t => t.Owns F rs extra := by
  refine ensures_bind.mpr (ensures_bound ?_ fun _ => hs)
  refine ensures_bind.mpr (ensures_get.mpr ?_)
  exact step_on (fun as : List Addr => (as : Multiset Addr)) hs fun hh =>
    ensures_make.mpr (hF.evalAll (env_of_owns hs) es hh)

/-- A step with a second value, which the command owns meanwhile. -/
theorem step_withOperand (hF : Kept A F) (hrs : rs.Sorted) (hs : s.Owns F rs 0) (y : Expr)
    {step : Addr → Step α}
    (hstep : ∀ a t, t.Owns F rs {a} →
      Ensures (step a) t (fun _ u => u.Sound F {a}) fun _ u => u.Sound F {a}) :
    Ensures (Step.withOperand y step) s (fun _ t => t.Sound F 0) fun _ t => t.Sound F 0 := by
  have hrelease : ∀ {a : Addr} {u : Session}, u.Sound F {a} →
      ({ u with store := { u.store with heap := u.store.heap.release a } } : Session).Sound F 0 :=
    fun {a u} hu => by
      have hown : u.Owns F u.registers (0 + {a}) := by simpa using hu.owns
      exact (hF.step_release hown).sound hu.sorted
  refine ensures_bind.mpr ((hF.step_eval hs y).mono ?_ fun _ t ht => ht.sound hrs)
  intro a t ht
  refine ensures_step_holding.mpr ((hstep a t (by simpa using ht)).mono ?_ ?_)
  · exact fun _ _ hu => hrelease hu
  · exact fun _ _ hu => hrelease hu

/-! ### Registers and results -/

/-- A new content for a register: the handle that it had is given up. -/
theorem step_put (hF : Kept A F) (hrs : rs.Sorted) {x : Holding} (name : String)
    (hs : s.Owns F rs (extra + {x.handle})) :
    Ensures (Step.put name x) s (fun _ t => t.Sound F extra) fun _ _ => False := by
  obtain ⟨rfl, hkept⟩ := hs
  have hset := Registers.held_set name x hrs
  refine ensures_bind.mpr (ensures_get.mpr (ensures_bind.mpr (ensures_modify.mpr ?_)))
  -- the handle that the register held is given back, if there was one
  cases hold : s.registers.lookup name with
  | none =>
    refine ensures_pure.mpr ⟨hrs.set, ?_⟩
    rw [Registers.handle?, hold, Option.toList_none, List.map_nil, Multiset.coe_nil, add_zero]
      at hset
    change F (Registers.held _ + extra) _
    rwa [hset, add_right_comm, add_assoc]
  | some old =>
    refine ensures_on.mpr (ensures_release.mpr ⟨hrs.set, hF.release ?_⟩)
    rw [Registers.handle?, hold, Option.toList_some, List.map_singleton, Multiset.coe_singleton]
      at hset
    change F (Registers.held _ + extra + {old.handle}) _
    rwa [add_right_comm, hset, add_right_comm, add_assoc]

/-- **A result** goes to a register or is given up, and in any case is no longer owned by the
command. -/
theorem step_keep (hF : Kept A F) (hrs : rs.Sorted) (hs : s.Owns F rs (extra + {a})) (k : Keep) :
    Ensures (Step.keep k a) s (fun _ t => t.Sound F extra) fun _ t => t.Sound F extra := by
  -- the two ways to go on once the written form is there
  have hput : ∀ name (answer : Answer) (t : Session), t.Owns F rs (extra + {a}) →
      Ensures (do Step.put name (.value a); return answer) t (fun _ u => u.Sound F extra)
        fun _ u => u.Sound F extra := by
    intro name answer t ht
    exact ensures_bind.mpr ((hF.step_put (x := .value a) hrs _ ht).mono
      (fun _ _ hu => ensures_pure.mpr hu) fun _ _ => False.elim)
  have hgive : ∀ (answer : Answer) (t : Session), t.Owns F rs (extra + {a}) →
      Ensures (do Step.on (.release a); return answer) t (fun _ u => u.Sound F extra)
        fun _ u => u.Sound F extra := by
    intro answer t ht
    exact ensures_bind.mpr (ensures_on.mpr (ensures_release.mpr
      (ensures_pure.mpr ((hF.step_release ht).sound hrs))))
  refine ensures_bind.mpr (ensures_on.mpr (ensures_look.mpr ?_))
  dsimp only
  split
  · refine ensures_bind.mpr (ensures_pure.mpr ?_)
    split
    · exact hput _ _ s hs
    · exact hgive _ s hs
  · -- the written form does not change the heap, and the value is given up if there is none
    refine ensures_bind.mpr (ensures_map.mpr (ensures_on.mpr (ensures_keeping.mpr
      ((reads_ask _).ensures ?_ ?_))))
    · intro shown t ht
      have ht : ({ s with store := t } : Session).Owns F rs (extra + {a}) :=
        ⟨hs.registers_eq, ht ▸ hs.kept⟩
      split
      · exact hput _ _ _ ht
      · exact hgive _ _ ht
    · exact fun _ t ht =>
        (hF.step_release (s := { s with store := t }) ⟨hs.registers_eq, ht ▸ hs.kept⟩).sound hrs

theorem step_keep? (hF : Kept A F) (hrs : rs.Sorted) {r : Option Addr}
    (hs : s.Owns F rs (extra + (r.toList : Multiset Addr))) (k : Keep) :
    Ensures (Step.keep? k r) s (fun _ t => t.Sound F extra) fun _ t => t.Sound F extra := by
  cases r with
  | none => exact ensures_pure.mpr (Session.Owns.sound (by simpa using hs) hrs)
  | some a => exact hF.step_keep hrs (by simpa using hs) k

/-- The answer for a change writes the changed value, which does not change the heap. -/
theorem step_changed (hs : s.Owns F rs extra) (x : Addr) (quiet : Bool) :
    Ensures (Step.changed x quiet) s (fun _ t => t.Owns F rs extra)
      fun _ t => t.Owns F rs extra := by
  unfold Step.changed
  split
  · exact ensures_pure.mpr hs
  · exact ensures_bind.mpr ((step_keeps hs ((reads_ask _).keeps hs.kept)).mono
      (fun _ _ ht => ensures_pure.mpr ht) fun _ _ => id)

end Kept

end SharedValues
