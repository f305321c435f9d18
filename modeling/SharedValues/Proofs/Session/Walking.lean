import SharedValues.Proofs.Heap.Lasting
import SharedValues.Proofs.Sequence.Walk
import SharedValues.Proofs.Session.Run

/-!
# Walks among other commands

A session puts a cursor on a list, an array or a word, and goes on with any commands: some of them
advance the cursor, others change what it walks over.  As long as no command replaces or drops the
cursor, it has gone over one element at least for each that the answers show, and in a list never
over more than the list had when the cursor was put there.  What the cursor says of the elements
ahead is right in every state on the way.

## Main definitions

* `Step.Leaves` — a step leaves a register alone.
* `Command.spares` — a command neither replaces nor drops the cursor in a register.
* `Command.seen` — the elements of a cursor that an answer shows.
* `Session.HasWalked` — a cursor has gone over some elements at least.

## Main results

* `Step.leaves_perform` — what does not name a register leaves it alone.
* `HasWalked.step`, `HasWalked.run` — a command, and a run.
* `Session.cursor_protocol` — what a cursor does and says among any other commands.
-/

namespace SharedValues

open Heap Operation

/-! ### What leaves a register alone -/

namespace Step

variable {α β : Type} {name : String}

/-- **A step leaves a register alone**, whatever its outcome. -/
def Leaves (name : String) (step : Step α) : Prop :=
  ∀ s, (step.run s).2.registers.lookup name = s.registers.lookup name

theorem Leaves.ensures {step : Step α} (h : step.Leaves name) (s : Session) :
    Ensures step s (fun _ t => t.registers.lookup name = s.registers.lookup name)
      fun _ t => t.registers.lookup name = s.registers.lookup name := by
  have hs := h s
  unfold Ensures
  rcases hrun : step.run s with ⟨_ | _, t⟩ <;> rw [hrun] at hs <;> exact hs

theorem leaves_pure (a : α) : Leaves name (pure a) := fun _ => rfl

theorem leaves_throw (f : Fault) : Leaves name (throw f : Step α) := fun _ => rfl

theorem leaves_get : Leaves name (get : Step Session) := fun _ => rfl

theorem leaves_on (op : Operation α) : Leaves name (on op) := fun _ => rfl

theorem Leaves.bind {step : Step α} {f : α → Step β} (hstep : step.Leaves name)
    (hf : ∀ a, (f a).Leaves name) : (step >>= f).Leaves name := by
  intro s
  have hs := hstep s
  rw [run_bind]
  rcases hrun : step.run s with ⟨_ | a, t⟩ <;> rw [hrun] at hs
  · exact hs
  · exact (hf a t).trans hs

/-- An answer made of the result of a step. -/
theorem Leaves.answer {step : Step α} (hstep : step.Leaves name) (g : α → β) :
    (step >>= fun a => pure (g a)).Leaves name :=
  hstep.bind fun _ => leaves_pure _

theorem Leaves.holding {step : Step α} (hstep : step.Leaves name) (a : Addr) :
    (holding a step).Leaves name :=
  hstep

theorem leaves_value (x : String) : Leaves name (value x) := by
  refine leaves_get.bind fun s => ?_
  split
  · exact leaves_pure _
  · exact leaves_throw _

theorem leaves_cursor (x : String) : Leaves name (cursor x) := by
  refine leaves_get.bind fun s => ?_
  split
  · exact leaves_pure _
  · exact leaves_throw _

theorem leaves_bound (names : List String) : Leaves name (bound names) := by
  refine leaves_get.bind fun s => ?_
  split
  · exact leaves_throw _
  · exact leaves_pure _

theorem leaves_eval (e : Expr) : Leaves name (eval e) :=
  (leaves_bound _).bind fun _ => leaves_get.bind fun _ => leaves_on _

theorem leaves_evalAll (es : List Expr) : Leaves name (evalAll es) :=
  (leaves_bound _).bind fun _ => leaves_get.bind fun _ => leaves_on _

theorem leaves_promise (x : Addr) (expected : Option Kind) : Leaves name (promise x expected) := by
  refine (leaves_on _).bind fun found => ?_
  split
  · split
    · exact leaves_throw _
    · exact leaves_pure _
  · exact leaves_pure _

theorem Leaves.withOperand {step : Addr → Step α} (hstep : ∀ a, (step a).Leaves name) (y : Expr) :
    (withOperand y step).Leaves name :=
  (leaves_eval y).bind fun a => (hstep a).holding a

/-! ### Other registers -/

theorem leaves_put {target : String} (hne : name ≠ target) (x : Holding) :
    Leaves name (put target x) := by
  refine leaves_get.bind fun s => ?_
  refine Leaves.bind (fun _ => Registers.lookup_set_of_ne hne) fun _ => ?_
  split
  · exact leaves_on _
  · exact leaves_pure _

theorem leaves_advance {target : String} (hne : name ≠ target) (c : Cursor) :
    Leaves name (advance target c) :=
  fun _ => Registers.lookup_set_of_ne hne

theorem leaves_keep {k : Keep} (hk : k.to ≠ some name) (a : Addr) : Leaves name (keep k a) := by
  have hput : ∀ {target : String} (answer : Answer), k.to = some target →
      Leaves name (do put target (.value a); return answer) := by
    intro target answer htarget
    have hne : name ≠ target := by
      rintro rfl
      exact hk htarget
    exact (leaves_put hne _).answer _
  -- a value that is not kept is released, which no register tells
  have hgive : ∀ answer : Answer, Leaves name (do on (.release a); return answer) :=
    fun answer => (leaves_on _).answer _
  refine (leaves_on _).bind fun kind => ?_
  dsimp only
  split
  · refine (leaves_pure _).bind fun shown => ?_
    split
    · next htarget => exact hput _ htarget
    · exact hgive _
  · refine Leaves.bind ((leaves_on _).answer _) fun shown => ?_
    split
    · next htarget => exact hput _ htarget
    · exact hgive _

theorem leaves_keep? {k : Keep} (hk : k.to ≠ some name) (item : Option Addr) :
    Leaves name (keep? k item) := by
  cases item with
  | none => exact leaves_pure _
  | some a => exact leaves_keep hk a

theorem leaves_changed (x : Addr) (quiet : Bool) : Leaves name (changed x quiet) := by
  unfold changed
  split
  · exact leaves_pure _
  · exact (leaves_on _).answer _

theorem leaves_adjustment (x : Addr) (a : Adjustment) : Leaves name (a.run x) := by
  cases a with
  | setParsed stamp items =>
    rw [Adjustment.run]
    exact (leaves_evalAll items).bind fun _ => leaves_on _
  | _ =>
    rw [Adjustment.run]
    exact leaves_on _

theorem leaves_collectWithin {x : String} (hne : name ≠ x) (n : ℕ) (written : List String) :
    Leaves name (collectWithin x n written) := by
  induction n generalizing written with
  | zero => exact leaves_pure _
  | succ n ih =>
    rw [collectWithin]
    refine (leaves_cursor x).bind fun c => (leaves_on _).bind fun r => ?_
    refine (leaves_advance hne _).bind fun _ => ?_
    split
    · exact leaves_pure _
    · exact ((leaves_on _).holding _).bind fun shown => ih _

end Step

/-! ### Commands -/

/-- A command neither replaces nor drops the cursor in a register. -/
def Command.spares (name : String) : Command → Bool
  | .make _ k | .build _ k | .derive _ _ k | .combine _ _ _ k | .next _ k | .takeNext _ k =>
    k.to != some name
  | .openCursor _ _ target => target != name
  | .drop x => x != name
  | .dropAll => false
  | _ => true

/-- A command advances the cursor in a register. -/
def Command.advances (name : String) : Command → Bool
  | .next x _ | .takeNext x _ | .collect x => x == name
  | _ => false

/-- The elements of the cursor in a register that an answer shows. -/
def Command.seen (name : String) : Command → Answer → ℕ
  | .next x _, .value .. | .takeNext x _, .value .. => if x = name then 1 else 0
  | .collect x, .reply (.texts shown) => if x = name then shown.length else 0
  | _, _ => 0

theorem Command.seen_of_not_advances {name : String} {c : Command} (hc : c.advances name = false)
    (a : Answer) : c.seen name a = 0 := by
  unfold seen
  split <;> simp_all [advances]

/-- Only a walk to the end shows more than one element. -/
theorem Command.seen_le_one {name : String} {c : Command} (hc : ∀ x, c ≠ .collect x) (a : Answer) :
    c.seen name a ≤ 1 := by
  unfold seen
  split
  · split <;> omega
  · split <;> omega
  · exact absurd rfl (hc _)
  · omega

/-- **A command that spares the cursor in a register**, and does not advance it, leaves the register
alone. -/
theorem Step.leaves_perform {name : String} {c : Command} (hspares : c.spares name = true)
    (hstays : c.advances name = false) : (Step.perform c).Leaves name := by
  have hother : ∀ {x : String}, (x == name) = false → name ≠ x := fun hx =>
    (ne_of_beq_false hx).symm
  have hkeep : ∀ {k : Keep}, (k.to != some name) = true → k.to ≠ some name := fun hk =>
    bne_iff_ne.mp hk
  -- without advancing it a command may still overwrite the cursor, unless it spares the register
  cases c with
  | make e k => exact (leaves_eval e).bind (leaves_keep (hkeep hspares))
  | build source k => exact (leaves_on _).bind (leaves_keep (hkeep hspares))
  | derive x d k =>
    exact (leaves_value x).bind fun _ => (leaves_on _).bind (leaves_keep? (hkeep hspares))
  | combine x c y k =>
    exact (leaves_value x).bind fun _ => (leaves_promise _ _).bind fun _ =>
      Leaves.withOperand (fun _ => (leaves_on _).bind (leaves_keep (hkeep hspares))) y
  | change x c y quiet =>
    exact (leaves_value x).bind fun _ => (leaves_promise _ _).bind fun _ =>
      Leaves.withOperand (fun _ => (leaves_on _).bind fun _ => leaves_changed _ quiet) y
  | adjust x a quiet =>
    exact (leaves_value x).bind fun _ => (leaves_adjustment _ a).bind fun _ =>
      leaves_changed _ quiet
  | ask x q => exact (leaves_value x).bind fun _ => (leaves_on _).answer _
  | compare x c y =>
    exact (leaves_value x).bind fun _ => (leaves_promise _ _).bind fun _ =>
      Leaves.withOperand (fun _ => (leaves_on _).answer _) y
  | compareHere x ignoreCase y =>
    refine (leaves_value x).bind fun _ => Leaves.withOperand (fun _ => ?_) y
    exact Leaves.answer (fun _ => rfl) _
  | renderHere x style o =>
    exact (leaves_value x).bind fun _ => Leaves.answer (fun _ => rfl) _
  | openCursor x how target =>
    refine (leaves_value x).bind fun _ => (leaves_on _).bind fun _ => ?_
    exact (leaves_put (bne_iff_ne.mp hspares).symm _).answer _
  | hasMore x => exact (leaves_cursor x).bind fun _ => (leaves_on _).answer _
  | next x k =>
    refine (leaves_cursor x).bind fun _ => (leaves_on _).bind fun r => ?_
    exact (leaves_advance (hother hstays) _).bind fun _ => leaves_keep? (hkeep hspares) _
  | takeNext x k =>
    refine (leaves_cursor x).bind fun _ => (leaves_on _).bind fun r => ?_
    exact (leaves_advance (hother hstays) _).bind fun _ => leaves_keep (hkeep hspares) _
  | sizeHint x => exact (leaves_cursor x).bind fun _ => (leaves_on _).answer _
  | collect x =>
    refine Leaves.answer ?_ _
    exact (leaves_cursor x).bind fun _ => (leaves_on _).bind fun r =>
      leaves_collectWithin (hother hstays) _ _
  | drop x =>
    -- dropping another register leaves this one
    have hne : name ≠ x := (bne_iff_ne.mp hspares).symm
    refine leaves_get.bind fun s => ?_
    refine Leaves.bind (fun _ => Registers.lookup_erase_of_ne hne) fun _ => ?_
    split
    · exact (leaves_on _).answer _
    · exact leaves_pure _
  | dropAll => cases hspares
  | usage => exact (leaves_on _).answer _
  | isIdle => exact leaves_get.answer _
  | shapeName sh => exact leaves_pure _

/-! ### Walks -/

namespace Session

variable {s : Session} {name : String} {c d : Cursor} {k m : ℕ}

/-- **The cursor in a register has gone over some elements at least** since it was at a place. -/
def HasWalked (s : Session) (name : String) (c : Cursor) (m : ℕ) : Prop :=
  ∃ d k, s.registers.lookup name = some (.cursor d) ∧ c.Leads d k ∧ m ≤ k

theorem HasWalked.mono (hs : s.HasWalked name c m) (hk : k ≤ m) : s.HasWalked name c k := by
  obtain ⟨d, j, hd, hleads, hm⟩ := hs
  exact ⟨d, j, hd, hleads, hk.trans hm⟩

theorem HasWalked.of_lookup {t : Session} (hs : s.HasWalked name c m)
    (ht : t.registers.lookup name = s.registers.lookup name) : t.HasWalked name c m := by
  obtain ⟨d, k, hd, hrest⟩ := hs
  exact ⟨d, k, ht.trans hd, hrest⟩

/-- What leaves the register alone is no walk. -/
theorem HasWalked.ensures_of_leaves {α : Type} {step : Step α} (hstep : step.Leaves name)
    (hs : s.HasWalked name c m) :
    Ensures step s (fun _ t => t.HasWalked name c m) fun _ t => t.HasWalked name c m :=
  (hstep.ensures s).mono (fun _ _ ht => hs.of_lookup ht) fun _ _ ht => hs.of_lookup ht

/-- **The cursor in a register advances** and goes back to the register. -/
theorem HasWalked.ensures_advance {α : Type} {advance : Cursor → Operation (α × Cursor)}
    (taken : α → ℕ)
    (hadvance : ∀ d t, Ensures (advance d) t (fun r _ => d.Leads r.2 (taken r.1)) fun _ _ => True)
    (hs : s.HasWalked name c m) :
    Ensures (Step.cursor name) s
      (fun d t => Ensures (Step.on (advance d)) t
        (fun r u => Ensures (Step.advance name r.2) u
          (fun _ v => v.HasWalked name c (m + taken r.1)) fun _ _ => False)
        fun _ u => u.HasWalked name c m)
      fun _ t => t.HasWalked name c m := by
  refine ensures_cursor ?_ hs
  intro d hd
  obtain ⟨e, k, he, hleads, hm⟩ := hs
  obtain rfl : d = e := by simpa [hd] using he
  refine ensures_on.mpr ((hadvance d s.store).mono ?_ fun _ _ _ => ⟨d, k, hd, hleads, hm⟩)
  intro r t hr
  exact ensures_modify.mpr ⟨r.2, _, Registers.lookup_set .., hleads.trans hr,
    Nat.add_le_add_right hm _⟩

theorem HasWalked.ensures_next (hs : s.HasWalked name c m) :
    Ensures (Step.cursor name) s
      (fun d t => Ensures (Step.on d.next) t
        (fun r u => Ensures (Step.advance name r.2) u
          (fun _ v => v.HasWalked name c (m + r.1.toList.length)) fun _ _ => False)
        fun _ u => u.HasWalked name c m)
      fun _ t => t.HasWalked name c m :=
  hs.ensures_advance (fun item : Option Addr => item.toList.length) Cursor.ensures_leads

/-- A walk to the end, of which the elements are written. -/
theorem HasWalked.ensures_collectWithin (n : ℕ) (written : List String)
    (hs : s.HasWalked name c (m + written.length)) :
    Ensures (Step.collectWithin name n written) s
      (fun shown t => t.HasWalked name c (m + shown.length)) fun _ t => t.HasWalked name c m := by
  induction n generalizing s written with
  | zero =>
    refine ensures_pure.mpr ?_
    rwa [List.length_reverse]
  | succ n ih =>
    rw [Step.collectWithin]
    refine ensures_bind.mpr (hs.ensures_next.mono ?_ fun _ _ ht => ht.mono (Nat.le_add_right ..))
    intro d t ht
    refine ensures_bind.mpr (ht.mono ?_ fun _ _ hu => hu.mono (Nat.le_add_right ..))
    rintro ⟨item, e⟩ u hu
    -- the cursor has gone on, so what is shown from here on counts with the item just taken
    refine ensures_bind.mpr (hu.mono ?_ fun _ _ => False.elim)
    intro _ v hv
    cases item with
    | none =>
      refine ensures_pure.mpr ?_
      rwa [List.length_reverse]
    | some a =>
      -- showing an item moves no cursor
      have hwrite : Step.Leaves name (Step.holding a (Step.on (.ask (·.shown a)))) :=
        (Step.leaves_on _).holding a
      refine ensures_bind.mpr ((hv.ensures_of_leaves hwrite).mono ?_
        fun _ _ hw => hw.mono (by omega))
      intro shown w hw
      exact ih (shown :: written) hw

/-- An element that the cursor has gone over is the answer, if there is one. -/
theorem HasWalked.ensures_keep {cmd : Command} {keep : Keep} (hs : s.HasWalked name c (m + 1))
    (hkeep : keep.to ≠ some name) (hseen : ∀ answer, cmd.seen name answer ≤ 1) (a : Addr) :
    Ensures (Step.keep keep a) s
      (fun answer t => t.HasWalked name c (m + cmd.seen name answer))
      fun f t => t.HasWalked name c (m + cmd.seen name (.fault f)) :=
  (hs.ensures_of_leaves (Step.leaves_keep hkeep a)).mono
    (fun answer _ ht => ht.mono (Nat.add_le_add_left (hseen answer) m))
    fun f _ ht => ht.mono (Nat.add_le_add_left (hseen (.fault f)) m)

/-- **A command that spares the cursor in a register** takes it over the elements that are shown. -/
theorem HasWalked.step (hs : s.HasWalked name c m) {cmd : Command}
    (hspares : cmd.spares name = true) :
    (s.step cmd).2.HasWalked name c (m + cmd.seen name (s.step cmd).1) := by
  cases hadvances : cmd.advances name with
  | false =>
    rw [Command.seen_of_not_advances hadvances]
    exact step_of_ensures (hs.ensures_of_leaves (Step.leaves_perform hspares hadvances))
  | true =>
    refine answer_of_ensures (P := fun a t => t.HasWalked name c (m + cmd.seen name a)) ?_
    -- two of the commands that advance take one item at most, the third takes items to the end
    cases cmd with
    | next x keep =>
      obtain rfl : x = name := eq_of_beq hadvances
      have hkeep : keep.to ≠ some x := bne_iff_ne.mp hspares
      refine ensures_bind.mpr (hs.ensures_next.mono ?_ fun _ _ => id)
      intro d t ht
      refine ensures_bind.mpr (ht.mono ?_ fun _ _ => id)
      rintro ⟨item, e⟩ u hu
      refine ensures_bind.mpr (hu.mono ?_ fun _ _ => False.elim)
      intro _ v hv
      cases item with
      | none => exact ensures_pure.mpr hv
      | some a => exact HasWalked.ensures_keep hv hkeep (Command.seen_le_one (by simp)) a
    | takeNext x keep =>
      obtain rfl : x = name := eq_of_beq hadvances
      have hkeep : keep.to ≠ some x := bne_iff_ne.mp hspares
      refine ensures_bind.mpr
        ((hs.ensures_advance (fun _ => 1) Cursor.ensures_takeNext_leads).mono ?_ fun _ _ => id)
      intro d t ht
      refine ensures_bind.mpr (ht.mono ?_ fun _ _ => id)
      rintro ⟨a, e⟩ u hu
      refine ensures_bind.mpr (hu.mono ?_ fun _ _ => False.elim)
      intro _ v hv
      exact HasWalked.ensures_keep hv hkeep (Command.seen_le_one (by simp)) a
    | collect x =>
      obtain rfl : x = name := eq_of_beq hadvances
      refine ensures_bind.mpr (ensures_bind.mpr ?_)
      refine (hs.ensures_of_leaves (Step.leaves_cursor x)).mono ?_ fun _ _ => id
      intro d t ht
      refine ensures_bind.mpr ((ht.ensures_of_leaves (Step.leaves_on _)).mono ?_ fun _ _ => id)
      rintro ⟨low, high⟩ u hu
      -- the items collected are counted as they are written
      refine (HasWalked.ensures_collectWithin (high + 1) [] hu).mono ?_ fun _ _ => id
      intro shown v hv
      refine ensures_pure.mpr ?_
      rwa [Command.seen, if_pos rfl]
    | _ => cases hadvances

/-- **A run of such commands**. -/
theorem HasWalked.run {cs : List Command} (hs : s.HasWalked name c m)
    (hcs : ∀ cmd ∈ cs, cmd.spares name = true) :
    (s.run cs).2.HasWalked name c
      (m + (cs.zipWith (Command.seen name) (s.run cs).1).sum) := by
  induction cs generalizing s m with
  | nil => exact hs
  | cons cmd cs ih =>
    have hrest := ih (hs.step (hcs cmd List.mem_cons_self))
      fun d hd => hcs d (List.mem_cons_of_mem cmd hd)
    rwa [Nat.add_assoc] at hrest

end Session

/-! ### The start of a walk -/

/-- A cursor can be put in this way on a value of a kind. -/
def Opening.suits : Opening → Kind → Bool
  | .sequence .typed, .list => true
  | .sequence .typed, _ => false
  | .sequence _, .list | .sequence _, .array | .sequence _, .word => true
  | .array, .array | .word, .word => true
  | _, _ => false

/-- **Where a walk over a value starts.** -/
inductive Heap.Starts (h : Heap) (x : Addr) : Cursor → Prop
  /-- At the first link of a list, with a step for each of its elements. -/
  | list {l : ListHeader} : h.body x = .list l → Starts h x (.list l.head l.size)
  /-- At the first slot of an array. -/
  | array : h.kind x = .array → Starts h x (.array x 0)
  /-- At the first character of a word. -/
  | word : h.kind x = .word → Starts h x (.word x 0)

section Opening

variable {s : Store} {x : Addr}

theorem Cursor.ensures_start (hx : s.heap.kind x = .list ∨ s.heap.kind x = .array ∨
    s.heap.kind x = .word) :
    Ensures (start x) s (fun c _ => s.heap.Starts x c) fun _ _ => False := by
  refine ensures_bind.mpr (ensures_look.mpr ?_)
  rcases hx with hx | hx | hx
  · obtain ⟨l, hl⟩ := exists_list_of_kind hx
    rw [hl]
    exact ensures_bind.mpr (ensures_share.mpr (ensures_pure.mpr (.list hl)))
  · obtain ⟨origin, slots, hslots⟩ := exists_array_of_kind hx
    rw [hslots]
    exact ensures_bind.mpr (ensures_share.mpr (ensures_pure.mpr (.array hx)))
  · obtain ⟨w, hw⟩ := exists_word_of_kind hx
    rw [hw]
    exact ensures_bind.mpr (ensures_share.mpr (ensures_pure.mpr (.word hx)))

/-- **A cursor is put on the value**, at the start. -/
theorem Opening.ensures_run {how : Opening} (hsuits : how.suits (s.heap.kind x) = true) :
    Ensures (how.run x) s (fun c _ => s.heap.Starts x c) fun _ _ => False := by
  -- unless it is opened as a list, the cursor is chosen by the kind of the value
  have hstart : ∀ {m : Mode}, m ≠ .typed → how = .sequence m →
      Ensures (Cursor.start x) s (fun c _ => s.heap.Starts x c) fun _ _ => False := by
    rintro m hm rfl
    apply Cursor.ensures_start
    cases hkind : s.heap.kind x <;> cases m <;> simp_all [suits]
  cases how with
  | sequence mode =>
    cases mode with
    | checked => exact hstart (by decide) rfl
    | asserted => exact ensures_promised.mpr (hstart (by decide) rfl)
    | typed =>
      -- the typed form insists on a list
      have hlist : s.heap.kind x = .list := by
        cases hkind : s.heap.kind x <;> simp_all [suits]
      obtain ⟨l, hl⟩ := exists_list_of_kind hlist
      refine ensures_bind.mpr ((ensures_assert_of_ok (list_eq_ok hl)).mpr ?_)
      exact ensures_bind.mpr (ensures_share.mpr (ensures_pure.mpr (.list hl)))
  | array =>
    have harray : s.heap.kind x = .array := by
      cases hkind : s.heap.kind x <;> simp_all [suits]
    exact ensures_bind.mpr (ensures_share.mpr (ensures_pure.mpr (.array harray)))
  | word =>
    have hword : s.heap.kind x = .word := by
      cases hkind : s.heap.kind x <;> simp_all [suits]
    exact ensures_bind.mpr (ensures_share.mpr (ensures_pure.mpr (.word hword)))

end Opening

namespace Session

variable {s : Session} {source name : String} {x : Addr} {c d : Cursor} {how : Opening} {k : ℕ}

/-- **A walk starts.** -/
theorem step_openCursor (name : String) (hsource : s.value? source = some x)
    (hsuits : how.suits (s.store.heap.kind x) = true) :
    (s.step (.openCursor source how name)).1 = .done ∧
      ∃ c, s.store.heap.Starts x c ∧
        (s.step (.openCursor source how name)).2.registers.lookup name = some (.cursor c) := by
  refine step_of_answer (P := fun t => ∃ c, s.store.heap.Starts x c ∧
    t.registers.lookup name = some (.cursor c)) ?_
  refine ensures_bind.mpr (ensures_value_of hsource (ensures_bind.mpr (ensures_on.mpr ?_)))
  refine (Opening.ensures_run hsuits).mono ?_ fun _ _ => id
  intro c t hc
  refine ensures_bind.mpr ((ensures_put name (.cursor c)).mono ?_ fun _ _ => id)
  exact fun _ u hu => ensures_pure.mpr ⟨rfl, c, hc, hu.1⟩

/-- The steps of a walk over a list are as many as the list had elements at the start. -/
theorem le_size_of_leads {h : Heap} {l : ListHeader} (hx : h.body x = .list l)
    (hc : h.Starts x c) (hleads : c.Leads d k) : k ≤ l.size := by
  have hkind := congrArg Body.kind hx
  cases hc with
  | list hl =>
    obtain rfl := Body.list.inj (hl.symm.trans hx)
    obtain ⟨-, left, -, hleft⟩ := hleads.list
    omega
  | array harray => exact absurd (hkind.symm.trans harray) (by simp [Body.kind])
  | word hword => exact absurd (hkind.symm.trans hword) (by simp [Body.kind])

/-- **What a cursor says of the elements ahead is right**, wherever a walk has led it and whatever
has become of the value meanwhile. -/
theorem foretells_of_leads {h : Heap} (hc : h.Starts x c)
    (hs : s.Sound (fun held g => g.Exact held ∧ h.KeepsKinds g) 0)
    (hd : s.registers.lookup name = some (.cursor d)) (hleads : c.Leads d k)
    (hlinked : ∀ link left, d = .list link left → s.store.heap.Linked link) :
    s.store.Foretells d := by
  obtain ⟨-, hexact, hkinds⟩ := hs
  have hheld : d.handle ∈ s.held := Registers.handle_mem_held hd
  have hlive : s.store.heap.Live d.handle := hexact.live_of_held (by simpa using hheld)
  -- the cursor keeps alive what it walks over, so that it is of the kind that it was
  have hkept : ∀ {kind : Kind}, h.kind d.handle = kind → kind ≠ .nothing →
      s.store.heap.kind d.handle = kind := by
    intro kind hkind hne
    have hlt : d.handle < h.blocks.size :=
      (live_of_body rfl (by rintro hnone; simp_all [Heap.kind, Body.kind])).lt_size
    exact (hkinds.kind_eq hlt hlive).trans hkind
  cases hc with
  | list hl =>
    obtain ⟨link, left, rfl, -⟩ := hleads.list
    obtain ⟨rest, hrest⟩ := Kept.exists_held_of_cursor hd
    have hexact : s.store.heap.Exact (rest + {link}) := by
      rw [add_zero, Session.held, hrest] at hexact
      exact hexact
    exact foretells_list hexact (hlinked link left rfl) left
  | array harray =>
    obtain rfl := hleads.array
    obtain ⟨origin, slots, hslots⟩ := exists_array_of_kind (hkept harray (by decide))
    exact foretells_array hslots _
  | word hword =>
    obtain rfl := hleads.word
    obtain ⟨w, hw⟩ := exists_word_of_kind (hkept hword (by decide))
    exact foretells_word hw _

/-- **What a cursor does and says among any other commands.**  It is put on a list, an array or a
word, and then any commands follow, of which none replaces or drops it.  It has gone over one
element at least for each that the answers show, and over no more of them than a list had when the
cursor was put there, even if its chain has become circular.  And in the state that is reached, it
says rightly whether an element is ahead; as long as nothing is changed any more, as many are ahead
as its bounds say, and a walk over them ends.  The links ahead in a list have to lead to cells. -/
theorem cursor_protocol {made cs : List Command} (hs : (run made {}).2 = s)
    (hsource : s.value? source = some x) (hsuits : how.suits (s.store.heap.kind x) = true)
    (hcs : ∀ cmd ∈ cs, cmd.spares name = true) :
    let t := (s.step (.openCursor source how name)).2
    let u := (t.run cs).2
    (s.step (.openCursor source how name)).1 = .done ∧
    ∃ c d k, t.cursor? name = some c ∧ u.cursor? name = some d ∧ c.Leads d k ∧
      (cs.zipWith (Command.seen name) (t.run cs).1).sum ≤ k ∧
      (∀ l, s.store.heap.body x = .list l → k ≤ l.size) ∧
      ((∀ link left, d = .list link left → u.store.heap.Linked link) → u.store.Foretells d) := by
  subst hs
  intro t u
  obtain ⟨hanswer, c, hstarts, hc⟩ := step_openCursor name hsource hsuits
  have hwalked : t.HasWalked name c 0 := ⟨c, 0, hc, .refl c, Nat.le_refl 0⟩
  obtain ⟨d, k, hd, hleads, hk⟩ := hwalked.run hcs
  rw [Nat.zero_add] at hk
  -- the counts are exact and the kinds are kept from before the cursor was put there
  have hsound := exact_sound made
  have hend : u.Sound _ 0 := (kept_kinds (run made {}).2.store.heap).run
    (.openCursor source how name :: cs) (fun _ _ => Set.subset_univ _)
    ⟨hsound.sorted, hsound.kept, .refl _⟩
  exact ⟨hanswer, c, d, k, cursor?_of_lookup hc, cursor?_of_lookup hd, hleads, hk,
    fun l hl => le_size_of_leads hl hstarts hleads, foretells_of_leads hstarts hend hd hleads⟩

/-- A list of three words, whose first cell is linked to itself once a cursor is on it.  The cursor
has gone over the first word twice, and has one step left. -/
theorem circular_walk :
    let s := (run [.make (.list [.text "a" false, .text "b" false, .text "c" false])
      ⟨some "x", true⟩] {}).2
    let cs : List Command := [.change "x" (.setButFirst .checked) (.register "x") true,
      .next "y" ⟨none, true⟩, .next "y" ⟨none, false⟩]
    let t := (s.step (.openCursor "x" (.sequence .checked) "y")).2
    let u := (t.run cs).2
    s.value? "x" = some 7 ∧ s.store.heap.body 7 = .list { head := 6, size := 3 } ∧
      (∀ cmd ∈ cs, cmd.spares "y" = true) ∧
      (cs.zipWith (Command.seen "y") (t.run cs).1).sum = 2 ∧
      t.cursor? "y" = some (.list 6 3) ∧ u.cursor? "y" = some (.list 6 1) ∧
      u.store.heap.body 6 = .cell 0 6 ∧
      (∃ k, (Cursor.list 6 3).Leads (.list 6 1) k ∧ 2 ≤ k ∧ k ≤ 3) ∧
      u.store.Foretells (.list 6 1) := by
  intro s cs t u
  have hopened : s.value? "x" = some 7 ∧ s.store.heap.body 7 = .list { head := 6, size := 3 } ∧
      (cs.zipWith (Command.seen "y") (t.run cs).1).sum = 2 ∧
      t.cursor? "y" = some (.list 6 3) ∧ u.cursor? "y" = some (.list 6 1) ∧
      u.store.heap.body 6 = .cell 0 6 := by
    decide +kernel
  obtain ⟨hx, hlist, hseen, hopen, hcursor, hcell⟩ := hopened
  have hsuits : Opening.suits (.sequence .checked) (s.store.heap.kind 7) = true := by
    rw [Heap.kind, hlist]
    rfl
  have hcs : ∀ cmd ∈ cs, cmd.spares "y" = true := by decide
  -- the cursor is on a cell that links to itself, and there it can go on
  have hlinked : u.store.heap.Linked 6 := by
    have hnext : u.store.heap.next? 6 = some 6 := next?_eq_some_iff.mpr ⟨0, hcell⟩
    refine linked_of_closed (S := [6]) ?_ ?_ (List.mem_singleton_self 6)
    · simpa using Or.inl (kind_of_next? hnext)
    · simp [hnext]
  have hwalk := cursor_protocol (s := s) rfl hx hsuits hcs
  have ht : (s.step (.openCursor "x" (.sequence .checked) "y")).2 = t := rfl
  have hu : (t.run cs).2 = u := rfl
  dsimp only at hwalk
  rw [ht, hu] at hwalk
  clear_value u t
  obtain ⟨-, c, d, k, hc, hd, hleads, hk, hsize, hforetells⟩ := hwalk
  obtain rfl : .list 6 3 = c := Option.some.inj (hopen.symm.trans hc)
  obtain rfl : .list 6 1 = d := Option.some.inj (hcursor.symm.trans hd)
  refine ⟨hx, hlist, hcs, hseen, hopen, hcursor, hcell, ⟨k, hleads, hseen ▸ hk, hsize _ hlist⟩,
    hforetells ?_⟩
  -- the cursor has one cell left, that of the circle
  intro link left hahead
  obtain ⟨rfl, -⟩ := Cursor.list.inj hahead
  exact hlinked

end Session

end SharedValues
