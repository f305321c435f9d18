import SharedValues.Proofs.Query.Symmetry
import SharedValues.Proofs.Query.Traversal
import SharedValues.Proofs.Query.Written
import SharedValues.Query.Containment
import SharedValues.Query.Equality

/-!
# Queries that take handles

Comparisons, searches and renderings, as traversals that take handles: a cursor along every sequence
that is entered, the elements that are looked at, a copy of the slots of an array whose members are
compared with a value, a copy of the children of a syntax node.  They give up all of them on every
way out, also where they stop early or meet a chain that is broken.  So each of them spends nothing,
and is the query that reads a fixed heap.

## Main definitions

* `Traversal.equalWithin`, `Traversal.searchWithin`, `Traversal.renderWithin` — the traversals.
* `Traversal.equal`, `Traversal.contains`, `Traversal.isMember`, `Traversal.render` — as they are
  called.

## Main results

* `Spends.equalWithin`, `Spends.searchWithin`, `Spends.renderWithin` — they are the queries, and give
  up the handles that they take.
-/

namespace SharedValues

/-- Writes an element after a blank and after others, unless there is no width left. -/
def writeNext {m : Type → Type} [Monad m] (write : Addr → m String) (e : Addr)
    (written : String × Option ℕ) : m (ForInStep (String × Option ℕ)) := do
  let (text, width) := written
  if width = some 0 then return .done (text ++ " " ++ "...", width)
  else return .yield (text ++ " " ++ (← write e), width.map (· - 1))

namespace Traversal

variable {ε : Type}

/-! ### The traversals -/

/-- The comparison of two sequences inside a trail, whose elements are compared by `same`. -/
def sequencesEqual (same : Trail → Addr → Addr → Traversal (Fault × Trail) Bool) (trail : Trail)
    (x y : Addr) : Traversal (Fault × Trail) Bool := do
  let level := trail.findIdx? (·.1 == x)
  if level ≠ trail.findIdx? (·.2 == y) then return false
  else if level.isSome then return true
  else
    let size ← look (·.extent x)
    if size ≠ (← look (·.extent y)) then return false
    else
      let inner := (x, y) :: trail
      let c ← begin (·, inner) x []
      let d ← begin (·, inner) y [c.handle]
      both (·, inner) (same inner) size c d

/-- The comparison inside a trail, within `n` levels. -/
def equalWithin (ignoreCase : Bool) :
    ℕ → Trail → Addr → Addr → Traversal (Fault × Trail) Bool
  | 0, trail, _, _ => throw (.endless, trail)
  | n + 1, trail, x, y => do
    if (← look (·.kind x)) ≠ (← look (·.kind y)) then return false
    else if x = y then return true
    else
      match ← look (·.body x), ← look (·.body y) with
      | .nothing, .nothing => return true
      | .word v, .word w => ask (Query.wordsEqual ignoreCase x v y w)
      | .list _, _ | .array .., _ => sequencesEqual (equalWithin ignoreCase n) trail x y
      | _, _ => return false

/-- The search for a value in the one at an address, within `n` levels. -/
def searchWithin (ignoreCase : Bool) (needle : Addr) :
    ℕ → List Addr → Addr → Traversal Fault (Bool × List Addr)
  | 0, _, _ => throw .endless
  | n + 1, seen, x => do
    match ← look (·.body x) with
    | .word w =>
      match ← look (·.body needle) with
      | .word v => return ((← ask (Query.wordSeek? ignoreCase x w needle v)).isSome, seen)
      | _ => return (false, seen)
    | .list _ | .array .. =>
      if seen.contains x then return (false, seen)
      else
        let size ← look (·.extent x)
        let c ← begin id x []
        let search := fun seen e =>
          if e = needle then return (true, seen) else searchWithin ignoreCase needle n seen e
        let visit := fun e (_, seen) => do
          let (found, seen) ← search seen e
          if found then return .done (true, seen) else return .yield (false, seen)
        each id visit (size + 1) c (false, x :: seen)
    | _ => return (false, seen)

/-- The elements of a sequence, written by `write` and separated by blanks.  The first element is
owned until all are written. -/
def writeElements (write : Addr → Traversal ε String) (halt : Fault → ε) (o : PrintOptions)
    (x : Addr) : Traversal ε String := do
  let size ← look (·.extent x)
  let c ← begin halt x []
  match ← advance halt c [] with
  | (none, c) => holding [c.handle] (return "")
  | (some e, c) =>
    holding [e] do
      if o.depthLimit = some 0 ∨ o.widthLimit = some 0 then holding [c.handle] (return "...")
      else
        let text ← keeping [c.handle] (write e)
        Prod.fst <$> each halt (writeNext write) (size + 1) c (text, o.widthLimit.map (· - 1))

/-- The written form of the value at an address, within `n` levels, while the sequences in `writing`
are being written. -/
def renderWithin :
    ℕ → List Addr → Style → PrintOptions → Addr → Traversal (Fault × List Addr) String
  | 0, writing, _, _, _ => throw (.endless, writing)
  | n + 1, writing, style, o, x => do
    match ← look (·.body x) with
    | .word w => ask (Query.renderWord x w o)
    | .list _ | .array .. =>
      match style with
      | .bare => writeElements (renderWithin n writing .delimited o.deeper) (·, writing) o x
      | .delimited =>
        if writing.contains x then return "..."
        else
          let writing := x :: writing
          let inner ←
            writeElements (renderWithin n writing .delimited o.deeper) (·, writing) o x
          let (opening, closing) := Heap.brackets (← look (·.kind x))
          return opening ++ inner ++ closing
    | .node name children =>
      let text ← renderWithin n writing .delimited o name
      takeAll children
      let texts ← consume (renderWithin n writing .delimited o) children
      return "( " ++ " ".intercalate (text :: texts) ++ " )"
    | .error _ text _ => renderWithin n writing .bare o text
    | body => return body.kind.name

/-! ### As they are called -/

/-- The comparison inside a trail. -/
def equalOn (ignoreCase : Bool) (trail : Trail) (x y : Addr) :
    Traversal (Fault × Trail) Bool := do
  let size ← look (·.blocks.size)
  equalWithin ignoreCase (size + 2) trail x y

/-- A comparison that starts from a trail and leaves one behind. -/
def compare (ignoreCase : Bool) (trail : Trail) (x y : Addr) :
    StateM Store (Except Fault Bool × Trail) := do
  match ← (equalOn ignoreCase trail x y).run with
  | .error (f, trail) => return (.error f, trail)
  | .ok true => return (.ok true, trail)
  | .ok false => return (.ok false, if (← get).heap.usesTrail x y then [] else trail)

/-- Whether the values at two addresses are equal. -/
def equal (ignoreCase : Bool) (x y : Addr) : Operation Bool :=
  (equalOn ignoreCase [] x y).adapt Prod.fst

/-- Whether the value at an address contains another. -/
def contains (ignoreCase : Bool) (x needle : Addr) : Operation Bool := do
  match ← look (·.kind x) with
  | .word | .list | .array => do
    let size ← look (·.blocks.size)
    return (← searchWithin ignoreCase needle (size + 2) [] x).1
  | k => throw (.refused (.unsupported .contains k))

/-- Whether a value is an element of the one at an address, or a part of the word there.  The slots
of an array are copied before they are compared. -/
def isMember (ignoreCase : Bool) (x value : Addr) : Operation Bool := do
  match ← look (·.body x) with
  | .word w =>
    match ← look (·.body value) with
    | .word v => return (← ask (Query.wordSeek? ignoreCase x w value v)).isSome
    | _ => return false
  | .list _ =>
    let size ← look (·.extent x)
    let c ← begin id x []
    let visit := fun e _ => do
      if ← equal ignoreCase value e then return .done true else return .yield false
    each id visit (size + 1) c false
  | .array _ slots => do
    takeAll slots
    holding slots (slots.anyM (equal ignoreCase · value))
  | body => throw (.refused (.unsupported .isMember body.kind))

/-- The written form of the value at an address while some sequences are being written. -/
def renderOn (writing : List Addr) (style : Style) (o : PrintOptions) (x : Addr) :
    Traversal (Fault × List Addr) String := do
  let size ← look (·.blocks.size)
  renderWithin ((size + 2) * (size + 2)) writing style o x

/-- A rendering that starts while some sequences are being written, and the sequences that are being
written when it ends. -/
def renderFrom (writing : List Addr) (style : Style) (o : PrintOptions) (x : Addr) :
    StateM Store (Except Fault String × List Addr) := do
  match ← (renderOn writing style o x).run with
  | .error (f, writing) => return (.error f, writing)
  | .ok s => return (.ok s, writing)

/-- The written form of the value at an address. -/
def render (style : Style) (o : PrintOptions) (x : Addr) : Operation String :=
  (renderOn [] style o x).adapt Prod.fst

end Traversal

/-! ### Walks without handles -/

namespace Query

variable {ε : Type} {found : List Addr} {fault? : Option Fault} {halt : Fault → ε} {w : Walk}

/-- A search along a walk stops at the first element that holds what is sought. -/
theorem searchWalk_eq (search : List Addr → Addr → Query Fault (Bool × List Addr))
    (seen : List Addr) :
    Heap.searchWalk search found fault? seen =
      each id (fun e s => do
        let (found, seen) ← search s.2 e
        if found then return .done (true, seen) else return .yield (false, seen))
        found fault? (false, seen) := by
  induction found generalizing seen with
  | nil => cases fault? <;> rfl
  | cons e es ih =>
    rw [Heap.searchWalk, each, bind_assoc]
    congr 1
    funext r
    obtain ⟨_ | _, seen'⟩ := r
    · exact ih seen'
    · rfl

/-- A member is looked for up to the first one. -/
theorem isSome_firstMatch_eq (test : Addr → Query Fault Bool) (i : ℕ) :
    Option.isSome <$> Heap.firstMatch test found fault? i =
      each id (fun e _ => do if ← test e then return .done true else return .yield false)
        found fault? false := by
  induction found generalizing i with
  | nil => cases fault? <;> rfl
  | cons e es ih =>
    rw [Heap.firstMatch, each, bind_assoc, map_bind]
    refine bind_congr fun r => ?_
    cases r with
    | true => rfl
    | false => exact ih (i + 1)

theorem isSome_firstMatch_eq_anyM (test : Addr → Query Fault Bool) (i : ℕ) :
    Option.isSome <$> Heap.firstMatch test found none i = found.anyM test := by
  induction found generalizing i with
  | nil => rfl
  | cons e es ih =>
    rw [Heap.firstMatch, List.anyM, map_bind]
    refine bind_congr fun r => ?_
    cases r with
    | true => rfl
    | false => exact ih (i + 1)

/-- A width that is not used up has room for the first element. -/
theorem take_width_cons {width : Option ℕ} (hwidth : width ≠ some 0) (e : Addr)
    (es : List Addr) :
    (e :: es).take (width.getD (e :: es).length) =
        e :: es.take ((width.map (· - 1)).getD es.length) ∧
      (width.getD (e :: es).length < (e :: es).length ↔
        (width.map (· - 1)).getD es.length < es.length) := by
  cases width with
  | none => simp
  | some n =>
    obtain ⟨n, rfl⟩ : ∃ m, n = m + 1 := Nat.exists_eq_succ_of_ne_zero fun hn => hwidth (by rw [hn])
    simp

/-- Elements after others are written one by one. -/
theorem each_writeNext (write : Addr → Query ε String) (text : String) (width : Option ℕ) :
    Prod.fst <$> each halt (writeNext write) found fault? (text, width) = do
      let texts ← (found.take (width.getD found.length)).mapM write
      if width.getD found.length < found.length then return text ++ spaced (texts ++ ["..."])
      else
        match fault? with
        | some f => throw (halt f)
        | none => return text ++ spaced texts := by
  induction found generalizing text width with
  | nil =>
    cases fault? with
    | none => simp [each, spaced]
    | some f => simp [each]
  | cons e es ih =>
    -- at width zero the rest is elided; otherwise one element is written and one less may follow
    by_cases hwidth : width = some 0
    · subst hwidth
      simp [each, writeNext, spaced, String.append_assoc]
    obtain ⟨htake, hless⟩ := take_width_cons hwidth e es
    rw [htake, List.mapM_cons, each, writeNext]
    simp only [if_neg hwidth, bind_assoc, pure_bind, map_bind, hless]
    refine bind_congr fun t => ?_
    rw [ih]
    simp [spaced, String.append_assoc]

/-- The elements of a walk, written one by one. -/
def writeElements (write : Addr → Query ε String) (halt : Fault → ε) (o : PrintOptions) :
    List Addr → Option Fault → Query ε String
  | [], some f => throw (halt f)
  | [], none => return ""
  | e :: es, fault? => do
    if o.depthLimit = some 0 ∨ o.widthLimit = some 0 then return "..."
    else
      let text ← write e
      Prod.fst <$> each halt (writeNext write) es fault? (text, o.widthLimit.map (· - 1))

/-- Elements are written all the same if they are written one by one. -/
theorem renderWalk_eq (write : Addr → Query ε String) (o : PrintOptions) :
    Heap.renderWalk write halt o w = writeElements write halt o w.found w.fault? := by
  unfold Heap.renderWalk
  generalize w.fault? = fault?
  cases w.found with
  | nil => cases fault? <;> rfl
  | cons e es =>
    rw [writeElements, if_neg (by simp)]
    -- the first element stands apart, as no blank comes before it
    split
    · rfl
    next hlimits =>
    obtain ⟨htake, hless⟩ := take_width_cons (not_or.mp hlimits).2 e es
    dsimp only
    rw [htake, List.mapM_cons]
    simp only [each_writeNext, bind_assoc, pure_bind, hless]
    refine bind_congr fun text => bind_congr fun texts => ?_
    simp only [List.cons_append, intercalate_cons]
    cases fault? <;> rfl

end Query

namespace Traversal

variable {ε : Type}

/-! ### Nothing is spent -/

namespace Spends

open Heap

variable {h : Heap}

variable {ignoreCase : Bool} {n : ℕ} {trail : Trail} {x y : Addr}

/-- Both cursors are given up when two sequences have been compared. -/
theorem sequencesEqual (hh : h.InUse)
    {same : Trail → Addr → Addr → Traversal (Fault × Trail) Bool}
    (hsame : ∀ trail x y, Spends h 0 (same trail x y) (h.equalWithin ignoreCase n trail x y))
    (hx : h.IsSequence x) (hkind : h.kind x = h.kind y) (hne : x ≠ y) :
    Spends h 0 (sequencesEqual same trail x y) (h.equalWithin ignoreCase (n + 1) trail x y) := by
  have hy : h.IsSequence y := by rwa [IsSequence, ← hkind]
  rw [equalWithin_of_sequence hx hkind hne]
  unfold Traversal.sequencesEqual
  dsimp only
  split
  · exact spends_pure h false
  split
  · exact spends_pure h true
  -- the extents are read while both sequences are held, so no handle is needed for them
  refine look (fun _ => extent_lent ..) (look (fun _ => extent_lent ..) ?_)
  split
  · exact spends_pure h false
  next hextent =>
  rw [not_not] at hextent
  -- from here on one cursor is open on each sequence, and both are closed whatever happens
  refine begin [] hx fun c hc => begin [c.handle] hy fun d hd => ?_
  rw [← hextent] at hd
  exact (both hh (fun a _ b _ => hsame _ a b) hc hd).of_eq (Multiset.cons_swap _ _ 0)

/-- **A comparison gives up what it takes**, and is the one that reads a fixed heap. -/
theorem equalWithin (hh : h.InUse) (ignoreCase : Bool) (n : ℕ) (trail : Trail) (x y : Addr) :
    Spends h 0 (equalWithin ignoreCase n trail x y) (h.equalWithin ignoreCase n trail x y) := by
  induction n generalizing trail x y with
  | zero => exact spends_throw h _
  | succ n ih =>
    refine look (fun _ => kind_lent ..) (look (fun _ => kind_lent ..) ?_)
    split
    · next hkind =>
      rw [Heap.equalWithin, if_pos hkind]
      exact spends_pure h false
    next hkind =>
    split
    · next hsame =>
      rw [Heap.equalWithin, if_neg hkind, if_pos hsame]
      exact spends_pure h true
    next hne =>
    refine look (fun _ => body_lent ..) (look (fun _ => body_lent ..) ?_)
    -- two words and two sequences are the pairs that have something to compare
    split
    case h_1 hx hy =>
      rw [Heap.equalWithin, if_neg hkind, if_neg hne, hx, hy]
      exact spends_pure h true
    case h_2 v w hx hy =>
      rw [equalWithin_of_words hx hy hne]
      exact spends_ask h _
    case h_3 | h_4 =>
      exact sequencesEqual hh ih (by simp [IsSequence, kind, *, Body.kind]) (not_not.mp hkind) hne
    -- the pairs left over are of one kind but hold nothing to compare
    case h_5 hlist harray hnothing hword =>
      rw [Heap.equalWithin, if_neg hkind, if_neg hne]
      split
      · exact (hnothing ‹_› ‹_›).elim
      · exact (hword _ _ ‹_› ‹_›).elim
      · exact (hlist _ ‹_›).elim
      · exact (harray _ _ ‹_›).elim
      · exact spends_pure h false

/-- **A search gives up what it takes**, and is the one that reads a fixed heap. -/
theorem searchWithin (hh : h.InUse) (ignoreCase : Bool) (needle : Addr) (n : ℕ)
    (seen : List Addr) (x : Addr) :
    Spends h 0 (searchWithin ignoreCase needle n seen x)
      (h.searchWithin ignoreCase needle n seen x) := by
  induction n generalizing seen x with
  | zero => exact spends_throw h _
  | succ n ih =>
    refine look (fun _ => body_lent ..) ?_
    rw [Heap.searchWithin]
    cases hx : h.body x with
    | word w =>
      refine look (fun _ => body_lent ..) ?_
      cases h.body needle with
      | word v => exact (spends_ask h _).bind fun r => spends_pure h _
      | _ => exact spends_pure h (false, seen)
    | list | array =>
      dsimp only
      split
      · exact spends_pure h (false, seen)
      refine look (fun _ => extent_lent ..) ?_
      have hseq : h.IsSequence x := by simp [IsSequence, kind, hx, Body.kind]
      -- the cursor on the sequence stays open while its elements are searched
      refine begin [] hseq fun c hc => ?_
      rw [Query.searchWalk_eq]
      refine each hh (fun e _ s => ?_) hc (Nat.lt_succ_self _) (false, x :: seen)
      refine bind ?_ fun r => ?_
      · split
        · exact spends_pure h (true, s.2)
        · exact ih s.2 e
      · obtain ⟨_ | _, seen⟩ := r <;> exact spends_pure h _
    | _ => exact spends_pure h (false, seen)

/-- A test of some values one after the other. -/
theorem anyM {as : List Addr} {test : Addr → Traversal ε Bool} {test' : Addr → Query ε Bool}
    (htest : ∀ a ∈ as, Spends h 0 (test a) (test' a)) :
    Spends h 0 (as.anyM test) (as.anyM test') := by
  induction as with
  | nil => exact spends_pure h false
  | cons a as ih =>
    rw [List.anyM, List.anyM]
    refine (htest a List.mem_cons_self).bind fun r => ?_
    cases r with
    | true => exact spends_pure h true
    | false => exact ih fun b hb => htest b (List.mem_cons_of_mem a hb)

/-- The first element and the cursor are given up when the elements are written. -/
theorem writeElements (hh : h.InUse) {write : Addr → Traversal ε String}
    {write' : Addr → Query ε String} (hwrite : ∀ a, Spends h 0 (write a) (write' a))
    (halt : Fault → ε) (o : PrintOptions) (hx : h.IsSequence x) :
    Spends h 0 (writeElements write halt o x) (renderWalk write' halt o (h.elements x)) := by
  rw [Query.renderWalk_eq]
  refine look (fun _ => extent_lent ..) (begin [] hx fun c hc => ?_)
  generalize h.elements x = w, h.extent x = size at hc
  cases hc.advances hh with
  | broken hrun => exact advance_of_broken hh hrun
  | nil hrun => exact advance_of_nil hrun (holding_pure hh [c.handle] "")
  | @cons n d e es broken hrest hrun =>
    -- the first element is taken from the cursor and given up once its text is written
    have hswap : (↑[e] + ↑[d.handle] : Multiset Addr) = d.handle ::ₘ ↑[e] :=
      add_comm (↑[e] : Multiset Addr) ↑[d.handle]
    refine advance_of_cons hrun (of_eq (holding hh [e] ?_) hswap)
    dsimp only [Query.writeElements]
    split
    · exact holding_pure hh [d.handle] "..."
    refine (keeping hh [d.handle] (hwrite e) fun text => ?_).of_eq (zero_add _)
    refine map (each hh (fun a _ s => ?_) hrest (by omega) (text, _)) Prod.fst
    obtain ⟨text, width⟩ := s
    unfold writeNext
    dsimp only
    split
    · exact spends_pure h _
    · exact (hwrite a).bind fun t => spends_pure h _

/-- **A rendering gives up what it takes**, and is the one that reads a fixed heap. -/
theorem renderWithin (hh : h.InUse) (n : ℕ) (writing : List Addr) (style : Style)
    (o : PrintOptions) (x : Addr) :
    Spends h 0 (renderWithin n writing style o x) (h.renderWithin n writing style o x) := by
  induction n generalizing writing style o x with
  | zero => exact spends_throw h _
  | succ n ih =>
    refine look (fun _ => body_lent ..) ?_
    cases hx : h.body x with
    | word w =>
      rw [renderWithin_word _ _ _ _ hx]
      exact spends_ask h _
    | list | array =>
      have hseq : h.IsSequence x := by simp [IsSequence, kind, hx, Body.kind]
      -- the elements are written the same way in both styles
      have hinner := fun writing => writeElements hh (fun a => ih writing .delimited o.deeper a)
        (·, writing) o hseq
      cases style with
      | bare =>
        rw [renderWithin_bare _ _ _ hseq]
        exact hinner writing
      | delimited =>
        rw [renderWithin_delimited _ _ _ hseq, renderWithin_bare _ _ _ hseq]
        dsimp only
        by_cases hmem : x ∈ writing
        · rw [if_pos (List.contains_iff_mem.mpr hmem), if_pos hmem]
          exact spends_pure h "..."
        · rw [if_neg (mt List.contains_iff_mem.mp hmem), if_neg hmem]
          exact (hinner (x :: writing)).bind fun inner =>
            look (fun _ => kind_lent ..) (spends_pure h _)
    | node name children =>
      rw [renderWithin_node _ _ _ _ hx, parts_of_node hx, List.mapM_cons, bind_assoc]
      refine (ih _ _ _ name).bind fun text => takeAll ?_
      rw [bind_assoc, add_zero]
      refine (consume hh fun a _ => ih _ _ _ a).bind fun texts => ?_
      rw [pure_bind]
      exact spends_pure h _
    | error code text tag =>
      rw [renderWithin_error _ _ _ _ hx]
      exact ih _ _ _ text
    | _ =>
      rw [renderWithin_plain _ _ _ _ (by simp [IsPlain, kind, hx, Body.kind]), kind, hx]
      exact spends_pure h _

/-! ### As they are called -/

theorem equalOn (hh : h.InUse) (ignoreCase : Bool) (trail : Trail) (x y : Addr) :
    Spends h 0 (equalOn ignoreCase trail x y) (h.equalOn ignoreCase trail x y) :=
  look (fun _ => size_blocks_lent ..) (equalWithin hh ignoreCase _ trail x y)

theorem equal (hh : h.InUse) (ignoreCase : Bool) (x y : Addr) :
    Spends h 0 (equal ignoreCase x y) (h.equal ignoreCase x y) :=
  (equalOn hh ignoreCase [] x y).adapt Prod.fst

theorem contains (hh : h.InUse) (ignoreCase : Bool) (x needle : Addr) :
    Spends h 0 (contains ignoreCase x needle) (h.contains ignoreCase x needle) := by
  refine look (fun _ => kind_lent ..) ?_
  unfold Heap.contains
  cases h.kind x with
  | word | list | array =>
    exact look (fun _ => size_blocks_lent ..)
      ((searchWithin hh ignoreCase needle _ [] x).bind fun r => spends_pure h r.1)
  | _ => exact spends_throw h _

theorem isMember (hh : h.InUse) (ignoreCase : Bool) (x value : Addr) :
    Spends h 0 (isMember ignoreCase x value) (h.isMember ignoreCase x value) := by
  refine look (fun _ => body_lent ..) ?_
  unfold Heap.isMember
  cases hx : h.body x with
  | word w =>
    refine look (fun _ => body_lent ..) ?_
    cases h.body value with
    | word v => exact (spends_ask h _).bind fun r => spends_pure h _
    | _ => exact spends_pure h false
  | list l =>
    have hseq : h.IsSequence x := .inl (by rw [kind, hx, Body.kind])
    show Spends h 0 _ (Option.isSome <$> _)
    rw [Query.isSome_firstMatch_eq]
    refine look (fun _ => extent_lent ..) (begin [] hseq fun c hc => ?_)
    refine each hh (fun e _ _ => ?_) hc (Nat.lt_succ_self _) false
    refine (equal hh ignoreCase value e).bind fun r => ?_
    split <;> exact spends_pure h _
  | array origin slots =>
    -- no array breaks off: the handles of its slots are taken before the first comparison
    have hslots : (h.elements x).found = slots ∧ (h.elements x).fault? = none := by
      simp [elements, hx, Walk.fault?]
    show Spends h 0 _ (Option.isSome <$> firstMatch (fun e => h.equal ignoreCase e value)
      (h.elements x).found (h.elements x).fault? 0)
    rw [hslots.1, hslots.2, Query.isSome_firstMatch_eq_anyM]
    exact takeAll (holding hh slots (anyM fun e _ => equal hh ignoreCase e value))
  | _ => exact spends_throw h _

theorem renderOn (hh : h.InUse) (writing : List Addr) (style : Style) (o : PrintOptions)
    (x : Addr) : Spends h 0 (renderOn writing style o x) (h.renderOn writing style o x) :=
  look (fun _ => size_blocks_lent ..) (renderWithin hh _ writing style o x)

theorem render (hh : h.InUse) (style : Style) (o : PrintOptions) (x : Addr) :
    Spends h 0 (render style o x) (h.render style o x) :=
  (renderOn hh [] style o x).adapt Prod.fst

end Spends

end Traversal

end SharedValues
