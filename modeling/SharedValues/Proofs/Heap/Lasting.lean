import SharedValues.Proofs.Chain.Elements

/-!
# Words last

No operation writes a word, so a word that is still there is the word that it was.  Other values
may get another content meanwhile, and none of them becomes a word.  The new content is one of the
same kind.

## Main definitions

* `Heap.Lasting h h'` — what is left of `h` in `h'` has the word that it had, if it had one.
* `Heap.KeepsKinds h h'` — what is left of `h` in `h'` has the kind that it had.

## Main results

* `kept_lasting` — words last under all moves.
* `kept_kinds` — so do kinds.
-/

namespace SharedValues

namespace Heap

/-- What is left of `h` in `h'` was there before, and is a word exactly if it was, the same one. -/
structure Lasting (h h' : Heap) : Prop where
  /-- No address is given out twice. -/
  size_le : h.blocks.size ≤ h'.blocks.size
  /-- What is left was there. -/
  live : ∀ {a}, a < h.blocks.size → h'.Live a → h.Live a
  /-- What is left has the word that it had. -/
  word_eq : ∀ {a}, a < h.blocks.size → h'.Live a → (h'.body a).word? = (h.body a).word?

namespace Lasting

variable {h h' h'' : Heap} {a c item m n x : Addr}

theorem of_spares (hh : h.Spares h') : h.Lasting h' where
  size_le := hh.size_le
  live := hh.live
  word_eq ha hlive := by rw [hh.body_eq ha hlive]

theorem refl (h : Heap) : h.Lasting h := of_spares (.refl h)

theorem trans (hh : h.Lasting h') (hh' : h'.Lasting h'') : h.Lasting h'' where
  size_le := hh.size_le.trans hh'.size_le
  live ha hlive := hh.live ha (hh'.live (ha.trans_le hh.size_le) hlive)
  word_eq ha hlive :=
    have hlt := ha.trans_le hh.size_le
    (hh'.word_eq hlt hlive).trans (hh.word_eq ha (hh'.live hlt hlive))

/-- A word that is left is the word that it was. -/
theorem body_of_word (hh : h.Lasting h') {w : Word} (hw : h.body a = .word w) (ha : h'.Live a) :
    h'.body a = .word w := by
  have hword := hh.word_eq (live_of_body hw (by simp)).lt_size ha
  rw [hw] at hword
  cases hbody : h'.body a <;> rw [hbody] at hword <;> simp_all [Body.word?]

/-- Another content where there was no word, and no word either. -/
theorem setBody {body : Body} (hold : (h.body a).word? = none) (hnew : body.word? = none) :
    h.Lasting (h.setBody a body) where
  size_le := by rw [Heap.setBody, modify, Array.size_modify]
  live _ := live_setBody.mp
  word_eq {b} _ hb := by
    by_cases hba : b = a
    · subst hba
      rw [body_setBody (live_setBody.mp hb), hold, hnew]
    · rw [body_setBody_of_ne hba]

/-- A cell linked anew, and a list with a new header. -/
theorem relink {l header : ListHeader} (hx : h.body x = .list l) (hc : h.body c = .cell item n)
    (as : List Addr) : h.Lasting (h.relink c item m as x header) := by
  have hlinked : h.Lasting ((h.retain m).setBody c (.cell item m)) := by
    refine (of_spares (.modify (body_retain h m))).trans (setBody ?_ rfl)
    exact (congrArg Body.word? ((body_retain ..).trans hc)).trans rfl
  refine hlinked.trans ((of_spares (.of_thins (releaseAll_thins _ as))).trans (setBody ?_ rfl))
  -- the list is still there, or nothing is read in its place
  set g := (h.retain m).setBody c (.cell item m)
  by_cases hlive : (g.releaseAll as).Live x
  · have hxc : x ≠ c := by
      rintro rfl
      simp [hx] at hc
    rw [(releaseAll_thins g as).body_eq hlive, body_setBody_of_ne hxc, body_retain, hx]
    rfl
  · have hnothing : (g.releaseAll as).body x = .nothing := by
      by_contra hne
      exact hlive (live_of_body rfl hne)
    rw [hnothing]
    rfl

end Lasting

end Heap

open Heap

/-- No move writes a word. -/
theorem Move.lasting {act : Act} {c d : Custody} (hm : Move act c d) : c.heap.Lasting d.heap := by
  by_cases hhold : act = .hold
  -- what is only made or given up changes no content
  · subst hhold
    exact .of_spares hm.spares
  have hset : ∀ {h : Heap} {a : Addr} {b b' : Body}, h.body a = b → b.word? = none →
      b'.word? = none → h.Lasting (h.setBody a b') := fun hold hword hnew =>
    .setBody (hold ▸ hword) hnew
  cases hm with
  | slots hx _ | children hx _ | item hx _ | link hx _ | header hx _ _ | recount hx _
  | parse hx _ => exact hset hx rfl rfl
  | @prepend h held x item l hx =>
    -- the new cell comes first, and then only a header is written
    refine (Lasting.of_spares (.alloc h false (by simp))).trans (hset (b := .list l) ?_ rfl rfl)
    rw [body_alloc, if_neg (live_of_body hx (by simp)).ne_size, hx]
  | extend hx _ _ hlast _ _ _ => exact .relink hx hlast _
  | tail hx _ _ hc _ => exact .relink hx hc _
  | _ => exact absurd rfl hhold

/-- **Words last** under all moves. -/
theorem kept_lasting (h₀ : Heap) :
    Kept Set.univ fun held h => h.Exact held ∧ h₀.Lasting h := by
  refine ⟨Set.mem_univ _, And.left, ?_⟩
  rintro act c d - hmove ⟨hexact, hlasting⟩
  exact ⟨hmove.exact hexact, hlasting.trans hmove.lasting⟩

/-! ### Kinds -/

namespace Heap

/-- What is left of `h` in `h'` was there before, and has the kind that it had. -/
structure KeepsKinds (h h' : Heap) : Prop where
  /-- No address is given out twice. -/
  size_le : h.blocks.size ≤ h'.blocks.size
  /-- What is left was there. -/
  live : ∀ {a}, a < h.blocks.size → h'.Live a → h.Live a
  /-- What is left has the kind that it had. -/
  kind_eq : ∀ {a}, a < h.blocks.size → h'.Live a → h'.kind a = h.kind a

namespace KeepsKinds

variable {h h' h'' : Heap} {a c item m n x : Addr}

theorem of_spares (hh : h.Spares h') : h.KeepsKinds h' where
  size_le := hh.size_le
  live := hh.live
  kind_eq ha hlive := by rw [kind, kind, hh.body_eq ha hlive]

theorem refl (h : Heap) : h.KeepsKinds h := of_spares (.refl h)

theorem trans (hh : h.KeepsKinds h') (hh' : h'.KeepsKinds h'') : h.KeepsKinds h'' where
  size_le := hh.size_le.trans hh'.size_le
  live ha hlive := hh.live ha (hh'.live (ha.trans_le hh.size_le) hlive)
  kind_eq ha hlive :=
    have hlt := ha.trans_le hh.size_le
    (hh'.kind_eq hlt hlive).trans (hh.kind_eq ha (hh'.live hlt hlive))

/-- Another content of the same kind. -/
theorem setBody {body : Body} (hkind : h.Live a → h.kind a = body.kind) :
    h.KeepsKinds (h.setBody a body) where
  size_le := by rw [Heap.setBody, modify, Array.size_modify]
  live _ := live_setBody.mp
  kind_eq {b} _ hb := by
    by_cases hba : b = a
    · subst hba
      rw [hkind (live_setBody.mp hb), kind, body_setBody (live_setBody.mp hb)]
    · rw [kind, kind, body_setBody_of_ne hba]

/-- A cell linked anew, and a list with a new header. -/
theorem relink {l header : ListHeader} (hx : h.body x = .list l) (hc : h.body c = .cell item n)
    (as : List Addr) : h.KeepsKinds (h.relink c item m as x header) := by
  have hlinked : h.KeepsKinds ((h.retain m).setBody c (.cell item m)) := by
    refine (of_spares (.modify (body_retain h m))).trans (setBody fun _ => ?_)
    exact (congrArg Body.kind ((body_retain h m c).trans hc)).trans rfl
  refine hlinked.trans ((of_spares (.of_thins (releaseAll_thins _ as))).trans
    (setBody fun hlive => ?_))
  have hxc : x ≠ c := by
    rintro rfl
    simp [hx] at hc
  rw [kind, (releaseAll_thins _ as).body_eq hlive, body_setBody_of_ne hxc, body_retain, hx]
  rfl

end KeepsKinds

end Heap

/-- No move changes a kind. -/
theorem Move.keepsKinds {act : Act} {c d : Custody} (hm : Move act c d) :
    c.heap.KeepsKinds d.heap := by
  by_cases hhold : act = .hold
  -- what is only made or given up changes no kind
  · subst hhold
    exact .of_spares hm.spares
  have hset : ∀ {h : Heap} {a : Addr} {b b' : Body}, h.body a = b → b.kind = b'.kind →
      h.KeepsKinds (h.setBody a b') := fun hold hkind =>
    .setBody fun _ => (congrArg Body.kind hold).trans hkind
  cases hm with
  | slots hx _ | children hx _ | item hx _ | link hx _ | header hx _ _ | recount hx _
  | parse hx _ => exact hset hx rfl
  | @prepend h held x item l hx =>
    -- the new cell comes first, and then only a header is written
    refine (KeepsKinds.of_spares (.alloc h false (by simp))).trans (hset (b := .list l) ?_ rfl)
    rw [body_alloc, if_neg (live_of_body hx (by simp)).ne_size, hx]
  | extend hx _ _ hlast _ _ _ => exact .relink hx hlast _
  | tail hx _ _ hc _ => exact .relink hx hc _
  | _ => exact absurd rfl hhold

/-- **Kinds last** under all moves. -/
theorem kept_kinds (h₀ : Heap) :
    Kept Set.univ fun held h => h.Exact held ∧ h₀.KeepsKinds h := by
  refine ⟨Set.mem_univ _, And.left, ?_⟩
  rintro act c d - hmove ⟨hexact, hkinds⟩
  exact ⟨hmove.exact hexact, hkinds.trans hmove.keepsKinds⟩

end SharedValues
