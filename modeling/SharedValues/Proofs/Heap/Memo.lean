import SharedValues.Proofs.Chain.Shared
import SharedValues.Proofs.Heap.Lasting
import SharedValues.Proofs.Session.Refusal

/-!
# What a list remembers

A list remembers its parsed form and the time at which that was made.  Of the moves, only the one
that gives a list a parsed form puts anything there.  Some others make a list forget: the header of
that list is written anew, and nothing is left of what it remembered.  All the rest leave what a
list remembers alone, and a list that is made remembers nothing.

## Main definitions

* `ListHeader.memo` — the time stamp and the parsed form.
* `Heap.Tidy` — a list without a time stamp has no parsed form.
* `Heap.Forgetful`, `Heap.Remembers` — what the list at an address remembers.

## Main results

* `Move.memo_or` — a move leaves what a list remembers, or makes it forget.
* `kept_tidy`, `kept_recalling` — what sequences of moves keep.
* `Remembers.rewritten` — when the header of a list is written, the others forget nothing.
-/

namespace SharedValues

/-- What a list remembers of its parsing: the time stamp and the parsed form. -/
def ListHeader.memo (l : ListHeader) : ℕ × List Addr := (l.stamp, l.parsed)

namespace Heap

variable {h g : Heap} {a c item m n x y z : Addr} {k l header : ListHeader} {as : List Addr}
  {old new : Body} {w : Option CellWrite} {memo : ℕ × List Addr}

/-- **A list without a time stamp has no parsed form.** -/
def Tidy (h : Heap) : Prop := ∀ x l, h.body x = .list l → l.stamp = 0 → l.parsed = []

/-- A list remembers nothing, if it is there. -/
def Forgetful (h : Heap) (x : Addr) : Prop := ∀ l, h.body x = .list l → l.memo = (0, [])

/-- **What the list at an address remembers**, if it is still there. -/
structure Remembers (h : Heap) (x : Addr) (memo : ℕ × List Addr) : Prop where
  /-- The address was given out, so that no new list comes there. -/
  lt_size : x < h.blocks.size
  /-- What the list remembers. -/
  memo_eq : ∀ l, h.body x = .list l → l.memo = memo

/-- A list remembers something, in a heap that is in order. -/
def Recalling (x : Addr) (memo : ℕ × List Addr) (held : Multiset Addr) (h : Heap) : Prop :=
  (h.Exact held ∧ h.Founded) ∧ h.Remembers x memo

/-! ### One move -/

/-- Another content at an address, with what it makes a list remember. -/
theorem memo_or_of_setBody {p : Prop} (hold : h.body a = old) (hnot : old ≠ .nothing)
    (hnew : new = .list k → (∃ l, old = .list l ∧ l.memo = k.memo) ∨ p)
    (hy : (h.setBody a new).body y = .list k) :
    (∃ l, h.body y = .list l ∧ l.memo = k.memo) ∨ p := by
  by_cases hya : y = a
  · subst hya
    rw [body_setBody (live_of_body hold hnot)] at hy
    rw [hold]
    exact hnew hy
  · exact .inl ⟨k, (body_setBody_of_ne hya new).symm.trans hy, rfl⟩

/-- A cell linked anew: the list with the new header forgets, the others do not. -/
theorem memo_or_of_relink (hx : h.body x = .list l) (hc : h.body c = .cell item n) {head : Addr}
    {size : ℕ} (hy : (h.relink c item m as x { head, size }).body y = .list k) :
    (∃ l, h.body y = .list l ∧ l.memo = k.memo) ∨ k.memo = (0, []) := by
  by_cases hyx : y = x
  · subst hyx
    obtain rfl := Body.list.inj ((body_relink_list (live_of_body hy (by simp))).symm.trans hy)
    exact .inr rfl
  · exact .inl ⟨k, list_of_relink hx hc hyx hy, rfl⟩

end Heap

open Heap

/-- Values that are made and given up change no list, and a new list remembers nothing. -/
theorem Move.memo_or_of_hold {c d : Custody} {y : Addr} {k : ListHeader} (hm : Move .hold c d)
    (hy : d.heap.body y = .list k) : c.heap.body y = .list k ∨ k.memo = (0, []) := by
  cases hm with
  | retain _ => exact .inl ((body_retain ..).symm.trans hy)
  | releaseAll as =>
    exact .inl (((releaseAll_thins _ as).body_eq (live_of_body hy (by simp))).symm.trans hy)
  | nothing => exact .inl ((body_ensureNothing ..).symm.trans hy)
  | truth value => exact .inl (list_of_ensureTruth hy)
  | usage => exact .inl hy
  | freeze a => exact .inl ((body_freeze ..).symm.trans hy)
  | alloc hfresh =>
    rw [body_alloc] at hy
    split at hy
    -- a new list has no parsed form
    · obtain ⟨hstamp, hparsed⟩ := hfresh.unparsed hy
      exact .inr (Prod.ext hstamp hparsed)
    · exact .inl hy
  | tail _ _ _ _ hact => simp at hact

/-- **A move leaves what a list remembers, or makes it forget**, unless it gives a list a parsed
form. -/
theorem Move.memo_or {act : Act} {c d : Custody} {y : Addr} {k : ListHeader} (hact : act ≠ .parse)
    (hm : Move act c d) (hy : d.heap.body y = .list k) :
    (∃ l, c.heap.body y = .list l ∧ l.memo = k.memo) ∨ k.memo = (0, []) := by
  by_cases hhold : act = .hold
  · subst hhold
    exact (hm.memo_or_of_hold hy).imp_left fun hyc => ⟨k, hyc, rfl⟩
  -- a new header comes without a parsed form
  have hforget : ∀ {head : Addr} {size : ℕ} {old : Body}, Body.list { head, size } = .list k →
      (∃ l, old = .list l ∧ l.memo = k.memo) ∨ k.memo = (0, []) := by
    rintro head size old ⟨⟩
    exact .inr rfl
  cases hm with
  | slots hx _ | children hx _ | item hx _ | link hx _ =>
    exact memo_or_of_setBody hx (by simp) (by simp) hy
  | header hx _ _ => exact memo_or_of_setBody hx (by simp) hforget hy
  | recount hx _ =>
    refine memo_or_of_setBody hx (by simp) ?_ hy
    rintro ⟨⟩
    exact .inl ⟨_, rfl, rfl⟩
  | @prepend h _ x item l hx =>
    have hx' : (h.alloc (.cell item l.head)).2.body x = .list l := by
      rw [body_alloc, if_neg (live_of_body hx (by simp)).ne_size, hx]
    refine (memo_or_of_setBody hx' (by simp) hforget hy).imp_left ?_
    rintro ⟨l', hl', hmemo⟩
    -- the new cell is no list
    rw [body_alloc] at hl'
    split at hl'
    · simp at hl'
    · exact ⟨l', hl', hmemo⟩
  | extend hx _ _ hlast _ _ _ => exact memo_or_of_relink hx hlast hy
  | tail hx _ _ hc _ => exact memo_or_of_relink hx hc hy
  | parse => exact absurd rfl hact
  | _ => exact absurd rfl hhold

/-- The moves that write no header, except for the size, leave what a list remembers. -/
theorem Move.memo_eq {act : Act} {c d : Custody} {y : Addr} {k : ListHeader}
    (hact : act ∈ ({.hold, .fill, .item, .link, .recount} : Set Act)) (hm : Move act c d)
    (hlt : y < c.heap.blocks.size) (hy : d.heap.body y = .list k) :
    ∃ l, c.heap.body y = .list l ∧ l.memo = k.memo := by
  by_cases hhold : act = .hold
  · subst hhold
    exact ⟨k, hm.spares.body_of_list hlt hy, rfl⟩
  cases hm with
  | slots hx _ | children hx _ | item hx _ | link hx _ =>
    exact (memo_or_of_setBody hx (by simp) (by simp) hy).resolve_right id
  | recount hx _ =>
    refine (memo_or_of_setBody hx (by simp) ?_ hy).resolve_right id
    rintro ⟨⟩
    exact .inl ⟨_, rfl, rfl⟩
  | tail _ _ _ _ hown => rcases hown with rfl | ⟨rfl, -⟩ <;> simp at hact
  | _ => simp at hact hhold

/-! ### Sequences of moves -/

/-- **Without a time stamp there is no parsed form**, as long as no list is given one. -/
theorem kept_tidy : Kept {a | a ≠ .parse} fun held h => h.Exact held ∧ h.Tidy := by
  refine ⟨by simp, And.left, ?_⟩
  rintro act c d hact hmove ⟨hexact, htidy⟩
  refine ⟨hmove.exact hexact, fun y k hy hstamp => ?_⟩
  rcases hmove.memo_or hact hy with ⟨l, hl, hmemo⟩ | hmemo
  · obtain ⟨hsame, hparsed⟩ := Prod.mk.inj hmemo
    rw [← hparsed]
    exact htidy y l hl (hsame.trans hstamp)
  · exact congrArg Prod.snd hmemo

/-- What a list remembers is kept by the moves that write no header, except for the size. -/
theorem kept_recalling (x : Addr) (memo : ℕ × List Addr) :
    Kept {.hold, .fill, .item, .link, .recount} (Recalling x memo) := by
  refine ⟨by simp, fun hh => hh.1.1, ?_⟩
  rintro act c d hact hmove ⟨⟨hexact, hfounded⟩, hmemo⟩
  refine ⟨⟨hmove.exact hexact, hmove.founded hfounded⟩,
    hmemo.lt_size.trans_le hmove.lasting.size_le, fun l hl => ?_⟩
  obtain ⟨l', hl', hsame⟩ := hmove.memo_eq hact hmemo.lt_size hl
  exact hsame.symm.trans (hmemo.memo_eq l' hl')

/-! ### New headers -/

namespace Heap

variable {h g : Heap} {x z : Addr} {memo : ℕ × List Addr} {w : Option CellWrite}

namespace Remembers

/-- The list was there before. -/
theorem of_body (hh : h.Remembers x memo) (hsize : h.blocks.size ≤ g.blocks.size)
    (hbody : ∀ l, g.body x = .list l → h.body x = .list l) : g.Remembers x memo :=
  ⟨hh.lt_size.trans_le hsize, fun l hl => hh.memo_eq l (hbody l hl)⟩

theorem thins (hh : h.Remembers x memo) (hg : h.Thins g) : g.Remembers x memo :=
  hh.of_body hg.size_le fun _ hl => (hg.body_eq (live_of_body hl (by simp))).symm.trans hl

theorem unscathed (hh : h.Remembers x memo) (hg : h.Unscathed g) : g.Remembers x memo :=
  hh.of_body hg.size_le fun _ hl => by rwa [body, hg.block?_eq, ← body] at hl

/-- **When the header of a list is written, the others forget nothing.** -/
theorem rewritten (hh : h.Remembers x memo) (hw : h.Rewritten g z w) (hxz : x ≠ z) :
    g.Remembers x memo := by
  refine hh.of_body hw.size_le fun l hl => ?_
  have hlive := live_of_body hl (by simp)
  have hbody := hw.body_eq (hw.live hh.lt_size hlive) hlive hxz
  have hkind : (h.body x).kind = .list := by rw [← Body.kind_after _ w x, ← hbody, hl, Body.kind]
  rw [← hl, hbody, Body.after_of_kind (by simp [hkind])]

end Remembers

/-- A new header without a parsed form. -/
theorem forgetful_setBody (h : Heap) (x head : Addr) (size : ℕ) :
    (h.setBody x (.list { head, size })).Forgetful x := by
  intro l hl
  have hlive : h.Live x := live_setBody.mp (live_of_body hl (by simp))
  obtain rfl := Body.list.inj ((body_setBody hlive _).symm.trans hl)
  rfl

/-- What is given up makes no list remember anything. -/
theorem Forgetful.thins (hh : h.Forgetful x) (hg : h.Thins g) : g.Forgetful x :=
  fun l hl => hh l ((hg.body_eq (live_of_body hl (by simp))).symm.trans hl)

end Heap

end SharedValues
