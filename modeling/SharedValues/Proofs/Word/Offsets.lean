import Mathlib.Data.List.Basic
import SharedValues.Text.Search

/-!
# Offsets in the bytes of a text

A text is kept as the bytes of its characters in UTF-8, where a character takes one to four of
them.  What is cut out between two offsets is a text only if neither of the offsets is inside of a
character.  The first and the last character, the rest of either, and what is left of a walk over
the characters are cut at offsets which are found from the sizes of the characters; none of these
is inside of one.

## Main definitions

* `Text.cut?` — the text between two offsets.
* `Text.offsets` — where the characters start.
* `Part` — the parts of a text at its ends, `Part.cut?` — as they are cut out of the bytes.
* `Text.read?` — a walk over the characters by the offsets of the bytes.

## Main results

* `Text.cut?_eq_some_iff` — a cut is right where the text before it and the text behind it are.
* `Part.cut?_eq`, `Text.read?_append` — the parts and the walk are those by characters.
-/

namespace SharedValues

namespace Text

/-! ### Cuts -/

/-- The text between two offsets in the bytes of a text.  There is none if one of the offsets is
inside of a character, or if they are not in order. -/
def cut? (s : String) (start stop : ℕ) : Option String :=
  if String.Pos.Raw.IsValid s ⟨start⟩ ∧ String.Pos.Raw.IsValid s ⟨stop⟩ ∧ start ≤ stop then
    String.fromUTF8? (s.toByteArray.extract start stop)
  else none

/-- The text from an offset on. -/
def cutFrom? (s : String) (start : ℕ) : Option String := cut? s start s.utf8ByteSize

variable {s p q m : String} {start stop n : ℕ} {cs ds : List Char} {c : Char}

theorem fromUTF8?_toByteArray (s : String) : String.fromUTF8? s.toByteArray = some s := by
  rw [String.fromUTF8?, dif_pos s.isValidUTF8]
  rfl

theorem extract_append (p m q : String) :
    (p ++ m ++ q).toByteArray.extract p.utf8ByteSize (p.utf8ByteSize + m.utf8ByteSize)
      = m.toByteArray := by
  have hbytes := ByteArray.extract_append_size_add' (a := p.toByteArray) (i := 0)
    (b := (m ++ q).toByteArray) (j := m.utf8ByteSize) String.size_toByteArray.symm
  rw [String.append_assoc, String.toByteArray_append]
  refine hbytes.trans ?_
  rw [String.toByteArray_append, ByteArray.extract_append_eq_left String.size_toByteArray.symm]

/-- The offset behind the first characters of a text is not inside of a character. -/
theorem isValid_append (p q : String) : String.Pos.Raw.IsValid (p ++ q) ⟨p.utf8ByteSize⟩ :=
  String.Pos.Raw.isValid_iff_exists_append.mpr ⟨p, q, rfl, rfl⟩

theorem cut?_append (p m q : String) :
    cut? (p ++ m ++ q) p.utf8ByteSize (p.utf8ByteSize + m.utf8ByteSize) = some m := by
  have hstart : String.Pos.Raw.IsValid (p ++ m ++ q) ⟨p.utf8ByteSize⟩ := by
    rw [String.append_assoc]
    exact isValid_append p (m ++ q)
  have hstop : String.Pos.Raw.IsValid (p ++ m ++ q) ⟨p.utf8ByteSize + m.utf8ByteSize⟩ := by
    rw [← String.utf8ByteSize_append]
    exact isValid_append (p ++ m) q
  rw [cut?, if_pos ⟨hstart, hstop, Nat.le_add_right ..⟩, extract_append, fromUTF8?_toByteArray]

/-- Of two beginnings of a text, the one with fewer bytes is a beginning of the other. -/
theorem exists_append_of_le {p' q' : String} (happend : p ++ q = p' ++ q')
    (hle : p.utf8ByteSize ≤ p'.utf8ByteSize) : ∃ m, p' = p ++ m := by
  have hchars : p.toList ++ q.toList = p'.toList ++ q'.toList := by
    rw [← String.toList_append, ← String.toList_append, happend]
  rcases List.append_eq_append_iff.mp hchars with ⟨ms, hp, -⟩ | ⟨ms, hp, -⟩
  · refine ⟨String.ofList ms, String.toList_inj.mp ?_⟩
    rw [String.toList_append, String.toList_ofList, hp]
  · -- the other one has no more characters, since it has no more bytes
    obtain rfl : p = p' ++ String.ofList ms := String.toList_inj.mp (by simpa using hp)
    have hzero : (String.ofList ms).utf8ByteSize = 0 := by
      rw [String.utf8ByteSize_append] at hle
      omega
    rw [String.utf8ByteSize_eq_zero_iff] at hzero
    exact ⟨"", by rw [hzero, String.append_empty, String.append_empty]⟩

/-- **A cut is right where the text before it and the text behind it are.** -/
theorem cut?_eq_some_iff : cut? s start stop = some m ↔
    ∃ p q, s = p ++ m ++ q ∧ start = p.utf8ByteSize ∧ stop = p.utf8ByteSize + m.utf8ByteSize := by
  constructor
  · intro hcut
    have hvalid : String.Pos.Raw.IsValid s ⟨start⟩ ∧ String.Pos.Raw.IsValid s ⟨stop⟩ ∧
        start ≤ stop := by
      by_contra hvalid
      rw [cut?, if_neg hvalid] at hcut
      exact absurd hcut (by simp)
    obtain ⟨hstart, hstop, hle⟩ := hvalid
    -- both ends of the cut are boundaries, so the text splits at each of them
    obtain ⟨p, q, rfl, hp⟩ := String.Pos.Raw.isValid_iff_exists_append.mp hstart
    obtain ⟨p', q', happend, hp'⟩ := String.Pos.Raw.isValid_iff_exists_append.mp hstop
    obtain rfl : start = p.utf8ByteSize := congrArg String.Pos.Raw.byteIdx hp
    obtain rfl : stop = p'.utf8ByteSize := congrArg String.Pos.Raw.byteIdx hp'
    -- the shorter prefix begins the longer one, and what it leaves there is the cut
    obtain ⟨m', rfl⟩ := exists_append_of_le happend hle
    rw [happend, String.utf8ByteSize_append, cut?_append] at hcut
    obtain rfl := Option.some.inj hcut
    exact ⟨p, q', happend, rfl, String.utf8ByteSize_append⟩
  · rintro ⟨p, q, rfl, rfl, rfl⟩
    exact cut?_append p m q

/-- The text before an offset. -/
theorem cut?_zero_append (p q : String) : cut? (p ++ q) 0 p.utf8ByteSize = some p := by
  have hcut := cut?_append "" p q
  rwa [String.empty_append, String.utf8ByteSize_empty, Nat.zero_add] at hcut

/-- The text behind an offset. -/
theorem cutFrom?_append (p q : String) : cutFrom? (p ++ q) p.utf8ByteSize = some q := by
  have hcut := cut?_append p q ""
  rwa [String.append_empty, ← String.utf8ByteSize_append] at hcut

/-! ### Sizes of characters -/

theorem utf8ByteSize_ofList_cons (c : Char) (cs : List Char) :
    (String.ofList (c :: cs)).utf8ByteSize = c.utf8Size + (String.ofList cs).utf8ByteSize := by
  rw [← List.singleton_append, String.ofList_append, String.utf8ByteSize_append,
    ← String.singleton_eq_ofList, String.utf8ByteSize_singleton]

/-- The offsets at which characters start, the first of them at a given one. -/
def offsets : ℕ → List Char → List ℕ
  | _, [] => []
  | start, c :: cs => start :: offsets (start + c.utf8Size) cs

theorem offsets_append (start : ℕ) (cs ds : List Char) :
    offsets start (cs ++ ds)
      = offsets start cs ++ offsets (start + (String.ofList cs).utf8ByteSize) ds := by
  induction cs generalizing start with
  | nil => rfl
  | cons c cs ih =>
    rw [List.cons_append, offsets, offsets, ih, utf8ByteSize_ofList_cons, Nat.add_assoc]
    rfl

/-- The number of bytes of the first character. -/
def firstLength (s : String) : ℕ := s.toList.head?.elim 0 Char.utf8Size

/-- The offset at which the last character starts. -/
def lastStart (s : String) : ℕ := (offsets 0 s.toList).getLast?.getD 0

theorem firstLength_eq (s : String) :
    firstLength s = (String.ofList (s.toList.take 1)).utf8ByteSize := by
  rw [firstLength]
  cases s.toList with
  | nil => rfl
  | cons c cs => exact (String.singleton_eq_ofList ▸ String.utf8ByteSize_singleton).symm

theorem lastStart_eq (s : String) :
    lastStart s = (String.ofList s.toList.dropLast).utf8ByteSize := by
  rw [lastStart]
  rcases List.eq_nil_or_concat s.toList with hs | ⟨cs, c, hs⟩
  · rw [hs]
    rfl
  · rw [hs, List.concat_eq_append, offsets_append, List.dropLast_concat, Nat.zero_add]
    exact congrArg (·.getD 0) List.getLast?_concat

end Text

/-! ### Parts -/

/-- The parts of a text at its ends. -/
inductive Part where
  /-- The first character. -/
  | first
  /-- The last character. -/
  | last
  /-- All characters but the first. -/
  | butFirst
  /-- All characters but the last. -/
  | butLast
  deriving DecidableEq, Repr

namespace Part

/-- The characters of a part. -/
def of : Part → List Char → List Char
  | first, cs => cs.take 1
  | last, cs => cs.getLast?.toList
  | butFirst, cs => cs.drop 1
  | butLast, cs => cs.dropLast

/-- A part, cut out of the bytes of a text. -/
def cut? : Part → String → Option String
  | first, s => Text.cut? s 0 (Text.firstLength s)
  | last, s => Text.cutFrom? s (Text.lastStart s)
  | butFirst, s => Text.cutFrom? s (Text.firstLength s)
  | butLast, s => Text.cut? s 0 (Text.lastStart s)

theorem dropLast_append_toList_getLast? (cs : List Char) :
    cs.dropLast ++ cs.getLast?.toList = cs := by
  rcases List.eq_nil_or_concat cs with rfl | ⟨ds, c, rfl⟩
  · rfl
  · rw [List.concat_eq_append, List.dropLast_concat, List.getLast?_concat, Option.toList_some]

/-- **The parts that are cut out of the bytes** have the characters that they should have. -/
theorem cut?_eq (part : Part) (s : String) :
    part.cut? s = some (String.ofList (part.of s.toList)) := by
  -- the four parts are the sides of two cuts, behind the first character and before the last
  have hfront : s = String.ofList (s.toList.take 1) ++ String.ofList (s.toList.drop 1) := by
    rw [← String.ofList_append, List.take_append_drop, String.ofList_toList]
  have hback : s = String.ofList s.toList.dropLast ++ String.ofList s.toList.getLast?.toList := by
    rw [← String.ofList_append, dropLast_append_toList_getLast?, String.ofList_toList]
  cases part with
  | first =>
    have hcut := Text.cut?_zero_append (String.ofList (s.toList.take 1))
      (String.ofList (s.toList.drop 1))
    rwa [← hfront, ← Text.firstLength_eq] at hcut
  | last =>
    have hcut := Text.cutFrom?_append (String.ofList s.toList.dropLast)
      (String.ofList s.toList.getLast?.toList)
    rwa [← hback, ← Text.lastStart_eq] at hcut
  | butFirst =>
    have hcut := Text.cutFrom?_append (String.ofList (s.toList.take 1))
      (String.ofList (s.toList.drop 1))
    rwa [← hfront, ← Text.firstLength_eq] at hcut
  | butLast =>
    have hcut := Text.cut?_zero_append (String.ofList s.toList.dropLast)
      (String.ofList s.toList.getLast?.toList)
    rwa [← hback, ← Text.lastStart_eq] at hcut

end Part

/-! ### A walk -/

namespace Text

/-- The characters that a walk goes over from an offset on, at most `n` of them.  Each of them is
the first one of what is cut out from the offset on, and the offset goes on by its size. -/
def read? (s : String) : ℕ → ℕ → Option (List Char)
  | 0, _ => some []
  | n + 1, offset =>
    if offset < s.utf8ByteSize then do
      match (← cutFrom? s offset).toList with
      | [] => some []
      | c :: _ => return c :: (← read? s n (offset + c.utf8Size))
    else some []

/-- **A walk by offsets goes over the characters**, from wherever it has come to. -/
theorem read?_append (n : ℕ) (p q : String) :
    read? (p ++ q) n p.utf8ByteSize = some (q.toList.take n) := by
  induction n generalizing p q with
  | zero => rfl
  | succ n ih =>
    have hmore : p.utf8ByteSize < (p ++ q).utf8ByteSize ↔ q.toList ≠ [] := by
      rw [String.utf8ByteSize_append, Ne, String.toList_eq_nil_iff,
        ← String.utf8ByteSize_eq_zero_iff]
      omega
    rw [read?, cutFrom?_append]
    cases hq : q.toList with
    | nil => rw [if_neg fun h => hmore.mp h hq, List.take_nil]
    | cons c cs =>
      -- the next character moves from the text ahead to the text behind
      have hsplit : q = String.singleton c ++ String.ofList cs :=
        String.toList_inj.mp (by simp [hq])
      have hrest := ih (p ++ String.singleton c) (String.ofList cs)
      rw [String.append_assoc, ← hsplit, String.utf8ByteSize_append, String.utf8ByteSize_singleton,
        String.toList_ofList] at hrest
      rw [if_pos (hmore.mpr (by simp [hq]))]
      simp only [bind, Option.bind, hq, hrest, List.take_succ_cons]
      rfl

end Text

end SharedValues
