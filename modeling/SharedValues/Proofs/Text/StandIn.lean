import Mathlib.Data.Char
import Mathlib.Data.List.Nodup
import Mathlib.Order.MinMax
import SharedValues.Text.StandIn

/-!
# Substitutions

Stand-ins are revealed and characters concealed by one table, read in either direction.  No character
stands twice in a column of the table, and the two columns have none in common.  This alone makes
each of the two substitutions undo the other one, save where a text has characters from the other
end of the table already: these look like the outcome of a substitution, but are not.

The table is in ascending order, so that a stand-in can be found in it by halving.

## Main definitions

* `Text.substitute` — the character that a table has for another one.
* `Text.IsPairing` — the columns of a table are free of repetitions and apart.
* `Text.findByHalving?` — the search in an ascending table.
* `Text.revealByHalving` — the visible character behind a stand-in, by that search.

## Main results

* `Text.substitute_swap_substitute_iff` — where a substitution is undone by the one back.
* `Text.reveal_eq_revealByHalving` — only control characters are sought, by halving.
* `Text.substitutions_invert` — what revealing and concealing make of each other.
-/

namespace SharedValues.Text

variable {ps : List (Char × Char)} {b c : Char}

/-! ### Tables -/

/-- The character that a table has for another one, which stays if there is none. -/
def substitute (ps : List (Char × Char)) (c : Char) : Char := (ps.lookup c).getD c

/-- **A table pairs characters off**: none is found at two places of it. -/
structure IsPairing (ps : List (Char × Char)) : Prop where
  /-- No character is replaced in two ways. -/
  left : (ps.map Prod.fst).Nodup
  /-- No two characters are replaced by the same one. -/
  right : (ps.map Prod.snd).Nodup
  /-- No replacement is itself replaced. -/
  apart : ∀ p ∈ ps, ∀ q ∈ ps, p.1 ≠ q.2

/-- The table read backwards. -/
theorem IsPairing.swap (hps : IsPairing ps) : IsPairing (ps.map Prod.swap) where
  left := by simpa [Function.comp_def] using hps.right
  right := by simpa [Function.comp_def] using hps.left
  apart p hp q hq := by
    obtain ⟨p', hp', rfl⟩ := List.mem_map.mp hp
    obtain ⟨q', hq', rfl⟩ := List.mem_map.mp hq
    exact (hps.apart q' hq' p' hp').symm

theorem substitute_of_mem (hps : IsPairing ps) (h : (b, c) ∈ ps) : substitute ps b = c := by
  obtain ⟨ps₁, ps₂, hsplit⟩ := List.append_of_mem h
  have hfirst : ∀ p ∈ ps₁, (b != p.1) = true := by
    have hleft := hps.left
    rw [hsplit, List.map_append, List.map_cons] at hleft
    intro p hp
    have hne : p.1 ≠ b :=
      (List.nodup_append.mp hleft).2.2 p.1 (List.mem_map_of_mem hp) b List.mem_cons_self
    exact bne_iff_ne.mpr hne.symm
  rw [substitute, List.lookup_eq_some_iff.mpr ⟨ps₁, ps₂, hsplit, hfirst⟩, Option.getD_some]

theorem substitute_of_not_mem (h : c ∉ ps.map Prod.fst) : substitute ps c = c := by
  have hnone : ps.lookup c = none := by
    rw [List.lookup_eq_none_iff]
    intro p hp
    refine bne_iff_ne.mpr fun hcp => h ?_
    rw [hcp]
    exact List.mem_map_of_mem hp
  rw [substitute, hnone, Option.getD_none]

/-- **A substitution is undone by the one back** exactly if there was not a replacement already. -/
theorem substitute_swap_substitute_iff (hps : IsPairing ps) :
    substitute (ps.map Prod.swap) (substitute ps c) = c ↔ c ∉ ps.map Prod.snd := by
  by_cases hleft : c ∈ ps.map Prod.fst
  -- a special character goes to its stand-in and back; as the two columns are apart, it is none
  · obtain ⟨⟨c, d⟩, hmem, rfl⟩ := List.mem_map.mp hleft
    have hback : (d, c) ∈ ps.map Prod.swap := List.mem_map_of_mem (f := Prod.swap) hmem
    rw [substitute_of_mem hps hmem, substitute_of_mem hps.swap hback]
    refine iff_of_true rfl fun hright => ?_
    obtain ⟨q, hq, hqc⟩ := List.mem_map.mp hright
    exact hps.apart _ hmem q hq hqc.symm
  · rw [substitute_of_not_mem hleft]
    constructor
    · intro hback hright
      obtain ⟨⟨b, _⟩, hmem, rfl⟩ := List.mem_map.mp hright
      -- a stand-in is left alone on the way out but replaced on the way back
      rw [substitute_of_mem hps.swap (List.mem_map_of_mem (f := Prod.swap) hmem)] at hback
      exact hps.apart _ hmem _ hmem hback
    · intro hright
      refine substitute_of_not_mem ?_
      simpa [Function.comp_def] using hright

/-- A replacement is not replaced again. -/
theorem substitute_substitute (hps : IsPairing ps) :
    substitute ps (substitute ps c) = substitute ps c := by
  by_cases hleft : c ∈ ps.map Prod.fst
  · obtain ⟨⟨_, d⟩, hmem, rfl⟩ := List.mem_map.mp hleft
    rw [substitute_of_mem hps hmem]
    refine substitute_of_not_mem fun hd => ?_
    obtain ⟨q, hq, hqd⟩ := List.mem_map.mp hd
    exact hps.apart q hq _ hmem hqd
  · rw [substitute_of_not_mem hleft, substitute_of_not_mem hleft]

/-! ### Stand-ins -/

/-- **The table of stand-ins pairs characters off.** -/
theorem isPairing_standIns : IsPairing standIns where
  left := by decide
  right := by decide
  apart := by decide

theorem reveal_eq (c : Char) : reveal c = substitute standIns c := rfl

/-- Characters are concealed by the table read backwards. -/
theorem conceal_eq (c : Char) : conceal c = substitute (standIns.map Prod.swap) c := by
  have hfind : ∀ ps : List (Char × Char),
      (ps.find? (·.2 == c)).map Prod.fst = (ps.map Prod.swap).lookup c := by
    intro ps
    induction ps with
    | nil => rfl
    | cons p ps ih =>
      obtain ⟨a, b⟩ := p
      rw [List.map_cons, Prod.swap_prod_mk, List.lookup_cons, List.find?_cons, BEq.comm]
      cases c == b
      · exact ih
      · rfl
  rw [conceal, hfind, substitute]

theorem conceal_reveal_iff : conceal (reveal c) = c ↔ c ∉ standIns.map Prod.snd := by
  rw [reveal_eq, conceal_eq]
  exact substitute_swap_substitute_iff isPairing_standIns

theorem reveal_conceal_iff : reveal (conceal c) = c ↔ c ∉ standIns.map Prod.fst := by
  have hback := substitute_swap_substitute_iff (c := c) isPairing_standIns.swap
  simp only [List.map_map, Function.comp_def, Prod.swap_swap, Prod.snd_swap,
    List.map_id'] at hback
  rw [reveal_eq, conceal_eq]
  exact hback

theorem reveal_reveal (c : Char) : reveal (reveal c) = reveal c :=
  substitute_substitute isPairing_standIns

theorem conceal_conceal (c : Char) : conceal (conceal c) = conceal c := by
  simp only [conceal_eq]
  exact substitute_substitute isPairing_standIns.swap

/-! ### The search for a stand-in -/

/-- The entry for a character in an ascending table, sought in halves of the table. -/
def findByHalving? (c : Char) (ps : List (Char × Char)) : Option Char :=
  if h : 1 < ps.length then
    if c < ps[ps.length / 2].1 then findByHalving? c (ps.take (ps.length / 2))
    else findByHalving? c (ps.drop (ps.length / 2))
  else ps.head?.bind fun p => if p.1 = c then some p.2 else none
termination_by ps.length
decreasing_by
  · rw [List.length_take]
    omega
  · rw [List.length_drop]
    omega

/-- The entries of an ascending table are in order. -/
theorem le_of_ascending (hps : ps.Pairwise (·.1 < ·.1)) {i j : ℕ} (hij : i ≤ j)
    (hj : j < ps.length) : ps[i].1 ≤ ps[j].1 := by
  rcases hij.eq_or_lt with rfl | hlt
  · exact le_rfl
  · exact (List.pairwise_iff_getElem.mp hps i j (hlt.trans hj) hj hlt).le

/-- **In an ascending table** the half that is left out does not have the entry. -/
theorem findByHalving?_eq_lookup (hps : ps.Pairwise (·.1 < ·.1)) :
    findByHalving? c ps = ps.lookup c := by
  fun_induction findByHalving? c ps with
  | case1 ps h hless ih =>
    -- from the middle on all entries are above the character, so it can be in the first half only
    have hnone : (ps.drop (ps.length / 2)).lookup c = none := by
      rw [List.lookup_eq_none_iff]
      intro p hp
      obtain ⟨i, hi, rfl⟩ := List.mem_iff_getElem.mp hp
      rw [List.getElem_drop]
      rw [List.length_drop] at hi
      exact bne_iff_ne.mpr (hless.trans_le (le_of_ascending hps (Nat.le_add_right ..) _)).ne
    rw [ih (hps.take ..)]
    conv_rhs => rw [← List.take_append_drop (ps.length / 2) ps, List.lookup_append]
    rw [hnone, Option.or_none]
  | case2 ps h hle ih =>
    -- and here those before the middle are all below it
    have hnone : (ps.take (ps.length / 2)).lookup c = none := by
      rw [List.lookup_eq_none_iff]
      intro p hp
      obtain ⟨i, hi, rfl⟩ := List.mem_iff_getElem.mp hp
      rw [List.length_take, lt_min_iff] at hi
      rw [List.getElem_take]
      have hless := List.pairwise_iff_getElem.mp hps i (ps.length / 2) hi.2 (by omega) hi.1
      exact bne_iff_ne.mpr (hless.trans_le (not_lt.mp hle)).ne'
    rw [ih (hps.drop ..)]
    conv_rhs => rw [← List.take_append_drop (ps.length / 2) ps, List.lookup_append]
    rw [hnone, Option.none_or]
  | case3 ps h =>
    match ps with
    | [] => rfl
    | [p] =>
      rw [List.lookup_cons, List.lookup_nil, List.head?_cons, Option.bind_some]
      by_cases hpc : p.1 = c
      · rw [if_pos hpc, hpc, beq_self_eq_true]
      · rw [if_neg hpc, beq_eq_false_iff_ne.mpr (Ne.symm hpc)]
    | p :: q :: ps => exact absurd (by simp) h

/-- The table of stand-ins is in ascending order. -/
theorem pairwise_standIns : standIns.Pairwise (·.1 < ·.1) := by decide

/-- The visible character behind a stand-in, as it is found: only control characters are sought. -/
def revealByHalving (c : Char) : Char :=
  if isControl c then (findByHalving? c standIns).getD c else c

/-- **The search finds what the table has** for a character, as all stand-ins are control
characters. -/
theorem reveal_eq_revealByHalving (c : Char) : reveal c = revealByHalving c := by
  rw [revealByHalving, findByHalving?_eq_lookup pairwise_standIns]
  split
  · rfl
  next hc =>
  refine substitute_of_not_mem fun hmem => hc ?_
  have hlow : (standIns.map Prod.fst).all isControl = true := by decide
  exact List.all_eq_true.mp hlow c hmem

/-! ### Texts -/

/-- A text stays as it is if all of its characters do. -/
theorem ofList_map_eq_iff {f : Char → Char} {s : String} :
    String.ofList (s.toList.map f) = s ↔ ∀ c ∈ s.toList, f c = c := by
  rw [← String.toList_inj, String.toList_ofList]
  conv_lhs => rhs; rw [← List.map_id s.toList]
  exact List.map_inj_left

/-- **Revealing and concealing undo each other** exactly where they can: concealing takes a revealed
text back to the text if that has no character with a stand-in, and revealing takes a concealed text
back if there was no stand-in in the text.  Both leave the number of characters, and change nothing
when they are applied again.  All of this is said of the characters that the table has, and these
are the ones that the search by halving finds. -/
theorem substitutions_invert (s : String) :
    (concealAll (revealAll s) = s ↔ ∀ c ∈ s.toList, c ∉ standIns.map Prod.snd) ∧
      (revealAll (concealAll s) = s ↔ ∀ c ∈ s.toList, c ∉ standIns.map Prod.fst) ∧
      (revealAll s).length = s.length ∧ (concealAll s).length = s.length ∧
      revealAll (revealAll s) = revealAll s ∧ concealAll (concealAll s) = concealAll s ∧
      revealAll s = String.ofList (s.toList.map revealByHalving) := by
  refine ⟨?conceal, ?reveal, ?_, ?_, ?_, ?_, ?search⟩
  case conceal =>
    rw [concealAll, toList_revealAll, List.map_map, ofList_map_eq_iff]
    exact forall₂_congr fun c _ => conceal_reveal_iff
  case reveal =>
    rw [revealAll, toList_concealAll, List.map_map, ofList_map_eq_iff]
    exact forall₂_congr fun c _ => reveal_conceal_iff
  case search =>
    rw [revealAll, funext reveal_eq_revealByHalving]
  · rw [← String.length_toList, toList_revealAll, List.length_map, String.length_toList]
  · rw [← String.length_toList, toList_concealAll, List.length_map, String.length_toList]
  · simp [← String.toList_inj, reveal_reveal]
  · simp [← String.toList_inj, conceal_conceal]

/-- A blank has a stand-in, so it does not come back. -/
example : concealAll (revealAll "a b\x03") = "a\x03b\x03" := by decide

end SharedValues.Text
