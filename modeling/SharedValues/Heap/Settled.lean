import SharedValues.Heap.Basic

/-!
# Settled words

The words whose two forms are both known.  They are kept as a set of addresses beside the heap,
because asking for a form of a word changes nothing else.  Addresses are never given out a second
time, so the address of a freed word can stay in the set.

## Main definitions

* `Settled` — a set of addresses, held as the bits of a natural number.
* `Settled.contains`, `Settled.insert` — membership and insertion.

## Main results

* `Settled.contains_insert` — what inserting an address changes.
-/

namespace SharedValues

/-- A set of settled words: the bit at an address tells whether the word there is settled. -/
structure Settled where
  /-- The bits. -/
  bits : Nat := 0
  deriving DecidableEq, Repr, Inhabited

namespace Settled

/-- Whether the word at an address is settled. -/
def contains (s : Settled) (a : Addr) : Bool := s.bits.testBit a

/-- The set with one more settled word. -/
def insert (s : Settled) (a : Addr) : Settled := ⟨s.bits ||| 1 <<< a⟩

@[simp] theorem contains_insert (s : Settled) (a b : Addr) :
    (s.insert a).contains b = (s.contains b || decide (a = b)) := by
  simp [contains, insert, Nat.one_shiftLeft, Nat.testBit_or, Nat.testBit_two_pow]

end Settled

end SharedValues
