/-!
# Lookup tables

A function of one variable, given by its values, fewer than `2 ^ 64` of them. A table is complete
for a bit width if it has one entry for each number of that width; the test for this
(`Table.isComplete`) never forms the power of two that a large width names.
-/

set_option autoImplicit false

namespace CipherFlow

/-- The values of a function at `0`, `1`, `2` and so on. -/
structure Table where
  entries : List UInt64
  length_lt : entries.length < UInt64.size
  deriving DecidableEq, Repr

namespace Table

def size (t : Table) : Nat := t.entries.length

def ofEntries? (entries : List UInt64) : Option Table :=
  if h : entries.length < UInt64.size then some ⟨entries, h⟩ else none

theorem ofEntries?_entries (t : Table) : ofEntries? t.entries = some t := by
  simp [ofEntries?, t.length_lt]

/-- The table of a function on the numbers of a bit width, if it is not too long. -/
def ofFunction? (width : UInt32) (f : UInt64 → UInt64) : Option Table :=
  -- The width is compared first, because the list of a large width is never to be formed.
  if width.toNat < 64 then
    ofEntries? ((List.range (1 <<< width.toNat)).map fun i => f (UInt64.ofNat i))
  else
    none

/-- Whether the size is a power of two whose exponent is the width. -/
def isComplete (t : Table) (width : UInt32) : Bool :=
  -- An empty table fails the first test, because no power of two is zero.
  1 <<< t.size.log2 == t.size && t.size.log2 == width.toNat

theorem isComplete_iff {t : Table} {width : UInt32} :
    t.isComplete width = true ↔ t.size = 1 <<< width.toNat := by
  simp only [isComplete, Bool.and_eq_true, beq_iff_eq]
  constructor
  · rintro ⟨hp, hw⟩
    rw [← hw, hp]
  · intro h
    have hw : t.size.log2 = width.toNat := by rw [h, Nat.one_shiftLeft, Nat.log2_two_pow]
    exact ⟨by rw [hw, h], hw⟩

end Table

end CipherFlow
