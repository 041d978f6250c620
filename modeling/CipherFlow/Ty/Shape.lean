import CipherFlow.Text.Numeral
import CipherFlow.Text.Sequence

/-!
# Shapes

The shape of a tensor is its list of dimensions, the outermost first. The number of elements is
multiplied out from the left and has to stay below `2 ^ 64` on the way (`count?`); `volume` is the
plain product. Where `count?` answers at all it answers with the volume (`count?_eq_some`).
-/

set_option autoImplicit false

namespace CipherFlow

/-- The dimensions of a tensor, the outermost first; a scalar has none. -/
abbrev Shape := List UInt64

namespace Shape

def volume : Shape → Nat
  | [] => 1
  | d :: rest => d.toNat * volume rest

/-- Multiplies `n` by one dimension after another while the product stays below `2 ^ 64`. -/
def multiply? (n : Nat) : Shape → Option Nat
  | [] => some n
  | d :: rest => if n * d.toNat < UInt64.size then multiply? (n * d.toNat) rest else none

/-- The number of elements, if every product from the left is below `2 ^ 64`. -/
def count? (shape : Shape) : Option Nat := multiply? 1 shape

def spell (shape : Shape) : String :=
  String.ofList (Text.bracketed (shape.map fun d => Text.digits d.toNat))

theorem multiply?_eq_some {n m : Nat} {shape : Shape} (h : multiply? n shape = some m) :
    m = n * volume shape := by
  induction shape generalizing n with
  | nil => simpa [multiply?, volume, eq_comm] using h
  | cons d rest ih =>
      rw [multiply?] at h
      split at h
      · rw [ih h, volume, Nat.mul_assoc]
      · simp at h

theorem count?_eq_some {n : Nat} {shape : Shape} (h : count? shape = some n) :
    n = volume shape := by
  simpa using multiply?_eq_some h

@[simp] theorem count?_singleton (d : UInt64) : count? [d] = some d.toNat := by
  have : d.toNat < UInt64.size := d.toNat_lt
  simp [count?, multiply?, this]

end Shape

end CipherFlow
