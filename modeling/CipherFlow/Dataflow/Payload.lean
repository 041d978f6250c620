import CipherFlow.Text.Sequence

/-!
# Payloads of constants

A constant of a dataflow graph holds integers of 128 bits, whatever its descriptor says.
-/

set_option autoImplicit false

namespace CipherFlow

/-- An integer of 128 bits, read with a sign. -/
abbrev Int128 := BitVec 128

namespace Int128

/-- The integer as one of 128 bits, if those bits stand for it. -/
def ofInt? (n : Int) : Option Int128 :=
  if (BitVec.ofInt 128 n).toInt = n then some (BitVec.ofInt 128 n) else none

theorem ofInt?_eq_some_iff {n : Int} {m : Int128} : ofInt? n = some m ↔ m.toInt = n := by
  unfold ofInt?
  constructor
  · intro h
    split at h
    · next hn =>
        cases h
        exact hn
    · simp at h
  · rintro rfl
    simp

end Int128

/-- The value of a constant: an integer, or the integers of a tensor in row-major order. -/
inductive Payload
  | scalar (value : Int128)
  | tensor (values : List Int128)
  deriving DecidableEq, Repr

def Payload.spell : Payload → String
  | scalar value => s!"Scalar({value.toInt})"
  | tensor values =>
      let items := String.ofList (Text.bracketed (values.map fun v => (toString v.toInt).toList))
      s!"Tensor({items})"

instance : ToString Payload := ⟨Payload.spell⟩

end CipherFlow
