import CipherFlow.Literal.Builder
import CipherFlow.Lowering.Error

/-!
# Literals of constants and tables

The payload of a constant becomes a literal of the width that its descriptor gives, and a lookup
table becomes a vector of 64-bit words.
-/

set_option autoImplicit false

namespace CipherFlow

/-- The integer as a word, which it must be without its sign. -/
def toWord (value : Int) : Except LowerError UInt64 :=
  if h : 0 ≤ value ∧ value.toNat < UInt64.size then .ok (.ofNatLT value.toNat h.2)
  else .error (.unrepresentable value)

def literalOfInt (value : Int) (width : UInt32) : Except LowerError Literal := do
  let word ← toWord value
  (Literal.ofInteger (.clear width) word).mapError .literal

def literalOfInts (values : List Int) (shape : Shape) (width : UInt32) :
    Except LowerError Literal := do
  let words ← values.mapM toWord
  ((DenseBuilder.forWidth width).build shape width words).mapError .literal

def tableWidth : UInt32 := 64

def tableLiteral (table : Table) : Except LowerError Literal :=
  (DenseBuilder.native.build [.ofNat table.size] tableWidth table.entries).mapError .literal

/-- Refuses a table that does not have an entry for each number of the width. -/
def checkTable (table : Table) (width : UInt32) : Except LowerError Unit :=
  if table.isComplete width then .ok () else .error (.tableDomain width table.size)

def payloadLiteral (payload : Payload) (output : Descriptor) : Except LowerError Literal :=
  match output.kind, payload with
  | .clearScalar, payload =>
      if output.isSigned then .error (.signedConstant output)
      else
        match payload with
        | .scalar value => literalOfInt value.toInt output.width
        | .tensor _ => .error (.payloadMismatch payload output)
  | .clearTensor, payload =>
      if output.isSigned then .error (.signedConstantTensor output)
      else
        match payload with
        | .tensor values => literalOfInts (values.map (·.toInt)) output.shape output.width
        | .scalar _ => .error (.payloadMismatch payload output)
  | _, _ => .error (.unsupportedConstant output)

theorem toWord_eq_ok_iff {value : Int} {word : UInt64} :
    toWord value = .ok word ↔ value = word.toNat := by
  unfold toWord
  split
  · next h =>
      simp only [Except.ok.injEq]
      constructor
      · rintro rfl
        rw [UInt64.toNat_ofNatLT]
        omega
      · intro hv
        apply UInt64.toNat_inj.1
        rw [UInt64.toNat_ofNatLT]
        omega
  · next h =>
      have := word.toNat_lt
      simp only [reduceCtorEq, false_iff]
      intro hv
      apply h
      rw [hv, Int.toNat_natCast]
      exact ⟨Int.natCast_nonneg _, this⟩

end CipherFlow
