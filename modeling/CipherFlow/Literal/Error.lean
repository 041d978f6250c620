import CipherFlow.Ty.Text

/-!
# Refused literals

Why a literal is refused, with the wording of each reason.
-/

set_option autoImplicit false

namespace CipherFlow

open Text

/-- How the parts of a literal fail to fit together. -/
inductive Misfit
  | notInteger (ty : Ty)
  | notIntegerTensor (ty : Ty)
  | notTensor (ty : Ty)
  | wrongCount (found : Nat) (ty : Ty)
  | wrongShapeCount (found : Nat) (shape : Shape)
  | tooManyElements (shape : Shape)
  | wrongLength (expected : UInt64) (found : Nat)
  /-- A number stands where a list with as many dimensions belongs. -/
  | scalarForList (rank : Nat)
  | listForScalar
  deriving DecidableEq, Repr

def Misfit.message : Misfit → String
  | .notInteger ty => s!"integer literals must have an integer type, found {ty}"
  | .notIntegerTensor ty => s!"dense literals must have an integer tensor type, found {ty}"
  | .notTensor ty => s!"dense literals need a tensor type, found {ty}"
  | .wrongCount found ty => s!"{found} values don't fill {ty}"
  | .wrongShapeCount found shape => s!"{found} values don't fill shape {shape.spell}"
  | .tooManyElements shape => s!"shape {shape.spell} has too many elements"
  | .wrongLength expected found => s!"expected {expected.toNat} elements, found {found}"
  | .scalarForList rank => s!"expected a list of {rank} dimension(s), found a scalar"
  | .listForScalar => "expected a scalar, found a list"

inductive LiteralError
  | zeroWidth
  | outOfRange (value : UInt64) (width : UInt32)
  /-- Dense literals of this width have no direct form. -/
  | unsupportedWidth (width : UInt32)
  | malformed (misfit : Misfit)
  | unexpected (offset : Nat) (complaint : Complaint)
  deriving DecidableEq, Repr

namespace LiteralError

def message : LiteralError → String
  | zeroWidth => "Integer types must have a non-zero width"
  | outOfRange value width => s!"Value {value.toNat} doesn't fit in {width.toNat} bits"
  | unsupportedWidth width =>
      s!"Dense elements of width {width.toNat} can't be built natively "
        ++ "(supported widths: 1, 8, 16, 32, 64)"
  | malformed misfit => s!"Malformed literal: {misfit.message}"
  | unexpected offset complaint => s!"Parse error at offset {offset}: {complaint.message}"

def ofFault : Fault Nat → LiteralError
  | .zeroWidth => zeroWidth
  | .unexpected offset complaint => unexpected offset complaint

end LiteralError

def Shape.count (shape : Shape) : Except LiteralError Nat :=
  match shape.count? with
  | some n => .ok n
  | none => .error (.malformed (.tooManyElements shape))

end CipherFlow
