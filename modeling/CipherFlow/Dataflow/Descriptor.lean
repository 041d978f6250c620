import CipherFlow.Ty.Basic

/-!
# Descriptors

A descriptor says what a value of a dataflow graph is: encrypted or clear, its shape, and its
elements. The kind of a descriptor is the part of it on which the choice of an instruction depends.
-/

set_option autoImplicit false

namespace CipherFlow

inductive Element
  | integer (width : UInt32) (signed : Bool)
  | float (width : UInt32)
  deriving DecidableEq, Repr

namespace Element

def width : Element → UInt32
  | integer w _ => w
  | float w => w

def spell : Element → String
  | integer w true => s!"int{w.toNat}"
  | integer w false => s!"uint{w.toNat}"
  | float w => s!"float{w.toNat}"

end Element

/-- What a value of a dataflow graph is. -/
structure Descriptor where
  isEncrypted : Bool
  shape : Shape
  element : Element
  deriving DecidableEq, Repr

/-- The kinds of values that the choice of an instruction tells apart. -/
inductive Kind
  | clearScalar
  | clearTensor
  | encryptedScalar
  | encryptedSignedScalar
  | encryptedTensor
  | nonInteger
  deriving DecidableEq, Repr

namespace Descriptor

def isScalar (d : Descriptor) : Bool := d.shape.isEmpty

def isSigned (d : Descriptor) : Bool :=
  match d.element with
  | .integer _ signed => signed
  | .float _ => false

def width (d : Descriptor) : UInt32 := d.element.width

/-- The kind of the value. Only for an encrypted scalar does it matter here whether the elements
are signed. -/
def kind (d : Descriptor) : Kind :=
  match d.element with
  | .float _ => .nonInteger
  | .integer _ signed =>
    match d.isEncrypted, d.isScalar, signed with
    | false, true, _ => .clearScalar
    | false, false, _ => .clearTensor
    | true, true, false => .encryptedScalar
    | true, true, true => .encryptedSignedScalar
    | true, false, _ => .encryptedTensor

/-- Whether the value is encrypted with signed elements, which nothing supports. -/
def isSignedCiphertext (d : Descriptor) : Bool := d.isEncrypted && d.isSigned

def spell (d : Descriptor) : String :=
  let secrecy := if d.isEncrypted then "Encrypted" else "Clear"
  if d.isScalar then s!"{secrecy}Scalar<{d.element.spell}>"
  else s!"{secrecy}Tensor<{d.element.spell}, shape={d.shape.spell}>"

instance : ToString Descriptor := ⟨spell⟩

/-! ## Constructors -/

def scalar (isEncrypted : Bool) (element : Element) : Descriptor := ⟨isEncrypted, [], element⟩

def tensor (isEncrypted : Bool) (shape : Shape) (element : Element) : Descriptor :=
  ⟨isEncrypted, shape, element⟩

def encryptedUnsigned (width : UInt32) : Descriptor := scalar true (.integer width false)

def encryptedSigned (width : UInt32) : Descriptor := scalar true (.integer width true)

def clearUnsigned (width : UInt32) : Descriptor := scalar false (.integer width false)

def clearSigned (width : UInt32) : Descriptor := scalar false (.integer width true)

def encryptedVector (width : UInt32) (length : UInt64) : Descriptor :=
  tensor true [length] (.integer width false)

def clearVector (width : UInt32) (length : UInt64) : Descriptor :=
  tensor false [length] (.integer width false)

example : (encryptedUnsigned 7).kind = .encryptedScalar := rfl

example : toString (⟨false, [2, 3], .integer 3 true⟩ : Descriptor)
    = "ClearTensor<int3, shape=[2, 3]>" := by cbv

end Descriptor

end CipherFlow
