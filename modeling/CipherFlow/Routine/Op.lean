import CipherFlow.Literal.Basic

/-!
# Operations of a routine

What an instruction does. The six primitives compute on encrypted integers; each takes two
operands of given classes, and its result is an encrypted integer.
-/

set_option autoImplicit false

namespace CipherFlow

/-- A class of types, as an operand may demand it. -/
inductive TyClass
  | encryptedInteger
  | clearInteger
  | encryptedVector
  | clearVector
  deriving DecidableEq, Repr

namespace TyClass

def contains : TyClass → Ty → Bool
  | encryptedInteger, t => t.isEncrypted
  | clearInteger, t => t.isClear
  | encryptedVector, t => t.isVectorWith Ty.isEncrypted
  | clearVector, t => t.isVectorWith Ty.isClear

def phrase : TyClass → String
  | encryptedInteger => "an encrypted integer"
  | clearInteger => "a clear integer"
  | encryptedVector => "a 1-D tensor of encrypted integers"
  | clearVector => "a 1-D tensor of clear integers"

end TyClass

/-- A computation on encrypted integers. -/
inductive Primitive
  | addClear
  | add
  /-- A clear integer less an encrypted one. -/
  | subFromClear
  | mulClear
  /-- The entry of a clear table at an encrypted index. -/
  | lookup
  | dotClear
  deriving DecidableEq, Repr

namespace Primitive

def mnemonic : Primitive → String
  | addClear => "HLFHE.add_eint_int"
  | add => "HLFHE.add_eint"
  | subFromClear => "HLFHE.sub_int_eint"
  | mulClear => "HLFHE.mul_eint_int"
  | lookup => "HLFHE.apply_lookup_table"
  | dotClear => "HLFHE.dot_eint_int"

def operandClasses : Primitive → TyClass × TyClass
  | addClear => (.encryptedInteger, .clearInteger)
  | add => (.encryptedInteger, .encryptedInteger)
  | subFromClear => (.clearInteger, .encryptedInteger)
  | mulClear => (.encryptedInteger, .clearInteger)
  | lookup => (.encryptedInteger, .clearVector)
  | dotClear => (.encryptedVector, .clearVector)

end Primitive

inductive Op
  | argument (position : Nat)
  | constant (literal : Literal)
  | primitive (p : Primitive)
  | ret
  deriving DecidableEq, Repr

def Op.mnemonic : Op → String
  | argument _ => "argument"
  | constant _ => "std.constant"
  | primitive p => p.mnemonic
  | ret => "return"

end CipherFlow
