import CipherFlow.Literal.Basic
import CipherFlow.Ty.Codec

/-!
# Literals in the interchange format

A literal is a variant with a record of its type and value. Reading does not check that the value
fits the type.
-/

set_option autoImplicit false

namespace CipherFlow.Literal

def toJson : Literal → Json
  | integer ty value =>
      .variant "Integer" (.record [("ty", ty.toJson), ("value", .natural value.toNat)])
  | dense ty values =>
      .variant "DenseElements" (.record
        [("ty", ty.toJson), ("values", .ofList (fun v => .natural v.toNat) values)])

/-- The literal that a value stands for. The variant and its record take two levels of nesting. -/
def ofJson? (json : Json) : Option Literal :=
  match json.variant? with
  | some ("Integer", some fields) =>
    match fields.record? ["ty", "value"] with
    | some [ty, value] => do
        return integer (← Ty.ofJson? (Ty.nestingLimit - 2) ty) (← value.word64?)
    | _ => none
  | some ("DenseElements", some fields) =>
    match fields.record? ["ty", "values"] with
    | some [ty, values] => do
        return dense (← Ty.ofJson? (Ty.nestingLimit - 2) ty) (← values.list? Json.word64?)
    | _ => none
  | _ => none

end CipherFlow.Literal
