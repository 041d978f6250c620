import CipherFlow.Json.Decode
import CipherFlow.Ty.Basic

/-!
# Types in the interchange format

A type is a variant with its width, or with a record of shape and element type. The nesting of
arrays and objects is limited, and a type is the only thing in the format that can exceed the limit.
-/

set_option autoImplicit false

namespace CipherFlow

def Shape.toJson (shape : Shape) : Json := .ofList (fun d => .natural d.toNat) shape

def Shape.ofJson? : Json → Option Shape := Json.list? Json.word64?

theorem Shape.ofJson?_toJson (shape : Shape) : Shape.ofJson? shape.toJson = some shape :=
  Json.list?_ofList fun d _ => Json.word64?_natural d

namespace Ty

def nestingLimit : Nat := 127

def toJson : Ty → Json
  | clear w => .variant "Integer" (.natural w.toNat)
  | encrypted w => .variant "EncryptedInteger" (.natural w.toNat)
  | tensor shape element =>
      .variant "RankedTensor" (.record [("shape", shape.toJson), ("element", element.toJson)])

def integerOfVariant? (name : String) (width : Json) : Option Ty :=
  if name = "Integer" then clear <$> width.word32?
  else if name = "EncryptedInteger" then encrypted <$> width.word32?
  else none

/-- The type that a value stands for, where arrays and objects may still nest as deep as the first
argument says. A tensor takes three levels for its shape, and two around its element type. -/
def ofJson? : Nat → Json → Option Ty
  | 0, _ => none
  | depth + 3, json =>
    match json.variant? with
    | some ("RankedTensor", some fields) =>
      match fields.record? ["shape", "element"] with
      | some [shape, element] => do
          let shape ← Shape.ofJson? shape
          -- The variant and its record lie around the element type.
          let element ← ofJson? (depth + 1) element
          return tensor shape element
      | _ => none
    | some (name, some width) => integerOfVariant? name width
    | _ => none
  | _ + 1, json =>
    match json.variant? with
    | some (name, some width) => integerOfVariant? name width
    | _ => none

end Ty

end CipherFlow
