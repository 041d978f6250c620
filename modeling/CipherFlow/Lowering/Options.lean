import CipherFlow.Json.Decode

/-!
# Options of lowering

What may be chosen about lowering, and its form in the interchange format, in which every option may
be left out.
-/

set_option autoImplicit false

namespace CipherFlow

structure Options where
  routineName : String := "main"
  /-- Whether a lookup table must have an entry for every value of its operand. -/
  checksTables : Bool := false
  deriving DecidableEq, Repr

namespace Options

def toJson (options : Options) : Json :=
  .record [("function_name", .text options.routineName),
    ("check_table_domain", .bool options.checksTables)]

/-- The value of an option that may be left out. -/
def orDefault {α : Type} (default : α) (decode : Json → Option α) : Option Json → Option α
  | none => some default
  | some json => decode json

def ofJson? (json : Json) : Option Options :=
  match json.fields? ["function_name", "check_table_domain"] with
  | some [name, checks] => do
      let standard : Options := {}
      return ⟨← orDefault standard.routineName Json.text? name,
        ← orDefault standard.checksTables Json.bool? checks⟩
  | _ => none

theorem ofJson?_toJson (options : Options) : ofJson? options.toJson = some options := rfl

end Options

end CipherFlow
