import CipherFlow.Routine.Basic
import CipherFlow.Text.Sequence

/-!
# Listings

The text of a routine: a head with its arguments and result types, a line for each instruction that
is no argument, and a closing brace. An argument is named by its position, any other value by its
index.
-/

set_option autoImplicit false

namespace CipherFlow

open Text

namespace Routine

def valueName (r : Routine) (v : Nat) : List Char :=
  match r.instruction? v with
  | some ⟨.argument position, _, _⟩ => "%arg".toList ++ digits position
  | _ => '%' :: digits v

def valueType (r : Routine) (v : Nat) : List Char :=
  match r.type? v with
  | some t => t.spell
  | none => "<unknown>".toList

def valueNames (r : Routine) (vs : List Nat) : List Char :=
  commaSeparated (vs.map r.valueName)

def valueTypes (r : Routine) (vs : List Nat) : List Char :=
  commaSeparated (vs.map r.valueType)

def header (r : Routine) : List Char :=
  "func @".toList ++ r.name.toList ++ ['(']
    ++ commaSeparated (r.arguments.map fun a => r.valueName a ++ ": ".toList ++ r.valueType a)
    ++ ") -> (".toList ++ r.valueTypes r.results ++ ") \x7b\n".toList

/-- The line of the instruction with an index; an argument has none. -/
def line (r : Routine) (v : Nat) (i : Instruction) : List Char :=
  match i.op, i.result with
  | .argument _, _ => []
  | .constant literal, some t =>
      "  ".toList ++ r.valueName v ++ " = \"".toList ++ i.op.mnemonic.toList
        ++ "\"() \x7bvalue = ".toList ++ literal.spell ++ "\x7d : () -> ".toList ++ t.spell
        ++ ['\n']
  | op, some t =>
      "  ".toList ++ r.valueName v ++ " = \"".toList ++ op.mnemonic.toList ++ "\"(".toList
        ++ r.valueNames i.operands ++ ") : (".toList ++ r.valueTypes i.operands
        ++ ") -> ".toList ++ t.spell ++ ['\n']
  | op, none =>
      "  \"".toList ++ op.mnemonic.toList ++ "\"(".toList ++ r.valueNames i.operands
        ++ ") : (".toList ++ r.valueTypes i.operands ++ ") -> ()\n".toList

/-- The listing of a routine, without a line break at the end. -/
def listing (r : Routine) : List Char :=
  r.header ++ (r.instructions.toList.zipIdx.flatMap fun (i, v) => r.line v i) ++ "\x7d".toList

instance : ToString Routine where
  toString r := String.ofList r.listing

end Routine

end CipherFlow
