import CipherFlow.Text.Numeral

/-!
# JSON values

A JSON value as it stands in a text: an object keeps all its members in order, also those with the
same key. Some texts are well formed and yet cannot be used. A string with an unpaired surrogate is
kept as a string without text, and of a number with a fraction or an exponent nothing is kept.
-/

set_option autoImplicit false

namespace CipherFlow

inductive Json
  | null
  | bool (b : Bool)
  /-- A whole number, as a sign and a magnitude: `-0` differs from `0`. -/
  | integer (negative : Bool) (magnitude : Nat)
  /-- A number with a fraction or an exponent. -/
  | decimal
  /-- A string; nothing if it has an unpaired surrogate. -/
  | string (text : Option String)
  | array (items : List Json)
  | object (members : List (Option String × Json))

namespace Json

def natural (n : Nat) : Json := .integer false n

def ofInt (n : Int) : Json := .integer (n < 0) n.natAbs

def text (s : String) : Json := .string (some s)

def ofList {α : Type} (f : α → Json) (xs : List α) : Json := .array (xs.map f)

def record (members : List (String × Json)) : Json :=
  .object (members.map fun (key, value) => (some key, value))

/-- A variant with a payload: an object with one member. -/
def variant (name : String) (payload : Json) : Json := record [(name, payload)]

end Json

end CipherFlow
