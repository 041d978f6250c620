import CipherFlow.Json.Basic

/-!
# Writing JSON

JSON is written without blanks. In strings, quotes, backslashes and control characters are escaped,
and all else stands as it is.
-/

set_option autoImplicit false

namespace CipherFlow.Json

open Text

def hexDigit (n : Nat) : Char := Nat.digitChar n

def escape (c : Char) : List Char :=
  if c = '"' then ['\\', '"']
  else if c = '\\' then ['\\', '\\']
  else if c = '\n' then ['\\', 'n']
  else if c = '\r' then ['\\', 'r']
  else if c = '\t' then ['\\', 't']
  else if c = '\x08' then ['\\', 'b']
  else if c = '\x0c' then ['\\', 'f']
  else if c.toNat < 0x20 then
    ['\\', 'u', '0', '0', hexDigit (c.toNat / 16), hexDigit (c.toNat % 16)]
  else [c]

/-- A string with its quotes. A string that has no text is written as a surrogate on its own. -/
def renderString : Option String → List Char
  | some s => '"' :: (s.toList.flatMap escape ++ ['"'])
  | none => "\"\\ud800\"".toList

mutual

def render : Json → List Char
  | .null => "null".toList
  | .bool true => "true".toList
  | .bool false => "false".toList
  | .integer negative n => if negative then '-' :: digits n else digits n
  | .decimal => "0.0".toList
  | .string text => renderString text
  | .array items => '[' :: (renderItems items ++ [']'])
  | .object members => '\x7b' :: (renderMembers members ++ ['\x7d'])

def renderItems : List Json → List Char
  | [] => []
  | [item] => render item
  | item :: next :: items => render item ++ ',' :: renderItems (next :: items)

def renderMembers : List (Option String × Json) → List Char
  | [] => []
  | [(key, value)] => renderString key ++ ':' :: render value
  | (key, value) :: next :: members =>
      renderString key ++ ':' :: (render value ++ ',' :: renderMembers (next :: members))

end

def compress (json : Json) : String := String.ofList json.render

end CipherFlow.Json
