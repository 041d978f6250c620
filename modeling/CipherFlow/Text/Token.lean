/-!
# Tokens

The fixed parts of the texts of types and literals. No token is empty, so whoever takes one off a
text has less of it left.
-/

set_option autoImplicit false

namespace CipherFlow.Text

/-- A fixed part of the text of a type or literal. -/
inductive Token
  | encrypted
  | clear
  | tensor
  | times
  | dense
  /-- Ends what an encrypted integer, a tensor or its values begin. -/
  | close
  | colon
  | openList
  | comma
  | closeList
  deriving DecidableEq, Repr

namespace Token

def spell : Token → List Char
  | encrypted => ['!', 'H', 'L', 'F', 'H', 'E', '.', 'e', 'i', 'n', 't', '<']
  | clear => ['i']
  | tensor => ['t', 'e', 'n', 's', 'o', 'r', '<']
  | times => ['x']
  | dense => ['d', 'e', 'n', 's', 'e', '<']
  | close => ['>']
  | colon => [':']
  | openList => ['[']
  | comma => [',']
  | closeList => [']']

instance : ToString Token where
  toString token := String.ofList token.spell

theorem spell_ne_nil (token : Token) : token.spell ≠ [] := by
  cases token <;> decide

theorem length_spell_pos (token : Token) : 0 < token.spell.length :=
  List.length_pos_iff.2 token.spell_ne_nil

end Token

end CipherFlow.Text
