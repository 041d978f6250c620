/-!
# Written sequences

Items with a comma and a blank between them, bare or in square brackets.
-/

set_option autoImplicit false

namespace CipherFlow.Text

/-- The items with `, ` between them. -/
def commaSeparated (items : List (List Char)) : List Char := [',', ' '].intercalate items

def bracketed (items : List (List Char)) : List Char := '[' :: (commaSeparated items ++ [']'])

@[simp] theorem commaSeparated_nil : commaSeparated [] = [] := rfl

@[simp] theorem commaSeparated_singleton (x : List Char) : commaSeparated [x] = x := by
  simp [commaSeparated, List.intercalate]

theorem commaSeparated_cons_cons (x y : List Char) (items : List (List Char)) :
    commaSeparated (x :: y :: items) = x ++ ',' :: ' ' :: commaSeparated (y :: items) := by
  simp [commaSeparated, List.intercalate]

end CipherFlow.Text
