/-!
# Decimal numerals

The decimal spelling of a natural number and the value of a run of digits. Main statements:
`value_digits` (a spelling has the value it spells) and `takeWhile_digits_append` (a spelling is
read back whole in front of any text that does not go on with a digit).
-/

set_option autoImplicit false

namespace CipherFlow.Text

/-- The decimal spelling of `n`, without leading zeros. -/
def digits (n : Nat) : List Char := Nat.toDigits 10 n

/-- The number that a run of decimal digits stands for; leading zeros count for nothing. -/
def value (ds : List Char) : Nat := Nat.ofDigitChars 10 ds 0

def startsWithDigit : List Char → Bool
  | [] => false
  | c :: _ => c.isDigit

theorem value_digits (n : Nat) : value (digits n) = n :=
  Nat.ofDigitChars_toDigits (by decide) (by decide)

theorem digits_injective {m n : Nat} (h : digits m = digits n) : m = n := by
  rw [← value_digits m, h, value_digits]

theorem isDigit_of_mem_digits {n : Nat} {c : Char} (h : c ∈ digits n) : c.isDigit = true :=
  Nat.isDigit_of_mem_toDigits (by decide) (by decide) h

theorem digits_ne_nil (n : Nat) : digits n ≠ [] := Nat.toDigits_ne_nil

theorem exists_digits_eq_cons (n : Nat) : ∃ c r, digits n = c :: r ∧ c.isDigit = true := by
  cases h : digits n with
  | nil => exact absurd h (digits_ne_nil n)
  | cons c r => exact ⟨c, r, rfl, isDigit_of_mem_digits (h ▸ List.mem_cons_self)⟩

theorem takeWhile_isDigit_eq_nil {r : List Char} (h : startsWithDigit r = false) :
    r.takeWhile Char.isDigit = [] := by
  cases r with
  | nil => rfl
  | cons c r => simp_all [startsWithDigit]

theorem dropWhile_isDigit_eq_self {r : List Char} (h : startsWithDigit r = false) :
    r.dropWhile Char.isDigit = r := by
  cases r with
  | nil => rfl
  | cons c r => simp_all [startsWithDigit]

theorem takeWhile_digits_append (n : Nat) {r : List Char} (h : startsWithDigit r = false) :
    (digits n ++ r).takeWhile Char.isDigit = digits n := by
  rw [List.takeWhile_append_of_pos fun _ => isDigit_of_mem_digits, takeWhile_isDigit_eq_nil h,
    List.append_nil]

theorem dropWhile_digits_append (n : Nat) {r : List Char} (h : startsWithDigit r = false) :
    (digits n ++ r).dropWhile Char.isDigit = r := by
  rw [List.dropWhile_append_of_pos fun _ => isDigit_of_mem_digits, dropWhile_isDigit_eq_self h]

theorem startsWithDigit_dropWhile (s : List Char) :
    startsWithDigit (s.dropWhile Char.isDigit) = false := by
  induction s with
  | nil => rfl
  | cons c s ih =>
      by_cases h : c.isDigit = true
      · rwa [List.dropWhile_cons_of_pos h]
      · rw [List.dropWhile_cons_of_neg h]
        simpa [startsWithDigit] using h

theorem length_dropWhile_isDigit_lt {s : List Char} (h : s.takeWhile Char.isDigit ≠ []) :
    (s.dropWhile Char.isDigit).length < s.length := by
  have hs := congrArg List.length (List.takeWhile_append_dropWhile (p := Char.isDigit) (l := s))
  rw [List.length_append] at hs
  have := List.length_pos_iff.2 h
  omega

end CipherFlow.Text
