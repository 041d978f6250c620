/-!
# Blanks

The code points with the Unicode property `White_Space`, and skipping them. Core's
`Char.isWhitespace` knows only the ASCII ones, so the table is written out here. The lemmas
say that no digit is a blank and that skipping leaves a text that starts with none.
-/

set_option autoImplicit false

namespace CipherFlow.Text

/-! ## The table -/

/-- The code points with the property `White_Space`, as inclusive ranges in increasing order. -/
def blankRanges : List (Nat × Nat) :=
  [(0x9, 0xD), (0x20, 0x20), (0x85, 0x85), (0xA0, 0xA0), (0x1680, 0x1680), (0x2000, 0x200A),
   (0x2028, 0x2029), (0x202F, 0x202F), (0x205F, 0x205F), (0x3000, 0x3000)]

def isBlank (c : Char) : Bool :=
  blankRanges.any fun (low, high) => low ≤ c.toNat && c.toNat ≤ high

/-- Twenty-five code points are blanks. -/
example : (blankRanges.map fun (low, high) => high + 1 - low).sum = 25 := by decide

theorem isBlank_of_isDigit {c : Char} (h : c.isDigit = true) : isBlank c = false := by
  have hc : 48 ≤ c.toNat ∧ c.toNat ≤ 57 := by
    simpa [Char.isDigit, UInt32.le_iff_toNat_le] using h
  simp [isBlank, blankRanges]
  omega

/-! ## Skipping -/

def skipBlanks (s : List Char) : List Char := s.dropWhile isBlank

theorem skipBlanks_cons_of_not_blank {c : Char} {s : List Char} (h : isBlank c = false) :
    skipBlanks (c :: s) = c :: s := by
  simp [skipBlanks, h]

theorem skipBlanks_cons_of_blank {c : Char} {s : List Char} (h : isBlank c = true) :
    skipBlanks (c :: s) = skipBlanks s := by
  simp [skipBlanks, h]

theorem skipBlanks_suffix (s : List Char) : skipBlanks s <:+ s :=
  List.dropWhile_suffix isBlank

theorem length_skipBlanks_le (s : List Char) : (skipBlanks s).length ≤ s.length :=
  (skipBlanks_suffix s).length_le

@[simp] theorem skipBlanks_skipBlanks (s : List Char) :
    skipBlanks (skipBlanks s) = skipBlanks s := by
  induction s with
  | nil => rfl
  | cons c s ih =>
      by_cases h : isBlank c = true
      · rw [skipBlanks_cons_of_blank h, ih]
      · rw [skipBlanks_cons_of_not_blank (by simpa using h),
          skipBlanks_cons_of_not_blank (by simpa using h)]

end CipherFlow.Text
