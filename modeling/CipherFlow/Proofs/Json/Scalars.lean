import CipherFlow.Json.Reader
import CipherFlow.Json.Writer

/-!
# Numbers and strings in JSON

What is written for a number or a string is read back as it, in front of any text that does not go
on with a number. A control character is written as an escape for a unit of UTF-16, every other
character as itself or behind a backslash (`escape_cases`). Main statements: `reads_integer` and
`exists_renderString_eq`.
-/

set_option autoImplicit false

namespace CipherFlow

namespace Text

/-- Only zero is spelled with a zero in front. -/
theorem eq_zero_of_head?_digits {n : Nat} (h : (digits n).head? = some '0') : n = 0 := by
  induction n using Nat.strongRecOn with
  | ind n ih =>
      rcases Nat.lt_or_ge n 10 with hlt | hge
      · rw [digits, Nat.toDigits_of_lt_base hlt] at h
        exact Nat.digitChar_eq_zero.1 (Option.some.inj h)
      · -- The first digit is that of the number without the last.
        obtain ⟨c, t, hc, -⟩ := exists_digits_eq_cons (n / 10)
        have hfirst : (digits n).head? = (digits (n / 10)).head? := by
          rw [hc, digits, Nat.toDigits_of_base_le (by decide) hge, ← digits, hc]
          rfl
        have := ih (n / 10) (by omega) (hfirst ▸ h)
        omega

end Text

namespace Json

open Text

/-! ## Numbers -/

/-- Whether a text goes on with what may belong to a number. -/
def continuesNumber : List Char → Bool
  | [] => false
  | c :: _ => c.isDigit || c = '.' || c = 'e' || c = 'E'

variable {r : List Char}

/-- A reader reads a value off a text and leaves the given rest. -/
def Reads {α : Type} (read : (s : List Char) → Option (α × Rest s)) (s : List Char) (a : α)
    (r : List Char) : Prop :=
  ∃ q : Rest s, read s = some (a, q) ∧ q.1 = r

theorem startsWithDigit_of_continuesNumber (h : continuesNumber r = false) :
    startsWithDigit r = false := by
  cases r with
  | nil => rfl
  | cons c r =>
      simp only [continuesNumber, Bool.or_eq_false_iff] at h
      exact h.1.1.1

theorem skipFraction?_of_continuesNumber (h : continuesNumber r = false) :
    skipFraction? r = some ⟨r, Nat.le_refl _⟩ := by
  unfold skipFraction?
  split
  · cases h
  · rfl

theorem skipExponent?_of_continuesNumber (h : continuesNumber r = false) :
    skipExponent? r = some ⟨r, Nat.le_refl _⟩ := by
  have hletter : ¬ (r.head? = some 'e' ∨ r.head? = some 'E') := by
    cases r with
    | nil => simp
    | cons c r => simp_all [continuesNumber]
  rw [skipExponent?, if_neg hletter]

theorem exists_skipDigits?_digits (n : Nat) (h : startsWithDigit r = false) :
    ∃ q : Rest (digits n ++ r), skipDigits? (digits n ++ r) = some q ∧ q.1 = r := by
  have hne : (digits n ++ r).takeWhile Char.isDigit ≠ [] := by
    rw [takeWhile_digits_append n h]
    exact digits_ne_nil n
  rw [skipDigits?, dif_pos hne]
  exact ⟨_, rfl, dropWhile_digits_append n h⟩

/-- Digits are read back as the number they spell. -/
theorem reads_magnitude (negative : Bool) (n : Nat) (h : continuesNumber r = false) :
    Reads (readMagnitude negative) (digits n ++ r) (.integer negative n) r := by
  have hdigit := startsWithDigit_of_continuesNumber h
  have hzero : ¬ ((digits n).head? = some '0' ∧ digits n ≠ ['0']) := by
    rintro ⟨hhead, hne⟩
    exact hne (by rw [eq_zero_of_head?_digits hhead]; rfl)
  obtain ⟨⟨q, hlt⟩, hq, hrest⟩ := exists_skipDigits?_digits n hdigit
  obtain rfl : q = r := hrest
  refine ⟨⟨q, hlt⟩, ?_, rfl⟩
  simp only [readMagnitude, takeWhile_digits_append n hdigit, if_neg hzero, hq,
    skipFraction?_of_continuesNumber h, skipExponent?_of_continuesNumber h, Option.bind_eq_bind,
    Option.bind_some, value_digits, if_true]
  rfl

theorem readNumber_of_isDigit {c : Char} (hc : c.isDigit = true) (s : List Char) :
    readNumber (c :: s) = readMagnitude false (c :: s) := by
  rw [readNumber]
  rintro t ht
  rw [(List.cons.inj ht).1] at hc
  cases hc

/-- The text of a number is read back as it, whether it has a sign or not. -/
theorem reads_integer (negative : Bool) (n : Nat) (h : continuesNumber r = false) :
    Reads readNumber ((integer negative n).render ++ r) (.integer negative n) r := by
  cases negative with
  | true =>
      obtain ⟨q, hq, hrest⟩ := reads_magnitude true n h
      refine ⟨⟨q.1, Nat.lt_of_lt_of_le q.2 (Nat.le_succ _)⟩, ?_, hrest⟩
      show (readMagnitude true (digits n ++ r)).map _ = _
      rw [hq]
      rfl
  | false =>
      obtain ⟨q, hq, hrest⟩ := reads_magnitude false n h
      obtain ⟨c, t, hc, hd⟩ := exists_digits_eq_cons n
      have hsign : readNumber (digits n ++ r) = readMagnitude false (digits n ++ r) := by
        rw [hc]
        exact readNumber_of_isDigit hd (t ++ r)
      exact ⟨q, hsign.trans hq, hrest⟩

/-- A number of which nothing is kept is written as zero with a fraction. -/
theorem reads_decimal (h : continuesNumber r = false) :
    Reads readNumber (decimal.render ++ r) .decimal r := by
  have hdigit := startsWithDigit_of_continuesNumber h
  obtain ⟨⟨q, hlt⟩, hwhole, hrest⟩ := exists_skipDigits?_digits 0 (r := '.' :: '0' :: r) rfl
  obtain rfl : q = '.' :: '0' :: r := hrest
  obtain ⟨⟨q, hlt'⟩, hpart, hrest⟩ := exists_skipDigits?_digits 0 hdigit
  obtain rfl : q = r := hrest
  have hfraction : skipFraction? ('.' :: '0' :: q)
      = some ⟨q, Nat.le_of_lt (Nat.lt_trans hlt' (Nat.lt_succ_self _))⟩ := by
    rw [skipFraction?, show skipDigits? ('0' :: q) = _ from hpart]
    rfl
  have hlength : q.length ≠ ('.' :: '0' :: q).length := by
    simp only [List.length_cons]
    omega
  have hless : q.length < (decimal.render ++ q).length := by
    show q.length < ('0' :: '.' :: '0' :: q).length
    simp only [List.length_cons]
    omega
  refine ⟨⟨q, hless⟩, ?_, rfl⟩
  show readNumber ('0' :: '.' :: '0' :: q) = _
  rw [readNumber_of_isDigit rfl]
  show readMagnitude false (digits 0 ++ '.' :: '0' :: q) = _
  have hdigits := takeWhile_digits_append 0 (r := '.' :: '0' :: q) rfl
  have hzero : ¬ ((digits 0).head? = some '0' ∧ digits 0 ≠ ['0']) := fun h => h.2 rfl
  simp only [readMagnitude, hdigits, if_neg hzero, hwhole, hfraction,
    skipExponent?_of_continuesNumber h, Option.bind_eq_bind, Option.bind_some, if_neg hlength]
  rfl

/-! ## Strings -/

theorem reads_quote (r : List Char) : Reads readPieces ('"' :: r) [] r :=
  ⟨⟨r, Nat.lt_succ_self _⟩, by rw [readPieces], rfl⟩

theorem reads_backslash {s : List Char} {pieces : List Piece} {d c : Char}
    (h : Reads readPieces s pieces r) (hd : d ≠ 'u') (hc : unescape? d = some c) :
    Reads readPieces ('\\' :: d :: s) (.char c :: pieces) r := by
  obtain ⟨q, hq, rfl⟩ := h
  refine ⟨⟨q.1, by have := q.2; simp only [List.length_cons]; omega⟩, ?_, rfl⟩
  rw [readPieces, hc, hq]
  · rfl
  · exact fun _ _ _ _ _ hu _ => hd hu

theorem reads_unit {s : List Char} {pieces : List Piece} {a b c d : Char} {u : Nat}
    (h : Reads readPieces s pieces r) (hu : unit? a b c d = some u) :
    Reads readPieces ('\\' :: 'u' :: a :: b :: c :: d :: s) (.unit u :: pieces) r := by
  obtain ⟨q, hq, rfl⟩ := h
  refine ⟨⟨q.1, by have := q.2; simp only [List.length_cons]; omega⟩, ?_, rfl⟩
  rw [readPieces, hu, hq]
  rfl

theorem reads_plain {s : List Char} {pieces : List Piece} {c : Char}
    (h : Reads readPieces s pieces r) (hquote : c ≠ '"') (hslash : c ≠ '\\')
    (hcontrol : ¬ c.toNat < 0x20) : Reads readPieces (c :: s) (.char c :: pieces) r := by
  obtain ⟨q, hq, rfl⟩ := h
  refine ⟨⟨q.1, by have := q.2; simp only [List.length_cons]; omega⟩, ?_, rfl⟩
  rw [readPieces, if_neg (by simp [hcontrol, hslash]), hq]
  · rfl
  · exact hquote
  · rintro a b c' d s' hc
    exact absurd hc hslash
  · rintro c' s' hc
    exact absurd hc hslash

/-- The digits of a control character are read back. -/
theorem unit?_hexDigit {n : Nat} (h : n < 0x20) :
    unit? '0' '0' (hexDigit (n / 16)) (hexDigit (n % 16)) = some n := by
  have hall : ∀ m < 0x20, unit? '0' '0' (hexDigit (m / 16)) (hexDigit (m % 16)) = some m := by
    decide
  exact hall n h

/-- A character is written behind a backslash, as an escape for a unit, or as itself. -/
theorem escape_cases (c : Char) :
    (∃ d, escape c = ['\\', d] ∧ d ≠ 'u' ∧ unescape? d = some c) ∨
      (escape c = ['\\', 'u', '0', '0', hexDigit (c.toNat / 16), hexDigit (c.toNat % 16)] ∧
        c.toNat < 0x20) ∨
      escape c = [c] ∧ c ≠ '"' ∧ c ≠ '\\' ∧ ¬ c.toNat < 0x20 := by
  by_cases hletter : c ∈ ['"', '\\', '\n', '\r', '\t', '\x08', '\x0c']
  · simp only [List.mem_cons, List.not_mem_nil, or_false] at hletter
    rcases hletter with rfl | rfl | rfl | rfl | rfl | rfl | rfl <;>
      exact Or.inl ⟨_, rfl, by decide, rfl⟩
  · simp only [List.mem_cons, List.not_mem_nil, or_false, not_or] at hletter
    obtain ⟨hquote, hslash, hn, hr, ht, hb, hf⟩ := hletter
    have hescape : escape c = if c.toNat < 0x20 then
        ['\\', 'u', '0', '0', hexDigit (c.toNat / 16), hexDigit (c.toNat % 16)] else [c] := by
      simp only [escape, hquote, hslash, hn, hr, ht, hb, hf, if_false]
    rw [hescape]
    by_cases hcontrol : c.toNat < 0x20
    · exact Or.inr (Or.inl ⟨if_pos hcontrol, hcontrol⟩)
    · exact Or.inr (Or.inr ⟨if_neg hcontrol, hquote, hslash, hcontrol⟩)

/-- A unit below the surrogates makes a character by itself. -/
theorem assemble_unit {u : Nat} (hu : u < 0xD800) (pieces : List Piece) :
    assemble (.unit u :: pieces) = (Char.ofNat u :: ·) <$> assemble pieces := by
  cases pieces with
  | nil => simp only [assemble, hu, true_or, if_true]
  | cons p pieces => cases p <;> simp only [assemble, hu, true_or, if_true]

/-- What a character is written as is read back as one part of the string, which makes it. -/
theorem exists_reads_escape {s : List Char} {pieces : List Piece} (c : Char)
    (h : Reads readPieces s pieces r) :
    ∃ pieces', Reads readPieces (escape c ++ s) pieces' r ∧
      assemble pieces' = (c :: ·) <$> assemble pieces := by
  rcases escape_cases c with ⟨d, hc, hd, hletter⟩ | ⟨hc, hcontrol⟩ | ⟨hc, hquote, hslash, hcontrol⟩
  · rw [hc]
    exact ⟨_, reads_backslash h hd hletter, rfl⟩
  · rw [hc]
    refine ⟨_, reads_unit h (unit?_hexDigit hcontrol), ?_⟩
    rw [assemble_unit (Nat.lt_trans hcontrol (by decide)), Char.ofNat_toNat]
  · rw [hc]
    exact ⟨_, reads_plain h hquote hslash hcontrol, rfl⟩

/-- The characters of a string are read back up to its closing quote. -/
theorem exists_reads_flatMap_escape (cs r : List Char) :
    ∃ pieces, Reads readPieces (cs.flatMap escape ++ '"' :: r) pieces r ∧
      assemble pieces = some cs := by
  induction cs with
  | nil => exact ⟨[], reads_quote r, rfl⟩
  | cons c cs ih =>
      obtain ⟨pieces, hreads, hassemble⟩ := ih
      obtain ⟨pieces', hreads', hassemble'⟩ := exists_reads_escape c hreads
      rw [List.flatMap_cons, List.append_assoc]
      exact ⟨pieces', hreads', by rw [hassemble', hassemble]; rfl⟩

theorem reads_string {s : List Char} {pieces : List Piece} (h : Reads readPieces s pieces r) :
    Reads readString s ((assemble pieces).map String.ofList) r := by
  obtain ⟨q, hq, hrest⟩ := h
  refine ⟨q, ?_, hrest⟩
  rw [readString, hq]
  rfl

/-- A string is read back behind its opening quote. -/
theorem exists_renderString_eq (text : Option String) :
    ∃ body, renderString text = '"' :: body ∧ ∀ r, Reads readString (body ++ r) text r := by
  cases text with
  | some text =>
      refine ⟨_, rfl, fun r => ?_⟩
      obtain ⟨pieces, hreads, hassemble⟩ := exists_reads_flatMap_escape text.toList r
      have hstring := reads_string hreads
      rw [hassemble, Option.map_some, String.ofList_toList] at hstring
      rwa [List.append_assoc, List.singleton_append]
  | none =>
      -- A surrogate on its own makes no character.
      refine ⟨_, rfl, fun r => ?_⟩
      exact reads_string (reads_unit (reads_quote r) (u := 0xD800) (by decide))

end Json

end CipherFlow
