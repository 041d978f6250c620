import CipherFlow.Proofs.Ty.Grammar

/-!
# Types are read back from their text

What is written for a type all of whose widths are positive is one of its spellings, so it is read
back in front of a text that does not go on with a digit (`Ty.exists_read_eq_ok`). Any other type is
refused for its width (`Ty.read_eq_zeroWidth`), and no text is read as such a type
(`Ty.isProper_of_read`). Each statement is about a text that, behind blanks, goes on with what is
written. Main statement: `Ty.parse_eq_ok_iff_isSpelledBy`.
-/

set_option autoImplicit false

namespace CipherFlow

open Text

/-! ## Dimensions -/

theorem Shape.dimsSpelled_spellDims (shape : Shape) : shape.DimsSpelled shape.spellDims := by
  induction shape with
  | nil => exact .nil
  | cons d rest ih =>
      rw [spellDims, List.append_assoc]
      exact .cons (numberSpelled_digits d.toNat) (.spell .times) ih

/-! ## Types -/

namespace Ty

/-- Whether all widths in a type are positive. -/
def isProper : Ty → Bool
  | clear w => w != 0
  | encrypted w => w != 0
  | tensor _ element => element.isProper

/-- The spelling of a type starts with a token. -/
theorem exists_spell_eq_token_append (t : Ty) : ∃ token r, t.spell = Token.spell token ++ r := by
  cases t with
  | clear w => exact ⟨.clear, _, rfl⟩
  | encrypted w => exact ⟨.encrypted, _, by rw [spell, List.append_assoc]⟩
  | tensor shape element =>
      exact ⟨.tensor, _, by rw [spell, List.append_assoc, List.append_assoc]⟩

theorem skipBlanks_spell_append (t : Ty) (r : List Char) :
    skipBlanks (t.spell ++ r) = t.spell ++ r := by
  obtain ⟨token, q, hq⟩ := t.exists_spell_eq_token_append
  rw [hq, List.append_assoc, skipBlanks_token_append]

theorem startsWithDigit_spell_append (t : Ty) (r : List Char) :
    startsWithDigit (t.spell ++ r) = false := by
  obtain ⟨token, q, hq⟩ := t.exists_spell_eq_token_append
  rw [hq, List.append_assoc, startsWithDigit_token_append]

/-- What is written for a type with positive widths spells it. -/
theorem spelled_spell {t : Ty} (h : t.isProper = true) : t.Spelled t.spell := by
  induction t with
  | clear w => exact .clear (.spell .clear) (numberSpelled_digits _) (by simpa [isProper] using h)
  | encrypted w =>
      rw [spell, List.append_assoc]
      exact .encrypted (.spell .encrypted) (numberSpelled_digits _) (by simpa [isProper] using h)
        (.spell .close)
  | tensor shape element ih =>
      rw [spell, List.append_assoc, List.append_assoc]
      exact .tensor (.spell .tensor) shape.dimsSpelled_spellDims (ih h) (.spell .close)

theorem Spelled.isProper {t : Ty} {p : List Char} (h : t.Spelled p) : t.isProper = true := by
  induction h with
  | clear hi hn hw => simpa [Ty.isProper] using hw
  | encrypted he hn hw hc => simpa [Ty.isProper] using hw
  | tensor ht hd hs hc ih => exact ih

/-- More blanks may stand in front of a spelling. -/
theorem Spelled.blanks_append {t : Ty} {p b : List Char} (h : t.Spelled p) (hb : AllBlank b) :
    t.Spelled (b ++ p) := by
  cases h with
  | clear hi hn hw =>
      rw [← List.append_assoc]
      exact .clear (hi.blanks_append hb) hn hw
  | encrypted he hn hw hc =>
      rw [← List.append_assoc]
      exact .encrypted (he.blanks_append hb) hn hw hc
  | tensor ht hd hs hc =>
      rw [← List.append_assoc]
      exact .tensor (ht.blanks_append hb) hd hs hc

/-- A type with positive widths is read back from what is written. -/
theorem exists_read_eq_ok {t : Ty} {s r : List Char} (ht : t.isProper = true)
    (h : skipBlanks s = t.spell ++ r) (hr : startsWithDigit r = false) :
    ∃ q, read s = .ok (t, q) ∧ q.1 = r := by
  obtain ⟨b, hb, hs⟩ := exists_eq_append_skipBlanks s
  rw [h, ← List.append_assoc] at hs
  exact ((spelled_spell ht).blanks_append hb).exists_read_eq_ok hr hs

/-- Whatever the text, no type is read in which some width is zero. -/
theorem isProper_of_read {t : Ty} {s : List Char} {r : Rest s} (h : read s = .ok (t, r)) :
    t.isProper = true := by
  obtain ⟨p, hp, -⟩ := exists_spelled_of_read h
  exact hp.isProper

/-- A type in which some width is zero is refused. -/
theorem read_eq_zeroWidth {t : Ty} {s r : List Char} (ht : t.isProper = false)
    (h : skipBlanks s = t.spell ++ r) (hr : startsWithDigit r = false) :
    read s = .error .zeroWidth := by
  induction t generalizing s r with
  | clear w =>
      have hw : w = 0 := by simpa [isProper] using ht
      subst hw
      have h : skipBlanks s = Token.clear.spell ++ (digits 0 ++ r) := h
      obtain ⟨q, hq, hqr⟩ := exists_token?_eq_some h
      have hdigits : skipBlanks q.1 = digits 0 ++ r := by rw [hqr, skipBlanks_digits_append]
      rw [read, token?_eq_none_of_cons h (by decide), token?_eq_none_of_cons h (by decide), hq]
      simp only [bitWidth_eq_zeroWidth hdigits hr, Except.error_bind]
  | encrypted w =>
      have hw : w = 0 := by simpa [isProper] using ht
      subst hw
      have h : skipBlanks s = Token.encrypted.spell ++ (digits 0 ++ (Token.close.spell ++ r)) := by
        rw [h, spell, List.append_assoc, List.append_assoc]
        rfl
      obtain ⟨q, hq, hqr⟩ := exists_token?_eq_some h
      have hdigits : skipBlanks q.1 = digits 0 ++ (Token.close.spell ++ r) := by
        rw [hqr, skipBlanks_digits_append]
      rw [read, hq]
      simp only [bitWidth_eq_zeroWidth hdigits (startsWithDigit_token_append _ _),
        Except.error_bind]
  | tensor shape element ih =>
      have h : skipBlanks s = Token.tensor.spell
          ++ (shape.spellDims ++ (element.spell ++ (Token.close.spell ++ r))) := by
        rw [h, spell]
        simp only [List.append_assoc]
      -- The dimensions are read as usual; the width of zero is found behind them.
      have helement := element.skipBlanks_spell_append (Token.close.spell ++ r)
      have hdigit := element.startsWithDigit_spell_append (Token.close.spell ++ r)
      obtain ⟨q, hq, hqr⟩ := exists_token?_eq_some h
      obtain ⟨t, ht', htr⟩ :=
        shape.dimsSpelled_spellDims.exists_readDims_eq_ok (by rw [helement, hdigit]) hqr
      have hskip : skipBlanks t.1 = element.spell ++ (Token.close.spell ++ r) := by
        rw [htr, helement]
      rw [read, token?_eq_none_of_cons h (by decide), hq]
      simp only [ht', ih ht hskip (startsWithDigit_token_append _ _), Except.ok_bind,
        Except.error_bind]

/-! ## Whole texts -/

/-- Exactly the types with positive widths are read back from what is written for them. -/
theorem parse_toString_eq_ok_iff {t : Ty} : parse (toString t) = .ok t ↔ t.isProper = true := by
  rw [parse_eq_ok_iff]
  constructor
  · rintro ⟨p, blanks, hp, -, -⟩
    exact hp.isProper
  · intro h
    exact ⟨t.spell, [], spelled_spell h, nofun, by simp [toString]⟩

/-- A text is read as a type exactly if it spells the type, and every type is read back from what is
written for it, unless some width in it is zero. -/
theorem parse_eq_ok_iff_isSpelledBy :
    (∀ (text : String) (t : Ty), parse text = .ok t ↔ t.IsSpelledBy text) ∧
      ∀ t : Ty, parse (toString t) = .ok t ↔ t.isProper = true :=
  ⟨fun _ _ => parse_eq_ok_iff, fun _ => parse_toString_eq_ok_iff⟩

end Ty

end CipherFlow
