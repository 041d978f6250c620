import CipherFlow.Proofs.Literal.WellFormed
import CipherFlow.Proofs.Text.Separable

/-!
# Types and literals are told apart by their text

Two types are never spelled alike, whatever follows them, not even types of width zero, which no
text is read as (`Ty.separable_spell`). A literal has no brace in its text, so well-formed literals
are told apart in front of one (`Literal.WellFormed.spell_append_brace_inj`).
-/

set_option autoImplicit false

namespace CipherFlow

open Text

/-! ## Types -/

theorem Shape.spellDims_append_inj {shape shape' : Shape} {r s : List Char}
    (hr : startsWithDigit r = false) (hs : startsWithDigit s = false)
    (h : shape.spellDims ++ r = shape'.spellDims ++ s) : shape = shape' ∧ r = s := by
  induction shape generalizing shape' with
  | nil =>
      cases shape' with
      | nil => exact ⟨rfl, h⟩
      | cons d rest =>
          have h : r = digits d.toNat ++ (Token.times.spell ++ (spellDims rest ++ s)) := by
            simpa only [spellDims, List.append_assoc, List.nil_append] using h
          obtain ⟨c, t, hc, hd⟩ := exists_digits_eq_cons d.toNat
          rw [h, hc, List.cons_append, startsWithDigit, hd] at hr
          cases hr
  | cons d rest ih =>
      cases shape' with
      | nil =>
          have h : digits d.toNat ++ (Token.times.spell ++ (spellDims rest ++ r)) = s := by
            simpa only [spellDims, List.append_assoc, List.nil_append] using h
          obtain ⟨c, t, hc, hd⟩ := exists_digits_eq_cons d.toNat
          rw [← h, hc, List.cons_append, startsWithDigit, hd] at hs
          cases hs
      | cons e rest' =>
          simp only [spellDims, List.append_assoc] at h
          obtain ⟨hde, hdims⟩ := separable_digits (startsWithDigit_token_append _ _)
            (startsWithDigit_token_append _ _) h
          obtain ⟨rfl, hrest⟩ := ih (List.append_cancel_left hdims)
          exact ⟨by rw [UInt64.toNat_inj.1 hde], hrest⟩

/-- The first characters of types of two forms differ. -/
theorem Ty.separable_spell : Separable Ty.spell := by
  intro t u r s hr hs h
  induction t generalizing u r s with
  | clear w =>
      cases u with
      | clear w' =>
          obtain ⟨hw, hrest⟩ := separable_digits hr hs (List.cons.inj h).2
          exact ⟨by rw [UInt32.toNat_inj.1 hw], hrest⟩
      | encrypted w' => exact absurd (List.cons.inj h).1 (by decide)
      | tensor shape' element' => exact absurd (List.cons.inj h).1 (by decide)
  | encrypted w =>
      cases u with
      | clear w' => exact absurd (List.cons.inj h).1 (by decide)
      | encrypted w' =>
          simp only [spell, List.append_assoc] at h
          obtain ⟨hw, hclose⟩ := separable_digits (startsWithDigit_token_append _ _)
            (startsWithDigit_token_append _ _) (List.append_cancel_left h)
          exact ⟨by rw [UInt32.toNat_inj.1 hw], List.append_cancel_left hclose⟩
      | tensor shape' element' => exact absurd (List.cons.inj h).1 (by decide)
  | tensor shape element ih =>
      cases u with
      | clear w' => exact absurd (List.cons.inj h).1 (by decide)
      | encrypted w' => exact absurd (List.cons.inj h).1 (by decide)
      | tensor shape' element' =>
          simp only [spell, List.append_assoc] at h
          obtain ⟨rfl, helement⟩ :=
            Shape.spellDims_append_inj (element.startsWithDigit_spell_append _)
              (element'.startsWithDigit_spell_append _) (List.append_cancel_left h)
          obtain ⟨rfl, hclose⟩ := ih (startsWithDigit_token_append _ _)
            (startsWithDigit_token_append _ _) helement
          exact ⟨rfl, List.append_cancel_left hclose⟩

/-! ## Braces -/

/-- The brace behind the literal of a constant. -/
def closingBrace : Char := '\x7d'

theorem closingBrace_notMem_digits (n : Nat) : closingBrace ∉ digits n :=
  fun h => absurd (isDigit_of_mem_digits h) (by decide)

theorem closingBrace_notMem_token (token : Token) : closingBrace ∉ token.spell := by
  cases token <;> decide

theorem Shape.closingBrace_notMem_spellDims (shape : Shape) : closingBrace ∉ shape.spellDims := by
  induction shape with
  | nil => exact List.not_mem_nil
  | cons d rest ih =>
      simp only [spellDims, List.mem_append, not_or]
      exact ⟨⟨closingBrace_notMem_digits _, closingBrace_notMem_token _⟩, ih⟩

theorem Ty.closingBrace_notMem_spell (t : Ty) : closingBrace ∉ t.spell := by
  induction t with
  | clear w =>
      simp only [spell, List.mem_append, not_or]
      exact ⟨closingBrace_notMem_token _, closingBrace_notMem_digits _⟩
  | encrypted w =>
      simp only [spell, List.mem_append, not_or]
      exact ⟨⟨closingBrace_notMem_token _, closingBrace_notMem_digits _⟩,
        closingBrace_notMem_token _⟩
  | tensor shape element ih =>
      simp only [spell, List.mem_append, not_or]
      exact ⟨⟨⟨closingBrace_notMem_token _, shape.closingBrace_notMem_spellDims⟩, ih⟩,
        closingBrace_notMem_token _⟩

theorem closingBrace_notMem_commaSeparated {items : List (List Char)}
    (h : ∀ item ∈ items, closingBrace ∉ item) : closingBrace ∉ commaSeparated items := by
  induction items with
  | nil => exact List.not_mem_nil
  | cons x items ih =>
      obtain ⟨hx, hitems⟩ := List.forall_mem_cons.1 h
      cases items with
      | nil => rwa [commaSeparated_singleton]
      | cons y items =>
          rw [commaSeparated_cons_cons, List.mem_append, List.mem_cons, List.mem_cons]
          rintro (hc | hc | hc | hc)
          · exact hx hc
          · exact absurd hc (by decide)
          · exact absurd hc (by decide)
          · exact ih hitems hc

theorem closingBrace_notMem_spellNested (shape : Shape) (values : List UInt64) :
    closingBrace ∉ spellNested shape values := by
  induction shape generalizing values with
  | nil =>
      simp only [spellNested, List.mem_flatMap, not_exists, not_and]
      exact fun v _ => closingBrace_notMem_digits v.toNat
  | cons d rest ih =>
      have hitems : closingBrace ∉ commaSeparated
          ((rows (Shape.volume rest) d.toNat values).map (spellNested rest)) := by
        refine closingBrace_notMem_commaSeparated fun item hitem => ?_
        obtain ⟨row, -, rfl⟩ := List.mem_map.1 hitem
        exact ih row
      rw [spellNested, bracketed, List.mem_cons, List.mem_append, List.mem_singleton]
      rintro (hc | hc | hc)
      · exact absurd hc (by decide)
      · exact hitems hc
      · exact absurd hc (by decide)

theorem Literal.closingBrace_notMem_spell (l : Literal) : closingBrace ∉ l.spell := by
  have hcolon : closingBrace ∉ " : ".toList := by decide
  cases l with
  | integer ty value =>
      simp only [spell, List.mem_append, not_or]
      exact ⟨⟨closingBrace_notMem_digits _, hcolon⟩, ty.closingBrace_notMem_spell⟩
  | dense ty values =>
      simp only [spell, List.mem_append, not_or]
      exact ⟨⟨⟨⟨closingBrace_notMem_token _, closingBrace_notMem_spellNested _ _⟩,
        closingBrace_notMem_token _⟩, hcolon⟩, ty.closingBrace_notMem_spell⟩

/-! ## Literals -/

/-- Two well-formed literals are never spelled alike, since each is read back. -/
theorem Literal.WellFormed.spell_inj {l l' : Literal} (h : l.WellFormed) (h' : l'.WellFormed)
    (heq : l.spell = l'.spell) : l = l' := by
  have hl : parse (String.ofList l.spell) = .ok l := h.parse_toString
  have hl' : parse (String.ofList l'.spell) = .ok l' := h'.parse_toString
  rw [heq, hl'] at hl
  exact (Except.ok.inj hl).symm

theorem Literal.WellFormed.spell_append_brace_inj {l l' : Literal} {r s : List Char}
    (h : l.WellFormed) (h' : l'.WellFormed)
    (heq : l.spell ++ closingBrace :: r = l'.spell ++ closingBrace :: s) : l = l' ∧ r = s := by
  obtain ⟨hspell, hrest⟩ :=
    append_cons_inj l.closingBrace_notMem_spell l'.closingBrace_notMem_spell heq
  exact ⟨h.spell_inj h' hspell, hrest⟩

end CipherFlow
