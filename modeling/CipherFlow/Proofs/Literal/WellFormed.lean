import CipherFlow.Proofs.Literal.Building
import Mathlib

/-!
# Well-formed literals

A literal is well formed when its type is that of a clear integer or of a tensor of such, of
positive width, its values fit the width, and a tensor has as many of them as its shape has
elements. Main statements: what is built directly or read from a text is well formed
(`Literal.wellFormed_of_ofInteger`, `Literal.wellFormed_of_ofDense`, `Literal.wellFormed_of_parse`),
and every well-formed literal is read back from its text (`Literal.WellFormed.parse_toString`).
-/

set_option autoImplicit false

namespace CipherFlow

/-- The literals whose parts fit together. -/
inductive Literal.WellFormed : Literal → Prop
  | integer {width : UInt32} {value : UInt64} (hwidth : width ≠ 0)
      (hvalue : value.toNat < 2 ^ width.toNat) : WellFormed (.integer (.clear width) value)
  | dense {shape : Shape} {width : UInt32} {values : List UInt64} (hwidth : width ≠ 0)
      (hcount : shape.count? = some values.length)
      (hvalues : ∀ value ∈ values, value.toNat < 2 ^ width.toNat) :
      WellFormed (.dense (.tensor shape (.clear width)) values)

namespace Literal

/-! ## What is built is well formed -/

theorem wellFormed_of_ofInteger {ty : Ty} {value : UInt64} {l : Literal}
    (h : ofInteger ty value = .ok l) : l.WellFormed := by
  cases ty with
  | clear w =>
      obtain ⟨hw, hv, rfl⟩ := ofInteger_clear_eq_ok_iff.1 h
      rw [Nat.one_shiftLeft] at hv
      exact .integer hw hv
  | encrypted w => cases h
  | tensor shape element => cases h

/-- Building a tensor directly does not look at the width, which must be known to be positive. -/
theorem wellFormed_of_ofDense {ty : Ty} {values : List UInt64} {l : Literal}
    (hp : ty.isProper = true) (h : ofDense ty values = .ok l) : l.WellFormed := by
  cases ty with
  | clear w => cases h
  | encrypted w => cases h
  | tensor shape element =>
      cases element with
      | clear w =>
          have hw : w ≠ 0 := by simpa [Ty.isProper] using hp
          obtain ⟨hcount, hv, rfl⟩ := ofDense_eq_ok_iff.1 h
          simp only [Nat.one_shiftLeft] at hv
          exact .dense hw hcount hv
      | encrypted w => cases h
      | tensor inner element => cases h

theorem wellFormed_of_ofNested {ty : Ty} {nested : NestedList} {l : Literal}
    (hp : ty.isProper = true) (h : ofNested ty nested = .ok l) : l.WellFormed := by
  unfold ofNested at h
  split at h
  · cases h
  · obtain ⟨values, -, h⟩ := Except.bind_eq_ok_iff.1 h
    exact wellFormed_of_ofDense hp h

theorem wellFormed_of_build {builder : DenseBuilder} {shape : Shape} {width : UInt32}
    {values : List UInt64} {l : Literal} (h : builder.build shape width values = .ok l) :
    l.WellFormed := by
  obtain ⟨hw, hcount, hv, rfl⟩ :=
    (DenseBuilder.build_eq_ok_iff (DenseBuilder.takes_of_build h)).1 h
  simp only [Nat.one_shiftLeft] at hv
  exact .dense hw hcount hv

/-! ## What is read is well formed -/

theorem isProper_of_readDense {s rest : List Char} {nested : NestedList} {ty : Ty}
    (h : readDense s = .ok ((nested, ty), rest)) : ty.isProper = true := by
  unfold readDense at h
  obtain ⟨⟨nested', q⟩, -, h⟩ := Except.bind_eq_ok_iff.1 h
  obtain ⟨t, -, h⟩ := Except.bind_eq_ok_iff.1 h
  obtain ⟨u, -, h⟩ := Except.bind_eq_ok_iff.1 h
  obtain ⟨⟨ty', v⟩, hty, h⟩ := Except.bind_eq_ok_iff.1 h
  cases h
  exact Ty.isProper_of_read hty

/-- Whatever text a literal is read from, it is well formed. -/
theorem wellFormed_of_parse {text : String} {l : Literal} (h : parse text = .ok l) :
    l.WellFormed := by
  unfold parse at h
  split at h
  · obtain ⟨⟨⟨nested, ty⟩, rest⟩, hread, h⟩ := Except.bind_eq_ok_iff.1 h
    obtain ⟨literal, hliteral, h⟩ := Except.bind_eq_ok_iff.1 h
    obtain ⟨-, -, h⟩ := Except.bind_eq_ok_iff.1 h
    cases h
    exact wellFormed_of_ofNested
      (isProper_of_readDense (Except.mapError_eq_ok_iff.1 hread)) hliteral
  · obtain ⟨⟨⟨value, ty⟩, rest⟩, -, h⟩ := Except.bind_eq_ok_iff.1 h
    obtain ⟨literal, hliteral, h⟩ := Except.bind_eq_ok_iff.1 h
    obtain ⟨-, -, h⟩ := Except.bind_eq_ok_iff.1 h
    cases h
    exact wellFormed_of_ofInteger hliteral

/-! ## What is well formed is read back -/

/-- A well-formed literal is read back from its text. -/
theorem WellFormed.parse_toString {l : Literal} (h : l.WellFormed) :
    parse (toString l) = .ok l := by
  show parse (String.ofList l.spell) = .ok l
  cases h with
  | @integer w v hw hv =>
      rw [← Nat.one_shiftLeft] at hv
      rw [parse_spell_integer (by simpa [Ty.isProper] using hw)]
      exact ofInteger_clear_eq_ok_iff.2 ⟨hw, hv, rfl⟩
  | @dense shape w values hw hcount hv =>
      simp only [← Nat.one_shiftLeft] at hv
      rw [parse_spell_dense (Shape.count?_eq_some hcount), if_neg hw]
      exact ofDense_eq_ok_iff.2 ⟨hcount, hv, rfl⟩

end Literal

end CipherFlow
