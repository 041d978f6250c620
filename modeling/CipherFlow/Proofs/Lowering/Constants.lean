import CipherFlow.Proofs.Literal.WellFormed
import CipherFlow.Proofs.Lowering.Literals

/-!
# Constants of a program

The literals that a program gets for its constants and tables. Main statements: the ways to make a
literal make the well-formed literals and no others, and these are the literals that are read back
from their text (`Literal.wellFormed_iff_made_and_readBack`); and integers have a literal of a width
exactly if they are words of that width, which then holds them in order
(`literalOfInts_holds_values`).
-/

set_option autoImplicit false

namespace CipherFlow

/-! ## Ways to make a literal -/

/-- The literals that are built, read, or made of integers or a table. -/
inductive Literal.Made : Literal → Prop
  | ofInteger {ty : Ty} {value : UInt64} {l : Literal} (h : Literal.ofInteger ty value = .ok l) :
      Made l
  | build {builder : DenseBuilder} {shape : Shape} {width : UInt32} {values : List UInt64}
      {l : Literal} (h : builder.build shape width values = .ok l) : Made l
  | parse {text : String} {l : Literal} (h : Literal.parse text = .ok l) : Made l
  | ofInt {value : Int} {width : UInt32} {l : Literal} (h : literalOfInt value width = .ok l) :
      Made l
  | ofInts {values : List Int} {shape : Shape} {width : UInt32} {l : Literal}
      (h : literalOfInts values shape width = .ok l) : Made l
  | table {table : Table} {l : Literal} (h : tableLiteral table = .ok l) : Made l

namespace Literal

theorem Made.wellFormed {l : Literal} (h : l.Made) : l.WellFormed := by
  cases h with
  | ofInteger h => exact wellFormed_of_ofInteger h
  | build h => exact wellFormed_of_build h
  | parse h => exact wellFormed_of_parse h
  | ofInt h =>
      obtain ⟨word, -, h⟩ := Except.bind_eq_ok_iff.1 h
      exact wellFormed_of_ofInteger (Except.mapError_eq_ok_iff.1 h)
  | ofInts h =>
      obtain ⟨words, -, h⟩ := Except.bind_eq_ok_iff.1 h
      exact wellFormed_of_build (Except.mapError_eq_ok_iff.1 h)
  | table h => exact wellFormed_of_build (Except.mapError_eq_ok_iff.1 h)

/-- Whatever makes a literal makes a well-formed one, and every well-formed literal is read back
from its text. -/
theorem wellFormed_iff_made_and_readBack (l : Literal) :
    (l.Made ↔ l.WellFormed) ∧ (l.WellFormed ↔ Literal.parse (toString l) = .ok l) :=
  ⟨⟨Made.wellFormed, fun h => .parse h.parse_toString⟩,
    ⟨WellFormed.parse_toString, fun h => wellFormed_of_parse h⟩⟩

/-- A tensor with no elements in two rows is read back. -/
example : Literal.parse "dense<[[], []]> : tensor<2x0xi3>"
    = .ok (.dense (.tensor [2, 0] (.clear 3)) []) := by decide +kernel

end Literal

/-! ## Literals of integers -/

/-- Integers have a literal of a shape and width exactly if they fill the shape and are words of the
width. -/
theorem exists_literalOfInts_iff {values : List Int} {shape : Shape} {width : UInt32} :
    (∃ l, literalOfInts values shape width = .ok l) ↔
      width ≠ 0 ∧ shape.count? = some values.length ∧ ∀ v ∈ values, IsWordOf v width := by
  simp only [literalOfInts_eq_ok_iff]
  constructor
  · rintro ⟨l, hw, words, rfl, hcount, hfits, -⟩
    exact ⟨hw, by rwa [List.length_map], exists_words_iff.2 ⟨words, rfl, hfits⟩⟩
  · rintro ⟨hw, hcount, hwords⟩
    obtain ⟨words, rfl, hfits⟩ := exists_words_iff.1 hwords
    rw [List.length_map] at hcount
    exact ⟨_, hw, words, rfl, hcount, hfits, rfl⟩

/-- The literal of integers has the given shape and width and holds them in order, and every builder
that takes the width builds it. -/
theorem exists_words_of_literalOfInts {values : List Int} {shape : Shape} {width : UInt32}
    {l : Literal} (h : literalOfInts values shape width = .ok l) :
    ∃ words : List UInt64, words.map (fun word => (word.toNat : Int)) = values ∧
      l = .dense (.tensor shape (.clear width)) words ∧
      ∀ builder : DenseBuilder, builder.takes width = true →
        builder.build shape width words = .ok l := by
  obtain ⟨hw, words, rfl, hcount, hfits, rfl⟩ := literalOfInts_eq_ok_iff.1 h
  exact ⟨words, rfl, rfl, fun builder htakes =>
    (DenseBuilder.build_eq_ok_iff htakes).2 ⟨hw, hcount, hfits, rfl⟩⟩

theorem exists_literalOfInt_iff {value : Int} {width : UInt32} :
    (∃ l, literalOfInt value width = .ok l) ↔ width ≠ 0 ∧ IsWordOf value width := by
  simp only [literalOfInt_eq_ok_iff, isWordOf_iff]
  constructor
  · rintro ⟨l, hw, word, hv, hfits, -⟩
    exact ⟨hw, word, hv, hfits⟩
  · rintro ⟨hw, word, hv, hfits⟩
    exact ⟨_, hw, word, hv, hfits, rfl⟩

/-- The literal of an integer has the given width and holds it. -/
theorem exists_word_of_literalOfInt {value : Int} {width : UInt32} {l : Literal}
    (h : literalOfInt value width = .ok l) :
    ∃ word : UInt64, (word.toNat : Int) = value ∧ l = .integer (.clear width) word := by
  obtain ⟨-, word, hv, -, rfl⟩ := literalOfInt_eq_ok_iff.1 h
  exact ⟨word, hv.symm, rfl⟩

/-- At every width, integers have a literal exactly if they are words of the width, and as many as
the shape has elements; and the literal holds them as they are. -/
theorem literalOfInts_holds_values (width : UInt32) :
    (∀ (values : List Int) (shape : Shape),
      ((∃ l, literalOfInts values shape width = .ok l) ↔
        width ≠ 0 ∧ shape.count? = some values.length ∧ ∀ v ∈ values, IsWordOf v width) ∧
      ∀ l, literalOfInts values shape width = .ok l →
        ∃ words : List UInt64, words.map (fun word => (word.toNat : Int)) = values ∧
          l = .dense (.tensor shape (.clear width)) words ∧
          ∀ builder : DenseBuilder, builder.takes width = true →
            builder.build shape width words = .ok l) ∧
    ∀ value : Int,
      ((∃ l, literalOfInt value width = .ok l) ↔ width ≠ 0 ∧ IsWordOf value width) ∧
      ∀ l, literalOfInt value width = .ok l →
        ∃ word : UInt64, (word.toNat : Int) = value ∧ l = .integer (.clear width) word :=
  ⟨fun _ _ => ⟨exists_literalOfInts_iff, fun _ => exists_words_of_literalOfInts⟩,
    fun _ => ⟨exists_literalOfInt_iff, fun _ => exists_word_of_literalOfInt⟩⟩

/-- The numbers of three bits at both ends have a literal, which no machine word is as wide as. -/
theorem literalOfInts_holds_values_threeBits :
    ∃ words : List UInt64, words.map (fun word => (word.toNat : Int)) = [7, 0] ∧
      literalOfInts [7, 0] [2] 3 = .ok (.dense (.tensor [2] (.clear 3)) words) := by
  obtain ⟨hexists, hholds⟩ := (literalOfInts_holds_values 3).1 [7, 0] [2]
  obtain ⟨l, hl⟩ := hexists.2 ⟨by decide, by decide, by decide⟩
  obtain ⟨words, hwords, rfl, -⟩ := hholds l hl
  exact ⟨words, hwords, hl⟩

end CipherFlow
