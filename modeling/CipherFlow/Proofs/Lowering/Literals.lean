import CipherFlow.Lowering.Constant
import CipherFlow.Proofs.Dataflow.Kind
import CipherFlow.Proofs.Literal.Building
import Mathlib

/-!
# Literals of constants and tables

What the literal of a payload or a table is, and for which payloads there is one. Main statements: a
payload has a literal exactly if it suits its descriptor, and the literal holds the values of the
payload in order (`payloadLiteral_eq_ok_iff`); every table has its literal (`tableLiteral_eq`).
-/

set_option autoImplicit false

namespace CipherFlow

/-! ## Words -/

/-- An integer of a width that a constant may have: a natural number of at most that width, and of
at most 64 bits. -/
def IsWordOf (value : Int) (width : UInt32) : Prop := 0 ≤ value ∧ value < 2 ^ min width.toNat 64

instance (value : Int) (width : UInt32) : Decidable (IsWordOf value width) :=
  inferInstanceAs (Decidable (_ ∧ _))

theorem isWordOf_iff {value : Int} {width : UInt32} :
    IsWordOf value width ↔
      ∃ word : UInt64, value = word.toNat ∧ word.toNat < 1 <<< width.toNat := by
  -- To be below the smaller of two powers is to be below both.
  have hmin (n : Nat) : n < 2 ^ min width.toNat 64 ↔ n < 2 ^ width.toNat ∧ n < 2 ^ 64 := by
    rcases Nat.le_total width.toNat 64 with h | h
    · have := Nat.pow_le_pow_right (n := 2) (by decide) h
      rw [Nat.min_eq_left h]
      omega
    · have := Nat.pow_le_pow_right (n := 2) (by decide) h
      rw [Nat.min_eq_right h]
      omega
  simp only [Nat.one_shiftLeft]
  constructor
  · rintro ⟨hpos, hlt⟩
    obtain ⟨n, rfl⟩ := Int.eq_ofNat_of_zero_le hpos
    obtain ⟨hw, h64⟩ := (hmin n).1 (by exact_mod_cast hlt)
    exact ⟨.ofNatLT n h64, by rw [UInt64.toNat_ofNatLT], by rwa [UInt64.toNat_ofNatLT]⟩
  · rintro ⟨word, rfl, hword⟩
    exact ⟨Int.natCast_nonneg _, by exact_mod_cast (hmin _).2 ⟨hword, word.toNat_lt⟩⟩

theorem isWordOf_toNat_iff {word : UInt64} {width : UInt32} :
    IsWordOf word.toNat width ↔ word.toNat < 1 <<< width.toNat := by
  rw [isWordOf_iff]
  constructor
  · rintro ⟨word', heq, hlt⟩
    rwa [Int.ofNat_inj.1 heq]
  · exact fun hlt => ⟨word, rfl, hlt⟩

theorem exists_words_iff {values : List Int} {width : UInt32} :
    (∀ v ∈ values, IsWordOf v width) ↔
      ∃ words : List UInt64, values = words.map (fun word => (word.toNat : Int)) ∧
        ∀ word ∈ words, word.toNat < 1 <<< width.toNat := by
  induction values with
  | nil => exact ⟨fun _ => ⟨[], by simp⟩, by simp⟩
  | cons v values ih =>
      rw [List.forall_mem_cons, ih, isWordOf_iff]
      constructor
      · rintro ⟨⟨word, rfl, hword⟩, words, rfl, hwords⟩
        exact ⟨word :: words, rfl, List.forall_mem_cons.2 ⟨hword, hwords⟩⟩
      · rintro ⟨words, h, hwords⟩
        obtain ⟨word, words, rfl, rfl, rfl⟩ := List.map_eq_cons_iff.1 h.symm
        rw [List.forall_mem_cons] at hwords
        exact ⟨⟨word, rfl, hwords.1⟩, words, rfl, hwords.2⟩

theorem mapM_toWord_eq_ok_iff {values : List Int} {words : List UInt64} :
    values.mapM toWord = .ok words ↔ values = words.map fun word => (word.toNat : Int) := by
  rw [Except.mapM_eq_ok_iff]
  simp only [toWord_eq_ok_iff]
  constructor
  · intro h
    induction h with
    | nil => rfl
    | cons hv _ ih => rw [hv, ih, List.map_cons]
  · rintro rfl
    rw [List.forall₂_map_left_iff, List.forall₂_same]
    exact fun _ _ => rfl

/-! ## Literals of integers -/

theorem literalOfInt_eq_ok_iff {value : Int} {width : UInt32} {l : Literal} :
    literalOfInt value width = .ok l ↔
      width ≠ 0 ∧ ∃ word : UInt64, value = word.toNat ∧ word.toNat < 1 <<< width.toNat ∧
        l = .integer (.clear width) word := by
  unfold literalOfInt
  simp only [Except.bind_eq_ok_iff, toWord_eq_ok_iff, Except.mapError_eq_ok_iff,
    Literal.ofInteger_clear_eq_ok_iff]
  constructor
  · rintro ⟨word, hv, hw, hlt, hl⟩
    exact ⟨hw, word, hv, hlt, hl⟩
  · rintro ⟨hw, word, hv, hlt, hl⟩
    exact ⟨word, hv, hw, hlt, hl⟩

theorem literalOfInts_eq_ok_iff {values : List Int} {shape : Shape} {width : UInt32}
    {l : Literal} :
    literalOfInts values shape width = .ok l ↔
      width ≠ 0 ∧ ∃ words : List UInt64, values = words.map (fun word => (word.toNat : Int)) ∧
        shape.count? = some words.length ∧ (∀ word ∈ words, word.toNat < 1 <<< width.toNat) ∧
        l = .dense (.tensor shape (.clear width)) words := by
  unfold literalOfInts
  simp only [Except.bind_eq_ok_iff, mapM_toWord_eq_ok_iff, Except.mapError_eq_ok_iff,
    DenseBuilder.build_eq_ok_iff (DenseBuilder.takes_forWidth width)]
  constructor
  · rintro ⟨words, hv, hw, hcount, hfits, hl⟩
    exact ⟨hw, words, hv, hcount, hfits, hl⟩
  · rintro ⟨hw, words, hv, hcount, hfits, hl⟩
    exact ⟨words, hv, hw, hcount, hfits, hl⟩

/-! ## Payloads -/

namespace Payload

/-- The constants that can be written: the descriptor is that of a clear unsigned integer or tensor
of positive width, and the payload holds as many words of that width. -/
inductive Suits : Payload → Descriptor → Prop
  | scalar {value : Int128} {width : UInt32} (hwidth : width ≠ 0)
      (hvalue : IsWordOf value.toInt width) : Suits (.scalar value) (.clearUnsigned width)
  | tensor {values : List Int128} {shape : Shape} {width : UInt32} (hshape : shape ≠ [])
      (hwidth : width ≠ 0) (hcount : shape.count? = some values.length)
      (hvalues : ∀ value ∈ values, IsWordOf value.toInt width) :
      Suits (.tensor values) (.tensor false shape (.integer width false))

/-- The literals of the type that a descriptor gives with the values of a payload. -/
inductive WrittenAs : Payload → Descriptor → Literal → Prop
  | scalar {value : Int128} {output : Descriptor} {word : UInt64} (hshape : output.shape = [])
      (hvalue : value.toInt = word.toNat) :
      WrittenAs (.scalar value) output (.integer (.clear output.width) word)
  | tensor {values : List Int128} {output : Descriptor} {words : List UInt64}
      (hshape : output.shape ≠ [])
      (hvalues : values.map (·.toInt) = words.map fun word => (word.toNat : Int)) :
      WrittenAs (.tensor values) output (.dense (.tensor output.shape (.clear output.width)) words)

end Payload

section Values

variable {values : List Int128} {words : List UInt64}
  (h : values.map (·.toInt) = words.map fun word => (word.toNat : Int))
include h

theorem length_eq_of_map_eq : values.length = words.length := by
  simpa using congrArg List.length h

/-- The values that words stand for fit a width exactly if the words do. -/
theorem forall_isWordOf_iff {width : UInt32} :
    (∀ value ∈ values, IsWordOf value.toInt width) ↔
      ∀ word ∈ words, word.toNat < 1 <<< width.toNat := by
  rw [← List.forall_mem_map (P := fun v => IsWordOf v width), h, List.forall_mem_map]
  exact forall₂_congr fun word _ => isWordOf_toNat_iff

end Values

theorem payloadLiteral_scalar (value : Int128) (width : UInt32) :
    payloadLiteral (.scalar value) (.clearUnsigned width) = literalOfInt value.toInt width := rfl

theorem payloadLiteral_tensor (values : List Int128) {shape : Shape} (width : UInt32)
    (h : shape ≠ []) :
    payloadLiteral (.tensor values) (.tensor false shape (.integer width false))
      = literalOfInts (values.map (·.toInt)) shape width := by
  cases shape with
  | nil => exact absurd rfl h
  | cons d rest => rfl

/-- A scalar is written only where the descriptor is that of a clear unsigned scalar, -/
theorem exists_of_payloadLiteral_scalar {value : Int128} {output : Descriptor} {l : Literal}
    (h : payloadLiteral (.scalar value) output = .ok l) :
    ∃ width, output = .clearUnsigned width ∧ literalOfInt value.toInt width = .ok l := by
  unfold payloadLiteral at h
  split at h
  · next hkind =>
      obtain ⟨width, signed, rfl⟩ := Descriptor.kind_eq_clearScalar_iff.1 hkind
      cases signed with
      | true => cases h
      | false => exact ⟨width, rfl, h⟩
  · split at h <;> cases h
  · cases h

/-- and a tensor only where it is that of a clear unsigned tensor. -/
theorem exists_of_payloadLiteral_tensor {values : List Int128} {output : Descriptor} {l : Literal}
    (h : payloadLiteral (.tensor values) output = .ok l) :
    ∃ shape width, shape ≠ [] ∧ output = .tensor false shape (.integer width false) ∧
      literalOfInts (values.map (·.toInt)) shape width = .ok l := by
  unfold payloadLiteral at h
  split at h
  · split at h <;> cases h
  · next hkind =>
      obtain ⟨shape, width, signed, hs, rfl⟩ := Descriptor.kind_eq_clearTensor_iff.1 hkind
      cases signed with
      | true => cases h
      | false => exact ⟨shape, width, hs, rfl, h⟩
  · cases h

/-- A payload has a literal exactly if it suits its descriptor, and then the literal is of the type
of the descriptor and has the values of the payload. -/
theorem payloadLiteral_eq_ok_iff {payload : Payload} {output : Descriptor} {l : Literal} :
    payloadLiteral payload output = .ok l ↔ payload.Suits output ∧ payload.WrittenAs output l := by
  constructor
  · intro h
    cases payload with
    | scalar value =>
        obtain ⟨width, rfl, hliteral⟩ := exists_of_payloadLiteral_scalar h
        obtain ⟨hw, word, hvalue, hlt, rfl⟩ := literalOfInt_eq_ok_iff.1 hliteral
        exact ⟨.scalar hw (hvalue ▸ isWordOf_toNat_iff.2 hlt), .scalar rfl hvalue⟩
    | tensor values =>
        obtain ⟨shape, width, hs, rfl, hliteral⟩ := exists_of_payloadLiteral_tensor h
        obtain ⟨hw, words, hvalues, hcount, hfits, rfl⟩ := literalOfInts_eq_ok_iff.1 hliteral
        rw [← length_eq_of_map_eq hvalues] at hcount
        exact ⟨.tensor hs hw hcount ((forall_isWordOf_iff hvalues).2 hfits), .tensor hs hvalues⟩
  · rintro ⟨hsuits, hwritten⟩
    cases hsuits with
    | scalar hw hfits =>
        cases hwritten with
        | scalar _ hvalue =>
            rw [hvalue, isWordOf_toNat_iff] at hfits
            rw [payloadLiteral_scalar, literalOfInt_eq_ok_iff]
            exact ⟨hw, _, hvalue, hfits, rfl⟩
    | tensor hs hw hcount hfits =>
        cases hwritten with
        | tensor _ hvalues =>
            rw [length_eq_of_map_eq hvalues] at hcount
            rw [payloadLiteral_tensor _ _ hs, literalOfInts_eq_ok_iff]
            exact ⟨hw, _, hvalues, hcount, (forall_isWordOf_iff hvalues).1 hfits, rfl⟩

theorem Payload.Suits.exists_writtenAs {payload : Payload} {output : Descriptor}
    (h : payload.Suits output) : ∃ l, payload.WrittenAs output l := by
  cases h with
  | scalar hw hv =>
      obtain ⟨word, hword, -⟩ := isWordOf_iff.1 hv
      exact ⟨_, .scalar rfl hword⟩
  | @tensor values shape width hs hw hcount hv =>
      obtain ⟨words, hwords, -⟩ := exists_words_iff.1 (List.forall_mem_map.2 hv)
      exact ⟨_, .tensor hs hwords⟩

/-- The literal has the type that the descriptor describes. -/
theorem Payload.ty_eq_of_writtenAs {payload : Payload} {output : Descriptor} {l : Literal}
    (hs : payload.Suits output) (hw : payload.WrittenAs output l) : l.ty = output.ty := by
  cases hw with
  | scalar hshape hv => cases hs with | scalar => rfl
  | tensor hshape hv =>
      cases hs with
      | tensor hs =>
          rw [Descriptor.ty_tensor hs]
          rfl

/-! ## Tables -/

/-- The literal of a table: a vector of words, as long as the table. -/
def Table.literal (table : Table) : Literal :=
  .dense (.tensor [.ofNatLT table.entries.length table.length_lt] (.clear tableWidth)) table.entries

/-- Every table has its literal. -/
theorem tableLiteral_eq (table : Table) : tableLiteral table = .ok table.literal := by
  have hsize : UInt64.ofNat table.size = .ofNatLT table.entries.length table.length_lt :=
    (UInt64.ofNatLT_eq_ofNat _).symm
  unfold tableLiteral
  rw [Except.mapError_eq_ok_iff, DenseBuilder.build_eq_ok_iff (by decide), hsize]
  refine ⟨by decide, by rw [Shape.count?_singleton, UInt64.toNat_ofNatLT], fun v _ => ?_, rfl⟩
  have hv : v.toNat < 2 ^ 64 := v.toNat_lt
  rw [Nat.one_shiftLeft]
  exact hv

end CipherFlow
