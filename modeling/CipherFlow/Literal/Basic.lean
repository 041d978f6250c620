import CipherFlow.Literal.NestedList

/-!
# Literals

A literal is an integer or the values of a tensor, with its type. The constructors hold whatever
the interchange format brings; `Literal.ofInteger` and `Literal.ofDense` build only literals whose
values fit their type, and `Literal.parse` reads only such. A literal is written as `5 : i8` or
`dense<[1, 2]> : tensor<2xi8>`.
-/

set_option autoImplicit false

namespace CipherFlow

open Text

inductive Literal
  | integer (ty : Ty) (value : UInt64)
  /-- The values of a tensor in row-major order. -/
  | dense (ty : Ty) (values : List UInt64)
  deriving DecidableEq, Repr

namespace Literal

def ty : Literal → Ty
  | integer ty _ => ty
  | dense ty _ => ty

/-! ## Building -/

def fits (value : UInt64) (width : UInt32) : Bool :=
  64 ≤ width.toNat || value.toNat >>> width.toNat == 0

def requireFits (width : UInt32) (value : UInt64) : Except LiteralError Unit :=
  if fits value width then .ok () else .error (.outOfRange value width)

theorem fits_iff {value : UInt64} {width : UInt32} :
    fits value width = true ↔ value.toNat < 1 <<< width.toNat := by
  have hv : value.toNat < 2 ^ 64 := value.toNat_lt
  rw [Nat.one_shiftLeft]
  simp only [fits, Bool.or_eq_true, decide_eq_true_eq, beq_iff_eq, Nat.shiftRight_eq_div_pow,
    Nat.div_eq_zero_iff, Nat.pow_eq_zero]
  constructor
  · rintro (h | h)
    · exact Nat.lt_of_lt_of_le hv (Nat.pow_le_pow_right (by decide) h)
    · omega
  · intro h
    exact Or.inr (Or.inr h)

/-- The integer literal of a type, which must be a clear integer wide enough. -/
def ofInteger (ty : Ty) (value : UInt64) : Except LiteralError Literal :=
  match ty with
  | .clear w => do
      if w = 0 then throw .zeroWidth
      requireFits w value
      return integer ty value
  | _ => throw (.malformed (.notInteger ty))

/-- The dense literal of a type, which must be a tensor of clear integers, wide enough, with as many
elements as there are values. -/
def ofDense (ty : Ty) (values : List UInt64) : Except LiteralError Literal :=
  match ty with
  | .tensor shape (.clear w) => do
      let n ← shape.count
      if n ≠ values.length then throw (.malformed (.wrongCount values.length ty))
      values.forM (requireFits w)
      return dense ty values
  | _ => throw (.malformed (.notIntegerTensor ty))

def ofNested (ty : Ty) (nested : NestedList) : Except LiteralError Literal :=
  match ty.shape? with
  | none => throw (.malformed (.notTensor ty))
  | some shape => do
      let values ← (nested.flatten shape).mapError .malformed
      ofDense ty values

/-! ## Writing -/

def spell : Literal → List Char
  | integer ty value => digits value.toNat ++ " : ".toList ++ ty.spell
  | dense ty values =>
      Token.dense.spell ++ spellNested (ty.shape?.getD []) values ++ Token.close.spell
        ++ " : ".toList ++ ty.spell

instance : ToString Literal where
  toString l := String.ofList l.spell

/-! ## Reading -/

/-- What follows `dense<`: a nested list and, behind `>` and `:`, a type. -/
def readDense (s : List Char) : Except (Fault (List Char)) ((NestedList × Ty) × List Char) := do
  let (nested, r) ← NestedList.read s
  let r ← requireToken .close r.1
  let r ← requireToken .colon r.1
  let (ty, r) ← Ty.read r.1
  return ((nested, ty), r.1)

def readInteger (s : List Char) : Except (Fault (List Char)) ((UInt64 × Ty) × List Char) := do
  let (value, r) ← number s
  let r ← requireToken .colon r.1
  let (ty, r) ← Ty.read r.1
  return ((value, ty), r.1)

/-- The literal that a whole text spells. That its parts fit together is checked before that
nothing follows them. -/
def parse (text : String) : Except LiteralError Literal := do
  let located {α : Type} (step : Except (Fault (List Char)) α) : Except LiteralError α :=
    step.mapError fun fault => .ofFault (fault.locate text.toList)
  match token? .dense text.toList with
  | some r =>
      let ((nested, ty), rest) ← located (readDense r.1)
      let literal ← ofNested ty nested
      located (requireEnd rest)
      return literal
  | none =>
      let ((value, ty), rest) ← located (readInteger text.toList)
      let literal ← ofInteger ty value
      located (requireEnd rest)
      return literal

example : (parse "dense<[[1,7],[3,0]]>:tensor<2x2xi3>").toOption
    = some (dense (.tensor [2, 2] (.clear 3)) [1, 7, 3, 0]) := by decide +kernel

example : (dense (.tensor [2, 2] (.clear 3)) [1, 7, 3, 0]).spell
    = "dense<[[1, 7], [3, 0]]> : tensor<2x2xi3>".toList := by decide +kernel

end Literal

end CipherFlow
