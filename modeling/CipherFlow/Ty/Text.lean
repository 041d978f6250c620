import CipherFlow.Text.Scan
import CipherFlow.Ty.Basic

/-!
# The text of a type

`i8` is a clear and `!HLFHE.eint<8>` an encrypted integer of eight bits, `tensor<2x3xi8>` a tensor.
`Ty.spell` writes that form. `Ty.read` accepts any blanks before each token and leading zeros in
numbers; it refuses a width of zero. `Ty.parse` reads a whole text.
-/

set_option autoImplicit false

namespace CipherFlow

open Text

/-! ## Writing -/

/-- The dimensions of a tensor type, each followed by `x`. -/
def Shape.spellDims : Shape → List Char
  | [] => []
  | d :: rest => digits d.toNat ++ Token.times.spell ++ spellDims rest

def Ty.spell : Ty → List Char
  | .clear w => Token.clear.spell ++ digits w.toNat
  | .encrypted w => Token.encrypted.spell ++ digits w.toNat ++ Token.close.spell
  | .tensor shape element =>
      Token.tensor.spell ++ shape.spellDims ++ element.spell ++ Token.close.spell

instance : ToString Ty where
  toString t := String.ofList t.spell

/-! ## Reading -/

/-- Dimensions with an `x` behind each, as long as digits come next. -/
def Shape.readDims (s : List Char) :
    Except (Fault (List Char)) (Shape × { r : List Char // r.length ≤ s.length }) :=
  if startsWithDigit (skipBlanks s) then do
    let (d, r) ← number s
    let r' ← requireToken .times r.1
    let (rest, q) ← readDims r'.1
    return (d :: rest, ⟨q.1, by have := r.2; have := r'.2; have := q.2; omega⟩)
  else
    return ([], ⟨s, Nat.le_refl _⟩)
termination_by s.length
decreasing_by
  have := r.2
  have := r'.2
  omega

def Ty.read (s : List Char) : Except (Fault (List Char)) (Ty × Rest s) :=
  match token? .encrypted s with
  | some r => do
      let (w, q) ← bitWidth r.1
      let t ← requireToken .close q.1
      return (.encrypted w, (r.trans q).trans t)
  | none =>
    match token? .tensor s with
    | some r => do
        let (shape, q) ← Shape.readDims r.1
        let (element, t) ← read q.1
        let u ← requireToken .close t.1
        return (.tensor shape element,
          ⟨u.1, by have := r.2; have := q.2; have := t.2; have := u.2; omega⟩)
    | none =>
      match token? .clear s with
      | some r => do
          let (w, q) ← bitWidth r.1
          return (.clear w, r.trans q)
      | none => throw (.unexpected (skipBlanks s) .missingType)
termination_by s.length
decreasing_by
  have := r.2
  have := q.2
  omega

def Ty.parse (text : String) : Except (Fault Nat) Ty :=
  let read : Except (Fault (List Char)) Ty := do
    let (t, r) ← Ty.read text.toList
    requireEnd r.1
    return t
  read.mapError (Fault.locate text.toList)

example : Ty.parse " tensor<02 x3xi8 >" = .ok (.tensor [2, 3] (.clear 8)) := by cbv

example : Ty.parse "tensor<2x i8" = .error (.unexpected 12 (.missing .close)) := by cbv

end CipherFlow
