import CipherFlow.Literal.Basic

/-!
# Building dense literals

A dense literal is built directly where its width is one that machine words have, and through its
own text where it is not. `DenseBuilder.forWidth` chooses between the two.
-/

set_option autoImplicit false

namespace CipherFlow

open Text

/-- A way to build a dense literal from its shape, width and values. -/
inductive DenseBuilder
  /-- From the values as they are, for some widths. -/
  | native
  /-- By writing the literal and reading it back, for every width. -/
  | textual
  deriving DecidableEq, Repr

namespace DenseBuilder

def nativeWidths : List UInt32 := [1, 8, 16, 32, 64]

def takes : DenseBuilder → UInt32 → Bool
  | native, width => nativeWidths.contains width
  | textual, _ => true

def build (builder : DenseBuilder) (shape : Shape) (width : UInt32) (values : List UInt64) :
    Except LiteralError Literal :=
  let ty := Ty.tensor shape (.clear width)
  match builder with
  | native => do
      -- Width zero has an error of its own, although it has no direct form either.
      if width = 0 then throw .zeroWidth
      if !native.takes width then throw (.unsupportedWidth width)
      Literal.ofDense ty values
  | textual => do
      let nested ← nestedText shape values
      Literal.parse (String.ofList
        (Token.dense.spell ++ nested ++ Token.close.spell ++ " : ".toList ++ ty.spell))

/-- The direct builder where it takes the width, and the one through the text elsewhere. -/
def forWidth (width : UInt32) : DenseBuilder :=
  if native.takes width then native else textual

theorem takes_forWidth (width : UInt32) : (forWidth width).takes width = true := by
  unfold forWidth
  split
  · assumption
  · rfl

end DenseBuilder

end CipherFlow
