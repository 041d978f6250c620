import CipherFlow.Dataflow.Node
import CipherFlow.Routine.Op

/-!
# Rules for operations on two values

Which primitive computes an operation on two values depends on the kinds of the operands. Where a
primitive wants the encrypted operand first and the node has it second, the operands are swapped.
-/

set_option autoImplicit false

namespace CipherFlow

inductive Arrangement
  | asGiven
  | swapped
  deriving DecidableEq, Repr

def Arrangement.apply {α : Type} : Arrangement → α → α → α × α
  | asGiven, left, right => (left, right)
  | swapped, left, right => (right, left)

/-- A primitive with the order in which it takes the operands. -/
structure Rule where
  primitive : Primitive
  order : Arrangement
  deriving DecidableEq, Repr

def Rule.find? : Tag → Kind → Kind → Option Rule
  | .add, .encryptedScalar, .clearScalar => some ⟨.addClear, .asGiven⟩
  | .add, .clearScalar, .encryptedScalar => some ⟨.addClear, .swapped⟩
  | .add, .encryptedScalar, .encryptedScalar => some ⟨.add, .asGiven⟩
  | .sub, .clearScalar, .encryptedScalar => some ⟨.subFromClear, .asGiven⟩
  | .mul, .encryptedScalar, .clearScalar => some ⟨.mulClear, .asGiven⟩
  | .mul, .clearScalar, .encryptedScalar => some ⟨.mulClear, .swapped⟩
  | .dot, .encryptedTensor, .clearTensor => some ⟨.dotClear, .asGiven⟩
  | .dot, .clearTensor, .encryptedTensor => some ⟨.dotClear, .swapped⟩
  | _, _, _ => none

/-- Whether nodes with the tag can be lowered on their own; inputs become arguments beforehand. -/
def Tag.isLowerable : Tag → Bool
  | input => false
  | _ => true

end CipherFlow
