import CipherFlow.Lowering.Constant
import CipherFlow.Lowering.Options
import CipherFlow.Lowering.Rule

/-!
# Plans

What a node becomes is decided from the node and the list of its operands alone, before any
instruction is added: `Node.plan` checks the node and answers with the instruction to add, whose
operands are still nodes.
-/

set_option autoImplicit false

namespace CipherFlow

/-- What to add to the routine for a node. The operands are nodes, in the order of the instruction,
and a width is that of the encrypted result. -/
inductive Plan
  | constant (literal : Literal)
  | primitive (p : Primitive) (width : UInt32) (left right : Nat)
  | lookup (table : Table) (width : UInt32) (operand : Nat)
  deriving DecidableEq, Repr

namespace Node

/-- The error of a node that does not have as many inputs, one output, and as many operands. The
first part that is wrong counts. -/
def arityError (node : Node) (operands : List Nat) (count : Nat) : LowerError :=
  if node.inputs.length ≠ count then .arity node.tag .inputs count node.inputs.length
  else if node.outputs.length ≠ 1 then .arity node.tag .outputs 1 node.outputs.length
  else .arity node.tag .predecessors count operands.length

def planBinary (op : Tag) (left right output : Descriptor) (l r : Nat) :
    Except LowerError Plan := do
  if left.isSignedCiphertext || right.isSignedCiphertext then
    throw (.signedOperands op left right)
  if output.kind ≠ .encryptedScalar then
    throw (.unsupportedOutput op output)
  match Rule.find? op left.kind right.kind with
  | none => throw (.unsupportedOperands op left right)
  | some rule =>
      let (first, second) := rule.order.apply l r
      return .primitive rule.primitive output.width first second

def planLookup (options : Options) (table : Table) (input output : Descriptor) (operand : Nat) :
    Except LowerError Plan := do
  if input.kind ≠ .encryptedScalar then
    throw (.unsupportedLookupInput input)
  if output.kind ≠ .encryptedScalar then
    throw (.unsupportedLookupOutput output)
  if options.checksTables then
    checkTable table input.width
  return .lookup table output.width operand

def plan (options : Options) (node : Node) (operands : List Nat) : Except LowerError Plan :=
  match node.op with
  | .input _ _ => .error (.noConversion .input)
  | .constant payload =>
    match node.inputs, node.outputs, operands with
    | [], [output], [] => .constant <$> payloadLiteral payload output
    | _, _, _ => .error (node.arityError operands 0)
  | .lookup table =>
    match node.inputs, node.outputs, operands with
    | [input], [output], [operand] => planLookup options table input output operand
    | _, _, _ => .error (node.arityError operands 1)
  | .add | .sub | .mul | .dot =>
    match node.inputs, node.outputs, operands with
    | [left, right], [output], [l, r] => planBinary node.tag left right output l r
    | _, _, _ => .error (node.arityError operands 2)

end Node

end CipherFlow
