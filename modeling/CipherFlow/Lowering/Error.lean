import CipherFlow.Dataflow.Basic
import CipherFlow.Routine.Basic

/-!
# Programs that cannot be lowered

Why a node or a program cannot be lowered, with the wording of each reason.
-/

set_option autoImplicit false

namespace CipherFlow

inductive NodePart
  | inputs
  | outputs
  | predecessors
  deriving DecidableEq, Repr

def NodePart.spell : NodePart → String
  | inputs => "inputs"
  | outputs => "outputs"
  | predecessors => "predecessors"

/-- Why a node or a program cannot be lowered. -/
inductive LowerError
  | arity (op : Tag) (part : NodePart) (expected found : Nat)
  | unsupportedOperands (op : Tag) (left right : Descriptor)
  | signedOperands (op : Tag) (left right : Descriptor)
  | unsupportedOutput (op : Tag) (output : Descriptor)
  | signedConstant (output : Descriptor)
  | signedConstantTensor (output : Descriptor)
  | unsupportedConstant (output : Descriptor)
  | unsupportedLookupInput (input : Descriptor)
  | unsupportedLookupOutput (output : Descriptor)
  | unsupportedInput (name : String) (output : Descriptor)
  /-- A constant is no natural number below `2 ^ 64`. -/
  | unrepresentable (value : Int)
  /-- The payload of a constant is a scalar for a tensor, or a tensor for a scalar. -/
  | payloadMismatch (payload : Payload) (output : Descriptor)
  /-- A table does not have an entry for every value of its operand. -/
  | tableDomain (width : UInt32) (found : Nat)
  | missingOperand (node : Nat)
  | alreadyLowered (node : Nat)
  | unknownNode (node : Nat)
  /-- Nodes with this tag cannot be lowered on their own. -/
  | noConversion (op : Tag)
  | cyclic
  | literal (error : LiteralError)
  | emit (error : EmitError)
  deriving DecidableEq, Repr

def LowerError.message : LowerError → String
  | arity op part expected found =>
      s!"Internal error: {op} should have {expected} {part.spell}, found {found}"
  | unsupportedOperands op left right => s!"Don't support {op} between {left} and {right}"
  | signedOperands op left right =>
      s!"Don't support {op} between {left} and {right}: "
        ++ "signed encrypted integers are unsupported"
  | unsupportedOutput op output =>
      s!"Don't support {op} producing {output}: "
        ++ "only encrypted unsigned integer results are supported"
  | signedConstant output => s!"Don't support signed constant integer {output}"
  | signedConstantTensor output => s!"Don't support signed constant integer tensor {output}"
  | unsupportedConstant output => s!"Don't support {output} constants"
  | unsupportedLookupInput input =>
      s!"Only support LUT with encrypted unsigned integers inputs, found {input}"
  | unsupportedLookupOutput output =>
      s!"Only support LUT with encrypted unsigned integers outputs, found {output}"
  | unsupportedInput name output => s!"Don't support program input {name} of type {output}"
  | unrepresentable value =>
      s!"Malformed literal: {value} isn't representable as an unsigned literal"
  | payloadMismatch payload output =>
      s!"Malformed literal: payload {payload} doesn't match {output}"
  | tableDomain width found =>
      s!"A lookup table for a {width.toNat}-bit input needs 2^{width.toNat} entries, "
        ++ s!"found {found}"
  | missingOperand node =>
      s!"Internal error: no lowered value registered for node NodeIndex({node})"
  | alreadyLowered node => s!"Internal error: node NodeIndex({node}) was already lowered"
  | unknownNode node => s!"Node NodeIndex({node}) isn't in the graph"
  | noConversion op => s!"No conversion registered for {op.name} nodes"
  | cyclic => "The graph contains a cycle"
  | literal error => error.message
  | emit error => error.message

def LowerError.ofUnknownNode (e : UnknownNode) : LowerError := unknownNode e.node

end CipherFlow
