import CipherFlow.Lowering.Node

/-!
# Lowering a program

The inputs of a program become the arguments of the routine, in their order. Then the nodes are
lowered in the order of a walk, so that the operands of a node have values when it comes up. If some
node is never ready, the program has a cycle and is refused. At the end the routine returns the
values of the outputs.
-/

set_option autoImplicit false

namespace CipherFlow

open Lowering

def argumentTy (name : String) (output : Descriptor) : Except LowerError Ty :=
  if output.isSignedCiphertext then .error (.unsupportedInput name output)
  else
    match output.kind with
    | .encryptedScalar => .ok (.encrypted output.width)
    | .clearScalar => .ok (.clear output.width)
    | .encryptedTensor => .ok (.tensor output.shape (.encrypted output.width))
    | .clearTensor => .ok (.tensor output.shape (.clear output.width))
    | .encryptedSignedScalar | .nonInteger => .error (.unsupportedInput name output)

def Node.argumentTy (node : Node) : Except LowerError Ty :=
  match node.op with
  | .input name _ =>
    match node.outputs with
    | [] => .error (.arity .input .outputs 1 0)
    | output :: _ => CipherFlow.argumentTy name output
  | op => .error (.noConversion op.tag)

namespace Dataflow

def nodeToLower (g : Dataflow) (n : Nat) : Lowering Node :=
  liftResult ((g.node n).mapError .ofUnknownNode)

def lowerInput (g : Dataflow) (n : Nat) : Lowering Unit := do
  let node ← g.nodeToLower n
  let ty ← liftResult node.argumentTy
  let v ← Lowering.emit (Emission.argument ty)
  register n v

/-- Lowers a node that the walk visits, unless it has a value already, as inputs do. -/
def lowerVisited (g : Dataflow) (options : Options) (n : Nat) : Lowering Unit := do
  if (← get).registry.contains n then
    return
  let node ← g.nodeToLower n
  let v ← node.lower options (g.operands n)
  register n v

/-- Returns the values of the outputs, unless some node has no value. -/
def finish (g : Dataflow) : Lowering Unit := do
  -- The walk does not come to nodes on a cycle or behind one, so these have no value.
  if (← get).registry.size ≠ g.network.nodes.count then
    throw .cyclic
  let results ← g.outputs.mapM valueOf
  discard (Lowering.emit (Emission.ret results))

def lowerAll (g : Dataflow) (options : Options) : Lowering Unit := do
  g.inputs.forM g.lowerInput
  g.network.walk (g.lowerVisited options)
  g.finish

def lower (g : Dataflow) (options : Options) : Except LowerError Routine :=
  match g.lowerAll options ⟨.empty options.routineName, .empty⟩ with
  | .ok _ p => .ok p.routine
  | .error e _ => .error e

end Dataflow

end CipherFlow
