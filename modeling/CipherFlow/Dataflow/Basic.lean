import CipherFlow.Dataflow.Node
import CipherFlow.Network.Operands
import CipherFlow.Network.Walk

/-!
# Dataflow graphs

A dataflow graph is a network of nodes whose links carry operand positions, with the list of its
inputs and of its outputs. The operands of a node are read off its incoming links by position.
-/

set_option autoImplicit false

namespace CipherFlow

/-- The error of naming a node that is not there, or that gives no value. -/
structure UnknownNode where
  node : Nat
  deriving DecidableEq, Repr

/-- A program as a graph: the link from an operand to a node has the position of the operand. -/
structure Dataflow where
  network : Network Node Nat
  inputs : List Nat
  outputs : List Nat
  deriving DecidableEq

namespace Dataflow

def empty : Dataflow := ⟨.empty, [], []⟩

/-! ## Views -/

def node (g : Dataflow) (n : Nat) : Except UnknownNode Node :=
  match g.network.node? n with
  | some node => .ok node
  | none => .error ⟨n⟩

/-- The description of the first value that a node gives. -/
def firstOutput (g : Dataflow) (n : Nat) : Except UnknownNode Descriptor :=
  match (g.network.node? n).bind (·.outputs.head?) with
  | some d => .ok d
  | none => .error ⟨n⟩

def operands (g : Dataflow) (n : Nat) : List Nat := operandsAmong g.network.linkList n

/-! ## Building -/

/-- The graph with one more node, under the index `network.nodes.next`. -/
def addNode (g : Dataflow) (node : Node) : Dataflow := { g with network := g.network.addNode node }

/-- The graph with links from operands to a node, with positions from `position` on. -/
def linkOperands (g : Dataflow) (n : Nat) : List Nat → (position : Nat) → Dataflow
  | [], _ => g
  | operand :: rest, position =>
      linkOperands { g with network := g.network.addLink ⟨operand, n, position⟩ } n rest
        (position + 1)

end Dataflow

abbrev Build (α : Type) := EStateM UnknownNode Dataflow α

namespace Build

def input (name : String) (output : Descriptor) : Build Nat := fun g =>
  let n := g.network.nodes.next
  .ok n { g.addNode (.input name g.inputs.length output) with inputs := g.inputs ++ [n] }

def constant (payload : Payload) (output : Descriptor) : Build Nat := fun g =>
  .ok g.network.nodes.next (g.addNode (.constant payload output))

/-- Adds an operation on the first values that other nodes give. -/
def operation (op : NodeOp) (operands : List Nat) (output : Descriptor) : Build Nat := fun g =>
  match operands.mapM g.firstOutput with
  | .error e => .error e g
  | .ok inputs =>
      let n := g.network.nodes.next
      .ok n ((g.addNode ⟨op, inputs, [output]⟩).linkOperands n operands 0)

def lookup (table : Table) (operand : Nat) (output : Descriptor) : Build Nat :=
  operation (.lookup table) [operand] output

def output (n : Nat) : Build Unit := fun g =>
  if g.network.hasNode n then .ok () { g with outputs := g.outputs ++ [n] } else .error ⟨n⟩ g

end Build

end CipherFlow
