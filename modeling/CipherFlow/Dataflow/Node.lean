import CipherFlow.Dataflow.Descriptor
import CipherFlow.Dataflow.Payload
import CipherFlow.Dataflow.Table

/-!
# Nodes

A node of a dataflow graph names an operation and describes the values it takes and gives.
-/

set_option autoImplicit false

namespace CipherFlow

inductive NodeOp
  /-- The input of the program with a name, at a position among the inputs. -/
  | input (name : String) (index : Nat)
  | add
  | sub
  | mul
  | dot
  | constant (payload : Payload)
  | lookup (table : Table)
  deriving DecidableEq, Repr

inductive Tag
  | input
  | add
  | sub
  | mul
  | dot
  | constant
  | lookup
  deriving DecidableEq, Repr

namespace Tag

def spell : Tag → String
  | input => "input"
  | add => "addition"
  | sub => "subtraction"
  | mul => "multiplication"
  | dot => "dot"
  | constant => "constant"
  | lookup => "LUT"

/-- The name of a tag in the interchange format. -/
def name : Tag → String
  | input => "Input"
  | add => "Add"
  | sub => "Sub"
  | mul => "Mul"
  | dot => "Dot"
  | constant => "Constant"
  | lookup => "UnivariateFunction"

def all : List Tag := [input, add, sub, mul, dot, constant, lookup]

def ofName? (s : String) : Option Tag := all.find? fun t => t.name == s

theorem ofName?_name (t : Tag) : ofName? t.name = some t := by
  cases t <;> decide

instance : ToString Tag := ⟨spell⟩

end Tag

def NodeOp.tag : NodeOp → Tag
  | input _ _ => .input
  | add => .add
  | sub => .sub
  | mul => .mul
  | dot => .dot
  | constant _ => .constant
  | lookup _ => .lookup

/-- An operation with descriptors of the values it takes and gives. -/
structure Node where
  op : NodeOp
  inputs : List Descriptor
  outputs : List Descriptor
  deriving DecidableEq, Repr

namespace Node

def tag (n : Node) : Tag := n.op.tag

def input (name : String) (index : Nat) (output : Descriptor) : Node :=
  ⟨.input name index, [], [output]⟩

def constant (payload : Payload) (output : Descriptor) : Node := ⟨.constant payload, [], [output]⟩

def binary (op : NodeOp) (left right output : Descriptor) : Node := ⟨op, [left, right], [output]⟩

def lookup (table : Table) (input output : Descriptor) : Node := ⟨.lookup table, [input], [output]⟩

end Node

end CipherFlow
