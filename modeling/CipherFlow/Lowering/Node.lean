import CipherFlow.Lowering.Plan
import CipherFlow.Lowering.Registry
import CipherFlow.Routine.Emit

/-!
# Lowering a node

A lowering works on a routine and the registry of the values in it. A node is lowered by carrying
out its plan: its operands are looked up, and one instruction is added, or two for a lookup, whose
table becomes a constant of its own first.
-/

set_option autoImplicit false

namespace CipherFlow

/-- How far a program is lowered. -/
structure Progress where
  routine : Routine
  registry : Registry
  deriving DecidableEq, Repr

abbrev Lowering (α : Type) := EStateM LowerError Progress α

namespace Lowering

/-- A result that does not depend on the progress. -/
def liftResult {α : Type} (x : Except LowerError α) : Lowering α := fun p =>
  match x with
  | .ok a => .ok a p
  | .error e => .error e p

def emit {α : Type} (x : Emission α) : Lowering α := fun p =>
  match x p.routine with
  | .ok a r => .ok a { p with routine := r }
  | .error e r => .error (.emit e) { p with routine := r }

def valueOf (n : Nat) : Lowering Nat := fun p => liftResult (p.registry.get n) p

def typeOf (v : Nat) : Lowering Ty := fun p =>
  liftResult ((p.routine.typeOf v).mapError .emit) p

def register (n v : Nat) : Lowering Unit := fun p =>
  match p.registry.insert n v with
  | .ok registry => .ok () { p with registry := registry }
  | .error e => .error e p

end Lowering

open Lowering

/-- Carries out a plan, and answers with the value of the node. The operand of a lookup is checked
before its table is added, so that a lookup that is refused adds nothing. -/
def Plan.emit : Plan → Lowering Nat
  | .constant literal => Lowering.emit (Emission.constant literal)
  | .primitive p width left right => do
      let l ← valueOf left
      let r ← valueOf right
      Lowering.emit (Emission.primitive p (.encrypted width) l r)
  | .lookup table width operand => do
      let index ← valueOf operand
      let indexTy ← typeOf index
      liftResult ((Routine.checkOperand .lookup 0 .encryptedInteger indexTy).mapError .emit)
      -- Whatever is refused from here on is refused before the table is added.
      let literal ← liftResult (tableLiteral table)
      let t ← Lowering.emit (Emission.constant literal)
      Lowering.emit (Emission.primitive .lookup (.encrypted width) index t)

def Node.lower (options : Options) (node : Node) (operands : List Nat) : Lowering Nat := do
  let plan ← liftResult (node.plan options operands)
  plan.emit

end CipherFlow
