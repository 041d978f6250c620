import CipherFlow.Lowering.Program

/-!
# Lowering nodes one by one

A session lowers nodes that belong to no graph. It numbers them itself, `0`, `1`, `2` and so on, and
a step that fails uses up no number.
-/

set_option autoImplicit false

namespace CipherFlow

/-- A lowering of nodes that are given one by one. -/
structure Session where
  progress : Progress
  options : Options
  next : Nat
  deriving DecidableEq, Repr

namespace Session

def start (options : Options) : Session :=
  ⟨⟨.empty options.routineName, .empty⟩, options, 0⟩

abbrev Step (α : Type) := EStateM LowerError Session α

def onProgress {α : Type} (x : Lowering α) : Step α := fun s =>
  match x s.progress with
  | .ok a p => .ok a { s with progress := p }
  | .error e p => .error e { s with progress := p }

def fresh : Step Nat := fun s => .ok s.next { s with next := s.next + 1 }

def argument (output : Descriptor) : Step Nat := do
  let ty ← onProgress (Lowering.liftResult (argumentTy "arg" output))
  let v ← onProgress (Lowering.emit (Emission.argument ty))
  let n ← fresh
  onProgress (Lowering.register n v)
  return n

/-- Lowers a node whose operands are given by their numbers, and answers with its number and its
value. -/
def lower (node : Node) (operands : List Nat) : Step (Nat × Nat) := do
  let v ← onProgress (node.lower (← get).options operands)
  let n ← fresh
  onProgress (Lowering.register n v)
  return (n, v)

def finish (nodes : List Nat) : Step Unit := do
  let values ← onProgress (nodes.mapM Lowering.valueOf)
  discard (onProgress (Lowering.emit (Emission.ret values)))

/-- The number of instructions that are no arguments. -/
def bodySize (s : Session) : Nat :=
  s.progress.routine.size - s.progress.routine.arguments.length

end Session

end CipherFlow
