import CipherFlow.Dataflow.Basic
import CipherFlow.Proofs.Routine.Growth
import Mathlib

/-!
# Meaning of graphs and routines

What the nodes of a graph and the values of a routine stand for when the inputs of the program are
given: integers and vectors of integers. Encryption is left out. The result of an operation is
reduced, in a way that is left open, to the width of its type. Operations are partial: a lookup
gives nothing outside its table, and nothing is computed from nothing.
-/

set_option autoImplicit false

namespace CipherFlow

/-- What a value stands for. -/
inductive Datum
  | integer (x : Int)
  | vector (xs : List Int)
  deriving DecidableEq, Repr

/-- What becomes of a result at a width. The entries of tables have a reduction of their own, which
may be none at all. -/
structure Reduction where
  arithmetic : UInt32 → Int → Int
  entry : UInt32 → Int → Int

/-! ## Operations -/

/-- The sum of the products of two vectors of one length. -/
def dotProduct? (xs ys : List Int) : Option Int :=
  if xs.length = ys.length then some (List.zipWith (· * ·) xs ys).sum else none

theorem dotProduct?_comm (xs ys : List Int) : dotProduct? xs ys = dotProduct? ys xs := by
  unfold dotProduct?
  rw [List.zipWith_comm_of_comm Int.mul_comm]
  by_cases h : xs.length = ys.length
  · rw [if_pos h, if_pos h.symm]
  · rw [if_neg h, if_neg (Ne.symm h)]

/-- The entry of a vector at an integer, if it has one there. -/
def entry? (xs : List Int) (x : Int) : Option Int := if 0 ≤ x then xs[x.toNat]? else none

/-- The result of an operation of a graph on two values. -/
def NodeOp.compute : NodeOp → Datum → Datum → Option Int
  | .add, .integer x, .integer y => some (x + y)
  | .sub, .integer x, .integer y => some (x - y)
  | .mul, .integer x, .integer y => some (x * y)
  | .dot, .vector xs, .vector ys => dotProduct? xs ys
  | _, _, _ => none

/-- The result of a primitive. -/
def Primitive.compute : Primitive → Datum → Datum → Option Int
  | .addClear, .integer x, .integer y => some (x + y)
  | .add, .integer x, .integer y => some (x + y)
  | .subFromClear, .integer x, .integer y => some (x - y)
  | .mulClear, .integer x, .integer y => some (x * y)
  | .dotClear, .vector xs, .vector ys => dotProduct? xs ys
  | .lookup, .integer x, .vector entries => entry? entries x
  | _, _, _ => none

/-- The way the result of a primitive is reduced. -/
def Primitive.reduce (red : Reduction) : Primitive → UInt32 → Int → Int
  | .lookup => red.entry
  | _ => red.arithmetic

/-! ## Data -/

/-- What a payload stands for. -/
def Payload.datum : Payload → Datum
  | .scalar value => .integer value.toInt
  | .tensor values => .vector (values.map (·.toInt))

/-- What a literal stands for. -/
def Literal.datum : Literal → Datum
  | .integer _ word => .integer word.toNat
  | .dense _ words => .vector (words.map fun word => (word.toNat : Int))

/-- The entries of a table as integers. -/
def Table.values (table : Table) : List Int := table.entries.map fun word => (word.toNat : Int)

/-! ## Graphs -/

/-- What a node of a graph stands for, given the inputs of the program. -/
inductive Dataflow.Denotes (g : Dataflow) (red : Reduction) (args : List Datum) :
    Nat → Datum → Prop
  | input {n i : Nat} {x : Datum} (hinput : g.inputs[i]? = some n) (hx : args[i]? = some x) :
      Denotes g red args n x
  | constant {n : Nat} {payload : Payload} {inputs outputs : List Descriptor}
      (hnode : g.network.node? n = some ⟨.constant payload, inputs, outputs⟩) :
      Denotes g red args n payload.datum
  | operation {n a b : Nat} {op : NodeOp} {inputs outputs : List Descriptor} {output : Descriptor}
      {x y : Datum} {z : Int}
      (hnode : g.network.node? n = some ⟨op, inputs, output :: outputs⟩)
      (hops : g.operands n = [a, b]) (hx : Denotes g red args a x) (hy : Denotes g red args b y)
      (hz : op.compute x y = some z) :
      Denotes g red args n (.integer (red.arithmetic output.width z))
  | lookup {n a : Nat} {table : Table} {inputs outputs : List Descriptor} {output : Descriptor}
      {x z : Int} (hnode : g.network.node? n = some ⟨.lookup table, inputs, output :: outputs⟩)
      (hops : g.operands n = [a]) (hx : Denotes g red args a (.integer x))
      (hz : entry? table.values x = some z) :
      Denotes g red args n (.integer (red.entry output.width z))

section

variable {g : Dataflow} {red : Reduction} {args : List Datum} {n : Nat}
  {inputs outputs : List Descriptor}

theorem Dataflow.denotes_input_iff {name : String} {index : Nat}
    (hnode : g.network.node? n = some ⟨.input name index, inputs, outputs⟩) (x : Datum) :
    g.Denotes red args n x ↔ ∃ i : Nat, g.inputs[i]? = some n ∧ args[i]? = some x := by
  constructor
  · intro h
    cases h with
    | input hinput hx => exact ⟨_, hinput, hx⟩
    | constant h =>
        rw [hnode] at h
        cases h
    | operation h _ _ _ hz =>
        rw [hnode] at h
        cases h
        cases hz
    | lookup h =>
        rw [hnode] at h
        cases h
  · rintro ⟨i, hinput, hx⟩
    exact .input hinput hx

theorem Dataflow.denotes_constant_iff {payload : Payload} (hn : n ∉ g.inputs)
    (hnode : g.network.node? n = some ⟨.constant payload, inputs, outputs⟩) (x : Datum) :
    g.Denotes red args n x ↔ payload.datum = x := by
  constructor
  · intro h
    cases h with
    | input hinput => exact absurd (List.mem_of_getElem? hinput) hn
    | constant h =>
        rw [hnode] at h
        cases h
        rfl
    | operation h _ _ _ hz =>
        rw [hnode] at h
        cases h
        cases hz
    | lookup h =>
        rw [hnode] at h
        cases h
  · rintro rfl
    exact .constant hnode

theorem Dataflow.denotes_operation_iff {op : NodeOp} {a b : Nat} {output : Descriptor}
    (hn : n ∉ g.inputs) (hop : op = .add ∨ op = .sub ∨ op = .mul ∨ op = .dot)
    (hnode : g.network.node? n = some ⟨op, inputs, output :: outputs⟩)
    (hops : g.operands n = [a, b]) (x : Datum) :
    g.Denotes red args n x ↔ ∃ y, g.Denotes red args a y ∧ ∃ z, g.Denotes red args b z ∧
      ∃ w, op.compute y z = some w ∧ .integer (red.arithmetic output.width w) = x := by
  constructor
  · intro h
    cases h with
    | input hinput => exact absurd (List.mem_of_getElem? hinput) hn
    | constant h =>
        rw [hnode] at h
        cases h
        simp at hop
    | operation h hops' hy hz hw =>
        rw [hnode] at h
        rw [hops] at hops'
        cases h
        cases hops'
        exact ⟨_, hy, _, hz, _, hw, rfl⟩
    | lookup h =>
        rw [hnode] at h
        cases h
        simp at hop
  · rintro ⟨y, hy, z, hz, w, hw, rfl⟩
    exact .operation hnode hops hy hz hw

theorem Dataflow.denotes_lookup_iff {table : Table} {a : Nat} {output : Descriptor}
    (hn : n ∉ g.inputs)
    (hnode : g.network.node? n = some ⟨.lookup table, inputs, output :: outputs⟩)
    (hops : g.operands n = [a]) (x : Datum) :
    g.Denotes red args n x ↔ ∃ y, g.Denotes red args a (.integer y) ∧
      ∃ z, entry? table.values y = some z ∧ .integer (red.entry output.width z) = x := by
  constructor
  · intro h
    cases h with
    | input hinput => exact absurd (List.mem_of_getElem? hinput) hn
    | constant h =>
        rw [hnode] at h
        cases h
    | operation h _ _ _ hz =>
        rw [hnode] at h
        cases h
        cases hz
    | lookup h hops' hy hz =>
        rw [hnode] at h
        rw [hops] at hops'
        cases h
        cases hops'
        exact ⟨_, hy, _, hz, rfl⟩
  · rintro ⟨y, hy, z, hz, rfl⟩
    exact .lookup hnode hops hy hz

end

/-! ## Routines -/

/-- What the result of an instruction stands for, given what values stand for. -/
def Instruction.evaluate (red : Reduction) (args : List Datum) (datum? : Nat → Option Datum)
    (i : Instruction) : Option Datum :=
  match i.op, i.operands, i.result with
  | .argument position, _, _ => args[position]?
  | .constant literal, _, _ => some literal.datum
  | .primitive p, [left, right], some ty => do
      let x ← datum? left
      let y ← datum? right
      let z ← p.compute x y
      return .integer (p.reduce red ty.width z)
  | _, _, _ => none

/-- What the values of instructions stand for that are run in order. -/
def run (red : Reduction) (args : List Datum) (instructions : List Instruction) :
    List (Option Datum) :=
  instructions.foldl (fun data i => data ++ [i.evaluate red args fun v => data[v]?.join]) []

/-- What a value of a routine stands for after a run. -/
def Routine.datum? (r : Routine) (red : Reduction) (args : List Datum) (v : Nat) : Option Datum :=
  (run red args r.instructions.toList)[v]?.join

/-- Every instruction but the return gives something. -/
def Routine.Completes (r : Routine) (red : Reduction) (args : List Datum) : Prop :=
  ∀ v i, r.instruction? v = some i → i.op ≠ .ret → ∃ x, r.datum? red args v = some x

variable {red : Reduction} {args : List Datum}

theorem run_concat (instructions : List Instruction) (i : Instruction) :
    run red args (instructions ++ [i]) = run red args instructions
      ++ [i.evaluate red args fun v => (run red args instructions)[v]?.join] := by
  simp [run]

@[simp] theorem length_run (instructions : List Instruction) :
    (run red args instructions).length = instructions.length := by
  induction instructions using List.reverseRecOn with
  | nil => rfl
  | append_singleton instructions i ih => simp [run_concat, ih]

/-- What comes later does not change what came before. -/
theorem exists_run_append (red : Reduction) (args : List Datum)
    (instructions later : List Instruction) :
    ∃ data, run red args (instructions ++ later) = run red args instructions ++ data := by
  induction later using List.reverseRecOn with
  | nil => exact ⟨[], by simp⟩
  | append_singleton later i ih =>
      obtain ⟨data, hdata⟩ := ih
      rw [← List.append_assoc, run_concat, hdata, List.append_assoc]
      exact ⟨_, rfl⟩

theorem Instruction.evaluate_congr {datum? datum?' : Nat → Option Datum} {i : Instruction}
    (h : ∀ v ∈ i.operands, datum? v = datum?' v) :
    i.evaluate red args datum? = i.evaluate red args datum?' := by
  unfold evaluate
  split
  · rfl
  · rfl
  · next p left right ty _ hops _ =>
      rw [h left (by simp [hops]), h right (by simp [hops])]
  · rfl

/-- A value stands for what its instruction gives, if its operands are earlier values. -/
theorem Routine.datum?_eq {r : Routine} {v : Nat} {i : Instruction}
    (hi : r.instruction? v = some i) (hlt : ∀ a ∈ i.operands, a < v) :
    r.datum? red args v = i.evaluate red args (r.datum? red args) := by
  have hi : r.instructions.toList[v]? = some i := by
    rw [Array.getElem?_toList, getElem?_instructions, hi]
  obtain ⟨before, after, hsplit, hlength⟩ : ∃ before after,
      r.instructions.toList = before ++ [i] ++ after ∧ before.length = v := by
    obtain ⟨hv, rfl⟩ := List.getElem?_eq_some_iff.1 hi
    refine ⟨r.instructions.toList.take v, r.instructions.toList.drop (v + 1), ?_,
      List.length_take_of_le (Nat.le_of_lt hv)⟩
    rw [List.append_assoc, List.singleton_append, List.getElem_cons_drop, List.take_append_drop]
  -- The run up to the instruction does not depend on what comes behind it.
  obtain ⟨data, hdata⟩ := exists_run_append red args (before ++ [i]) after
  rw [← hsplit, run_concat, List.append_assoc] at hdata
  have hbefore : (run red args before).length = v := by rw [length_run, hlength]
  have heq (a : Nat) (ha : a < v) :
      r.datum? red args a = (run red args before)[a]?.join := by
    rw [datum?, hdata, List.getElem?_append_left (by omega)]
  calc r.datum? red args v
      = i.evaluate red args fun a => (run red args before)[a]?.join := by
        rw [datum?, hdata, List.getElem?_append_right (by omega), hbefore, Nat.sub_self]
        rfl
    _ = i.evaluate red args (r.datum? red args) :=
        Instruction.evaluate_congr fun a ha => (heq a (hlt a ha)).symm

end CipherFlow
