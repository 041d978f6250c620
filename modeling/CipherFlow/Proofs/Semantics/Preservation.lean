import CipherFlow.Proofs.Lowering.Image
import CipherFlow.Proofs.Semantics.Meaning

/-!
# Lowering preserves meaning

A value of the routine stands for what its node stands for (`Dataflow.Tracks.datum?_iff_denotes`).
So the results of the routine stand for what the outputs of the program stand for, and the routine
comes to its end exactly if each node stands for something.
-/

set_option autoImplicit false

namespace CipherFlow

/-- The primitive of a rule on the rearranged operands computes the operation of the node. -/
theorem Rule.compute_eq {op : NodeOp} {k₁ k₂ : Kind} {rule : Rule}
    (h : Rule.find? op.tag k₁ k₂ = some rule) (x y : Datum) :
    rule.primitive.compute (rule.order.apply x y).1 (rule.order.apply x y).2 = op.compute x y := by
  -- The rules that swap the operands are those of commutative operations.
  rcases Rule.binary_of_find? h with rfl | rfl | rfl | rfl <;> cases k₁ <;> cases k₂ <;> cases h <;>
    cases x <;> cases y <;>
    simp [Arrangement.apply, Primitive.compute, NodeOp.compute, Int.add_comm, Int.mul_comm,
      dotProduct?_comm]

/-- The instruction of a rule gives the reduced result of the operation. -/
theorem Rule.evaluate_eq_some_iff {op : NodeOp} {k₁ k₂ : Kind} {rule : Rule} {red : Reduction}
    {args : List Datum} {datum? : Nat → Option Datum} {a b : Nat} {width : UInt32} {x : Datum}
    (h : Rule.find? op.tag k₁ k₂ = some rule) :
    (Instruction.mk (.primitive rule.primitive) [(rule.order.apply a b).1, (rule.order.apply a b).2]
        (some (.encrypted width))).evaluate red args datum? = some x ↔
      ∃ y, datum? a = some y ∧ ∃ z, datum? b = some z ∧ ∃ w, op.compute y z = some w ∧
        .integer (red.arithmetic width w) = x := by
  have hcompute := Rule.compute_eq h
  have hreduce : rule.primitive.reduce red = red.arithmetic := by
    rcases Rule.binary_of_find? h with rfl | rfl | rfl | rfl <;> cases k₁ <;> cases k₂ <;>
      cases h <;> rfl
  obtain ⟨p, order⟩ := rule
  simp only [Instruction.evaluate, Option.bind_eq_bind, Option.bind_eq_some_iff, Option.pure_def,
    Option.some.injEq, hreduce]
  -- The two operands are evaluated in the order of the instruction.
  cases order with
  | asGiven =>
      simp only [Arrangement.apply] at hcompute ⊢
      simp only [hcompute, Ty.width]
  | swapped =>
      simp only [Arrangement.apply] at hcompute ⊢
      simp only [hcompute, Ty.width]
      constructor
      · rintro ⟨z, hz, y, hy, h⟩
        exact ⟨y, hy, z, hz, h⟩
      · rintro ⟨y, hy, z, hz, h⟩
        exact ⟨z, hz, y, hy, h⟩

/-- The lookup in a table gives the reduced entry. -/
theorem Table.evaluate_eq_some_iff {table : Table} {red : Reduction} {args : List Datum}
    {datum? : Nat → Option Datum} {a t : Nat} {width : UInt32} {x : Datum}
    (ht : datum? t = some (.vector table.values)) :
    (Instruction.mk (.primitive .lookup) [a, t] (some (.encrypted width))).evaluate red args datum?
        = some x ↔
      ∃ y, datum? a = some (.integer y) ∧ ∃ z, entry? table.values y = some z ∧
        .integer (red.entry width z) = x := by
  simp only [Instruction.evaluate, Option.bind_eq_bind, Option.bind_eq_some_iff, Option.pure_def,
    Option.some.injEq, Primitive.reduce, Ty.width, ht, exists_eq_left']
  constructor
  · rintro ⟨y, hy, z, hz, hx⟩
    cases y with
    | integer y => exact ⟨y, hy, z, hz, hx⟩
    | vector ys => cases hz
  · rintro ⟨y, hy, z, hz, hx⟩
    exact ⟨_, hy, z, hz, hx⟩

theorem Payload.datum_eq_of_writtenAs {payload : Payload} {output : Descriptor} {l : Literal}
    (h : payload.WrittenAs output l) : l.datum = payload.datum := by
  cases h with
  | scalar _ hvalue => rw [Payload.datum, hvalue, Literal.datum]
  | tensor _ hvalues => rw [Payload.datum, hvalues, Literal.datum]

namespace Dataflow

variable {g : Dataflow} {red : Reduction} {args : List Datum}

/-- What is listed as an input has the operation of one. -/
theorem Tracks.not_mem_inputs {name : String} {p : Progress} (h : g.Tracks name g.inputs p)
    {n : Nat} {node : Node} (hnode : g.network.node? n = some node) (htag : node.tag ≠ .input) :
    n ∉ g.inputs := by
  intro hn
  obtain ⟨i, hi⟩ := List.mem_iff_getElem?.1 hn
  obtain ⟨-, hargument⟩ := h.value_input i n hi
  obtain ⟨input, hinput, htag'⟩ := hargument.exists_node
  rw [hnode] at hinput
  cases hinput
  exact htag htag'

/-- A value of the routine stands for what its node stands for. The induction is on the value, as
the operands of an instruction are earlier values. -/
theorem Tracks.datum?_iff_denotes {name : String} {p : Progress} {r : Routine}
    (h : g.Tracks name g.inputs p) (hr : p.routine.ExtendedBy r) {n v : Nat}
    (hn : p.registry.find? n = some v) (x : Datum) :
    r.datum? red args v = some x ↔ g.Denotes red args n x := by
  induction v using Nat.strongRecOn generalizing n x with
  | ind v ih =>
      have hdatum {u : Nat} {i : Instruction} (hi : p.routine.instruction? u = some i) :
          r.datum? red args u = i.evaluate red args (r.datum? red args) :=
        Routine.datum?_eq (hr u i hi) (h.ordered u i hi)
      cases h.image n v hn with
      | argument hinput hargument =>
          obtain ⟨inputName, index, inputs, output, outputs, ty, hnode, -, hinstr⟩ := hargument
          rw [denotes_input_iff hnode, hdatum hinstr]
          constructor
          · intro hx
            exact ⟨v, hinput, hx⟩
          -- Listed at another position, the node would have two values.
          · rintro ⟨i, hi, hx⟩
            have hv := (h.value_input i n hi).1
            rw [hn] at hv
            cases hv
            exact hx
      | constant hnode hops hliteral hinstr =>
          have hni := h.not_mem_inputs hnode (by rintro ⟨⟩)
          rw [denotes_constant_iff hni hnode, hdatum hinstr,
            ← Payload.datum_eq_of_writtenAs hliteral]
          exact Option.some_inj
      | @primitive op left right output a b va vb v rule hnode hops ha hb hrule hinstr =>
          have hop := Rule.binary_of_find? hrule
          have hni := h.not_mem_inputs hnode
            (by rcases hop with rfl | rfl | rfl | rfl <;> rintro ⟨⟩)
          have hlt := h.ordered v _ hinstr
          -- Both operands are earlier values, whichever of them the instruction takes first.
          have hlt : va < v ∧ vb < v := by
            cases horder : rule.order <;> simpa [horder, Arrangement.apply, and_comm] using hlt
          rw [denotes_operation_iff hni hop hnode hops, hdatum hinstr,
            Rule.evaluate_eq_some_iff hrule]
          simp only [ih va hlt.1 ha, ih vb hlt.2 hb]
      | @lookup table input output a va t hnode hops ha htable hinstr =>
          have hni := h.not_mem_inputs hnode (by rintro ⟨⟩)
          have hlt : va < t + 1 := (h.ordered _ _ hinstr) va (by simp)
          have ht : r.datum? red args t = some (.vector table.values) := hdatum htable
          rw [denotes_lookup_iff hni hnode hops, hdatum hinstr, Table.evaluate_eq_some_iff ht]
          simp only [ih va hlt ha]

/-- The routine gives something everywhere exactly if each node stands for something. -/
theorem Tracks.completes_iff {name : String} {p : Progress} {values : List Nat}
    (h : g.Tracks name g.inputs p) (hsize : p.registry.size = g.network.nodes.count) :
    (p.routine.addReturn values).Completes red args ↔
      ∀ n, g.network.hasNode n = true → ∃ x, g.Denotes red args n x := by
  have hextended : p.routine.ExtendedBy (p.routine.addReturn values) :=
    p.routine.extendedBy_push _
  constructor
  · intro hcompletes n hn
    obtain ⟨v, hv⟩ := Option.isSome_iff_exists.1 ((h.isSome_find?_iff hsize n).2 hn)
    obtain ⟨i, hi, hret⟩ := (h.image n v hv).exists_instruction
    obtain ⟨x, hx⟩ := hcompletes v i (hextended v i hi) hret
    exact ⟨x, (h.datum?_iff_denotes hextended hv x).1 hx⟩
  · -- Each instruction is that of a node, or the table of a lookup, which stands for its entries.
    intro hdenotes v i hi hret
    rcases Routine.instruction?_push_eq_some hi with ⟨-, rfl⟩ | hi
    · exact absurd rfl hret
    · rcases h.covered v (Routine.lt_size_of_instruction? hi) with ⟨n, hn⟩ | ⟨n, hlookup, hn⟩
      · obtain ⟨x, hx⟩ := hdenotes n (h.image n v hn).hasNode
        exact ⟨x, (h.datum?_iff_denotes hextended hn x).2 hx⟩
      · obtain ⟨table, htable⟩ := (h.image n _ hn).exists_table hlookup
        rw [Routine.datum?_eq (hextended v _ htable) (by simp)]
        exact ⟨_, rfl⟩

/-- Lowering preserves meaning: the results of the routine stand for what the outputs of the program
stand for, in their order, and the routine gives something everywhere exactly if each node stands
for something. -/
theorem lower_preserves_meaning {options : Options} {f : Routine}
    (h : g.lower options = .ok f) (red : Reduction) (args : List Datum) :
    List.Forall₂ (fun n v => ∀ x, f.datum? red args v = some x ↔ g.Denotes red args n x)
        g.outputs f.results ∧
      (f.Completes red args ↔
        ∀ n, g.network.hasNode n = true → ∃ x, g.Denotes red args n x) := by
  obtain ⟨p, results, hp, hsize, hresults, rfl⟩ := exists_tracks_of_lower h
  refine ⟨?_, hp.completes_iff hsize⟩
  exact hresults.imp fun n v hv => hp.datum?_iff_denotes (p.routine.extendedBy_push _) hv

theorem lower_preserves_meaning_sample :
    ∃ f, sample.lower {} = .ok f ∧ ∀ red args,
      List.Forall₂ (fun n v => ∀ x, f.datum? red args v = some x ↔ sample.Denotes red args n x)
          [3, 3] f.results ∧
        (f.Completes red args ↔
          ∀ n, sample.network.hasNode n = true → ∃ x, sample.Denotes red args n x) := by
  obtain ⟨f, hf⟩ := exists_lower_sample
  exact ⟨f, hf, lower_preserves_meaning hf⟩

end Dataflow

end CipherFlow
