import CipherFlow.Proofs.Dataflow.Calls
import CipherFlow.Proofs.Lowering.Plans
import CipherFlow.Proofs.Lowering.Steps
import Mathlib

/-!
# The image of a program

What the routine of a program contains: for each node one instruction, before which a lookup has its
table as a constant of its own, and at the end the return of the outputs. The invariant of a
lowering (`Dataflow.Tracks`) says this of the nodes that have a value; at the end it gives that the
routine is the image of the program (`Dataflow.IsImage`).
-/

set_option autoImplicit false

namespace CipherFlow

namespace Dataflow

variable {g : Dataflow}

/-- Whether a node is a function of one variable. -/
def IsLookup (g : Dataflow) (n : Nat) : Prop :=
  ∃ node, g.network.node? n = some node ∧ node.tag = .lookup

theorem isLookup_iff {n : Nat} {node : Node} (h : g.network.node? n = some node) :
    g.IsLookup n ↔ node.tag = .lookup := by
  simp [IsLookup, h]

/-- The instruction at a position is the argument for a node, which is an input of the program. -/
def ArgumentAt (g : Dataflow) (r : Routine) (n i : Nat) : Prop :=
  ∃ name index inputs output outputs ty,
    g.network.node? n = some ⟨.input name index, inputs, output :: outputs⟩ ∧
      argumentTy name output = .ok ty ∧ r.instruction? i = some ⟨.argument i, [], some ty⟩

theorem ArgumentAt.exists_node {r : Routine} {n i : Nat} (h : g.ArgumentAt r n i) :
    ∃ node, g.network.node? n = some node ∧ node.tag = .input := by
  obtain ⟨name, index, inputs, output, outputs, ty, hnode, -, -⟩ := h
  exact ⟨_, hnode, rfl⟩

theorem ArgumentAt.exists_instruction {r : Routine} {n i : Nat} (h : g.ArgumentAt r n i) :
    ∃ ty, r.instruction? i = some ⟨.argument i, [], some ty⟩ := by
  obtain ⟨name, index, inputs, output, outputs, ty, -, -, hinstr⟩ := h
  exact ⟨ty, hinstr⟩

theorem ArgumentAt.mono {r r' : Routine} {n i : Nat} (h : g.ArgumentAt r n i)
    (hr : r.ExtendedBy r') : g.ArgumentAt r' n i := by
  obtain ⟨name, index, inputs, output, outputs, ty, hnode, hty, hinstr⟩ := h
  exact ⟨name, index, inputs, output, outputs, ty, hnode, hty, hr _ _ hinstr⟩

/-- The instruction at a value is the one for a node, where the operands of the node have the given
values. -/
inductive ImageAt (g : Dataflow) (r : Routine) (value? : Nat → Option Nat) (n : Nat) : Nat → Prop
  | argument {i : Nat} (hinput : g.inputs[i]? = some n) (hargument : g.ArgumentAt r n i) :
      ImageAt g r value? n i
  | constant {payload : Payload} {output : Descriptor} {literal : Literal} {v : Nat}
      (hnode : g.network.node? n = some (.constant payload output)) (hops : g.operands n = [])
      (hliteral : payload.WrittenAs output literal)
      (hinstr : r.instruction? v = some ⟨.constant literal, [], some literal.ty⟩) :
      ImageAt g r value? n v
  | primitive {op : NodeOp} {left right output : Descriptor} {a b va vb v : Nat} {rule : Rule}
      (hnode : g.network.node? n = some (.binary op left right output))
      (hops : g.operands n = [a, b]) (ha : value? a = some va) (hb : value? b = some vb)
      (hrule : Rule.find? op.tag left.kind right.kind = some rule)
      (hinstr : r.instruction? v = some ⟨.primitive rule.primitive,
        [(rule.order.apply va vb).1, (rule.order.apply va vb).2],
        some (.encrypted output.width)⟩) :
      ImageAt g r value? n v
  | lookup {table : Table} {input output : Descriptor} {a va t : Nat}
      (hnode : g.network.node? n = some (.lookup table input output))
      (hops : g.operands n = [a]) (ha : value? a = some va)
      (htable : r.instruction? t = some ⟨.constant table.literal, [], some table.literal.ty⟩)
      (hinstr : r.instruction? (t + 1)
        = some ⟨.primitive .lookup, [va, t], some (.encrypted output.width)⟩) :
      ImageAt g r value? n (t + 1)

theorem ImageAt.mono {r r' : Routine} {value? value?' : Nat → Option Nat} {n v : Nat}
    (h : g.ImageAt r value? n v) (hr : r.ExtendedBy r')
    (hv : ∀ m w, value? m = some w → value?' m = some w) : g.ImageAt r' value?' n v := by
  cases h with
  | argument hinput hargument => exact .argument hinput (hargument.mono hr)
  | constant hnode hops hliteral hinstr => exact .constant hnode hops hliteral (hr _ _ hinstr)
  | primitive hnode hops ha hb hrule hinstr =>
      exact .primitive hnode hops (hv _ _ ha) (hv _ _ hb) hrule (hr _ _ hinstr)
  | lookup hnode hops ha htable hinstr =>
      exact .lookup hnode hops (hv _ _ ha) (hr _ _ htable) (hr _ _ hinstr)

theorem ImageAt.hasNode {r : Routine} {value? : Nat → Option Nat} {n v : Nat}
    (h : g.ImageAt r value? n v) : g.network.hasNode n = true := by
  cases h with
  | argument _ hargument =>
      obtain ⟨node, hnode, -⟩ := hargument.exists_node
      exact Pool.contains_iff.2 ⟨node, hnode⟩
  | constant hnode => exact Pool.contains_iff.2 ⟨_, hnode⟩
  | primitive hnode => exact Pool.contains_iff.2 ⟨_, hnode⟩
  | lookup hnode => exact Pool.contains_iff.2 ⟨_, hnode⟩

/-- An operand of the instruction of a node is the value of a node, or the table just before. -/
theorem ImageAt.operand {r : Routine} {value? : Nat → Option Nat} {n v t : Nat} {i : Instruction}
    (h : g.ImageAt r value? n v) (hi : r.instruction? v = some i) (ht : t ∈ i.operands) :
    (∃ m, value? m = some t) ∨ v = t + 1 := by
  cases h with
  | argument _ hargument =>
      obtain ⟨ty, hinstr⟩ := hargument.exists_instruction
      rw [hi] at hinstr
      cases hinstr
      cases ht
  | constant _ _ _ hinstr =>
      rw [hi] at hinstr
      cases hinstr
      cases ht
  | @primitive op left right output a b va vb v rule _ _ ha hb _ hinstr =>
      rw [hi] at hinstr
      cases hinstr
      refine Or.inl ?_
      -- In either order these are the values of the two operands of the node.
      have ht : t = va ∨ t = vb := by
        cases horder : rule.order <;> simpa [horder, Arrangement.apply, or_comm] using ht
      rcases ht with rfl | rfl
      · exact ⟨a, ha⟩
      · exact ⟨b, hb⟩
  | @lookup table input output a va t' _ _ ha _ hinstr =>
      rw [hi] at hinstr
      cases hinstr
      have ht : t = va ∨ t = t' := by simpa using ht
      rcases ht with rfl | rfl
      · exact Or.inl ⟨a, ha⟩
      · exact Or.inr rfl

/-- What stands before the value of a lookup is its table. -/
theorem ImageAt.exists_table {r : Routine} {value? : Nat → Option Nat} {n v : Nat}
    (h : g.ImageAt r value? n (v + 1)) (hlookup : g.IsLookup n) :
    ∃ table : Table,
      r.instruction? v = some ⟨.constant table.literal, [], some table.literal.ty⟩ := by
  obtain ⟨node, hn, htag⟩ := hlookup
  cases h with
  | argument _ hargument =>
      obtain ⟨input, hinput, htag'⟩ := hargument.exists_node
      rw [hn] at hinput
      cases hinput
      rw [htag] at htag'
      cases htag'
  | constant hnode =>
      rw [hn] at hnode
      cases hnode
      cases htag
  | primitive hnode _ _ _ hrule =>
      rw [hn] at hnode
      cases hnode
      rcases Rule.binary_of_find? hrule with rfl | rfl | rfl | rfl <;> cases htag
  | lookup _ _ _ htable => exact ⟨_, htable⟩

/-- The instruction of a node gives a value. -/
theorem ImageAt.exists_instruction {r : Routine} {value? : Nat → Option Nat} {n v : Nat}
    (h : g.ImageAt r value? n v) : ∃ i, r.instruction? v = some i ∧ i.op ≠ .ret := by
  cases h with
  | argument _ hargument =>
      obtain ⟨ty, hinstr⟩ := hargument.exists_instruction
      exact ⟨_, hinstr, by rintro ⟨⟩⟩
  | constant _ _ _ hinstr => exact ⟨_, hinstr, by rintro ⟨⟩⟩
  | primitive _ _ _ _ _ hinstr => exact ⟨_, hinstr, by rintro ⟨⟩⟩
  | lookup _ _ _ _ hinstr => exact ⟨_, hinstr, by rintro ⟨⟩⟩

theorem ImageAt.lt_size {r : Routine} {value? : Nat → Option Nat} {n v : Nat}
    (h : g.ImageAt r value? n v) : v < r.size := by
  obtain ⟨i, hi, -⟩ := h.exists_instruction
  exact Routine.lt_size_of_instruction? hi

/-! ## The invariant of a lowering -/

/-- What holds of the progress once some inputs are arguments: each node that has a value has its
image there, and nothing else is in the routine. -/
structure Tracks (g : Dataflow) (name : String) (inputs : List Nat) (p : Progress) : Prop where
  is_open : p.routine.returned = none
  name_eq : p.routine.name = name
  arguments_eq : p.routine.arguments = List.range inputs.length
  nodup : (p.registry.entries.map Prod.fst).Nodup
  value_input : ∀ i n, inputs[i]? = some n →
    p.registry.find? n = some i ∧ g.ArgumentAt p.routine n i
  image : ∀ n v, p.registry.find? n = some v → g.ImageAt p.routine p.registry.find? n v
  injective : ∀ m n v, p.registry.find? m = some v → p.registry.find? n = some v → m = n
  /-- The table of a lookup is the value of no node. -/
  table_free : ∀ n t, g.IsLookup n → p.registry.find? n = some (t + 1) →
    ∀ m, p.registry.find? m ≠ some t
  covered : ∀ v < p.routine.size, (∃ n, p.registry.find? n = some v) ∨
    ∃ n, g.IsLookup n ∧ p.registry.find? n = some (v + 1)
  ordered : p.routine.Ordered

theorem tracks_initialProgress (options : Options) :
    g.Tracks options.routineName [] (initialProgress options) where
  is_open := rfl
  name_eq := rfl
  arguments_eq := rfl
  nodup := List.nodup_nil
  value_input := by simp
  image := by
    intro n v h
    cases h
  injective := by
    intro m n v h
    cases h
  table_free := by
    intro n t _ h
    cases h
  covered := by
    intro v h
    cases h
  ordered := Routine.ordered_empty options.routineName

theorem Tracks.lt_size {name : String} {inputs : List Nat} {p : Progress}
    (h : g.Tracks name inputs p) {n v : Nat} (hv : p.registry.find? n = some v) :
    v < p.routine.size :=
  (h.image n v hv).lt_size

/-- One more node gets a value: the last of the instructions added, of which a lookup has two and
any other node one. -/
theorem Tracks.grow {name : String} {inputs inputs' : List Nat} {p : Progress} {n v : Nat}
    {r : Routine} (h : g.Tracks name inputs p) (hnew : p.registry.find? n = none)
    (hr : p.routine.ExtendedBy r) (hopen : r.returned = none) (hname : r.name = name)
    (hargs : r.arguments = List.range inputs'.length)
    (hinputs : ∀ i m, inputs'[i]? = some m →
      inputs[i]? = some m ∨ (m = n ∧ i = v ∧ g.ArgumentAt r n v))
    (hsize : r.size = v + 1)
    (hv : (v = p.routine.size ∧ ¬ g.IsLookup n) ∨ (v = p.routine.size + 1 ∧ g.IsLookup n))
    (himage : g.ImageAt r (p.registry.add n v).find? n v) (hordered : r.Ordered) :
    g.Tracks name inputs' ⟨r, p.registry.add n v⟩ := by
  have hkeep {m w : Nat} (hm : p.registry.find? m = some w) :
      (p.registry.add n v).find? m = some w := Registry.find?_add_of_eq_some v hnew hm
  have hle : p.routine.size ≤ v := by omega
  refine ⟨hopen, hname, hargs, ?_, ?_, ?_, ?_, ?_, ?_, hordered⟩
  · -- The node had no value, so it is not among the keys.
    refine List.nodup_cons.2 ⟨fun hmem => ?_, h.nodup⟩
    obtain ⟨entry, hentry, heq⟩ := List.mem_map.1 hmem
    have hlookup := List.lookup_eq_none_iff.1 hnew entry hentry
    simp [show entry.1 = n from heq] at hlookup
  · intro i m hm
    rcases hinputs i m hm with hm | ⟨rfl, rfl, hargument⟩
    · obtain ⟨hvalue, hargument⟩ := h.value_input i m hm
      exact ⟨hkeep hvalue, hargument.mono hr⟩
    · exact ⟨Registry.find?_add_self _ _ _, hargument⟩
  · intro m w hm
    rcases Registry.eq_or_find?_of_find?_add hm with ⟨rfl, rfl⟩ | hm
    · exact himage
    · exact (h.image m w hm).mono hr fun _ _ => hkeep
  · -- The new value lies behind every instruction there was, so no other node has it.
    intro m k w hm hk
    rcases Registry.eq_or_find?_of_find?_add hm with ⟨hm', hw⟩ | hm'
    · rcases Registry.eq_or_find?_of_find?_add hk with ⟨hk', -⟩ | hk'
      · rw [hm', hk']
      · have := h.lt_size hk'
        omega
    · rcases Registry.eq_or_find?_of_find?_add hk with ⟨-, hw⟩ | hk'
      · have := h.lt_size hm'
        omega
      · exact h.injective m k w hm' hk'
  · -- If the new node is a lookup, its table is as new as its value is.
    intro m t hlookup hm k hk
    rcases Registry.eq_or_find?_of_find?_add hm with ⟨rfl, ht⟩ | hm'
    · rcases Registry.eq_or_find?_of_find?_add hk with ⟨-, ht⟩ | hk'
      · omega
      · have := h.lt_size hk'
        rcases hv with ⟨-, hv⟩ | ⟨hv, -⟩
        · exact hv hlookup
        · omega
    · rcases Registry.eq_or_find?_of_find?_add hk with ⟨-, ht⟩ | hk'
      · have := h.lt_size hm'
        omega
      · exact h.table_free m t hlookup hm' k hk'
  · -- What was added is the value of the node and, if the node is a lookup, the table before it.
    intro w hw
    have hw : w < v + 1 := hsize ▸ hw
    rcases Nat.lt_or_ge w p.routine.size with hlt | hge
    · rcases h.covered w hlt with ⟨m, hm⟩ | ⟨m, hlookup, hm⟩
      · exact Or.inl ⟨m, hkeep hm⟩
      · exact Or.inr ⟨m, hlookup, hkeep hm⟩
    · by_cases hwv : w = v
      · exact Or.inl ⟨n, by rw [Registry.find?_add_self, hwv]⟩
      · rcases hv with ⟨hv, -⟩ | ⟨hv, hlookup⟩
        · omega
        · exact Or.inr ⟨n, hlookup, by rw [Registry.find?_add_self, show w + 1 = v by omega]⟩

theorem Tracks.lowerInput {name : String} {done rest : List Nat} {n : Nat} {p p' : Progress}
    {u : Unit} (h : g.Tracks name done p) (hsize : p.routine.size = done.length)
    (hinputs : g.inputs = done ++ n :: rest) (hstep : g.lowerInput n p = .ok u p') :
    g.Tracks name (done ++ [n]) p' ∧ p'.routine.size = (done ++ [n]).length := by
  obtain ⟨node, ty, hnode, hty, hopen, hnew, rfl⟩ := lowerInput_eq_ok_iff.1 hstep
  obtain ⟨op, ins, outs⟩ := node
  obtain ⟨inputName, index, output, outputs, rfl, rfl, hty⟩ := Node.argumentTy_eq_ok_iff.1 hty
  have hlength : p.routine.arguments.length = p.routine.size := by
    rw [h.arguments_eq, List.length_range, hsize]
  have hargument : g.ArgumentAt (addArgument n ty p).routine n p.routine.size := by
    refine ⟨inputName, index, ins, output, outputs, ty, hnode, hty, ?_⟩
    show (p.routine.push _).instruction? p.routine.size = _
    rw [Routine.instruction?_push_size, hlength]
  have hgrown : (addArgument n ty p).routine.size = p.routine.size + 1 := Routine.size_push _ _
  refine ⟨?_, by simp [hgrown, hsize]⟩
  refine h.grow hnew (p.routine.extendedBy_push _) hopen h.name_eq ?_ ?_ hgrown ?_ ?_
    (h.ordered.push (by simp))
  · show p.routine.arguments ++ [p.routine.size] = _
    rw [h.arguments_eq, hsize, List.length_append, List.length_singleton, List.range_succ]
  · -- An input is listed before, or it is the new one at the end.
    intro i m hm
    rw [List.getElem?_append] at hm
    split at hm
    · exact Or.inl hm
    · rw [List.getElem?_singleton] at hm
      split at hm
      · cases hm
        obtain rfl : i = p.routine.size := by omega
        exact Or.inr ⟨rfl, rfl, hargument⟩
      · cases hm
  · refine Or.inl ⟨rfl, ?_⟩
    rw [isLookup_iff hnode]
    rintro ⟨⟩
  · exact .argument (by simp [hinputs, hsize]) hargument

theorem Tracks.lowerVisited {name : String} {inputs : List Nat} {options : Options} {n : Nat}
    {p p' : Progress} {u : Unit} (h : g.Tracks name inputs p)
    (hstep : g.lowerVisited options n p = .ok u p') : g.Tracks name inputs p' := by
  cases hnew : p.registry.find? n with
  | some v =>
      rw [lowerVisited_of_find?_eq_some hnew] at hstep
      cases hstep
      exact h
  | none =>
      obtain ⟨node, v, p₁, hnode, hlower, rfl⟩ := (lowerVisited_eq_ok_iff hnew).1 hstep
      obtain ⟨plan, hplan, hemit⟩ := Node.lower_eq_ok_iff.1 hlower
      rw [Node.plan_eq_ok_iff] at hplan
      generalize hops : g.operands n = operands at hplan
      have hlookup := isLookup_iff hnode
      cases hplan with
      | constant hliteral =>
          obtain ⟨hopen, rfl, rfl⟩ := Lowering.emit_constant_eq_ok_iff.1 hemit
          obtain ⟨-, hwritten⟩ := payloadLiteral_eq_ok_iff.1 hliteral
          refine h.grow hnew (p.routine.extendedBy_push _) hopen h.name_eq h.arguments_eq
            (fun _ _ => Or.inl) (Routine.size_push _ _) (Or.inl ⟨rfl, ?_⟩) ?_
            (h.ordered.push (by simp))
          · rw [hlookup]
            rintro ⟨⟩
          · exact .constant hnode hops hwritten (Routine.instruction?_push_size _ _)
      | @binary op left right output a b rule _ _ _ hrule =>
          obtain ⟨first, second, hfirst, hsecond, hcheck, rfl, rfl⟩ :=
            Plan.emit_primitive_eq_ok_iff.1 hemit
          -- Only values that are there have types, so the operands are earlier values.
          obtain ⟨hopen, _, _, hleft, hright, -⟩ := Routine.types_of_checkPrimitive hcheck
          have hleft := Routine.lt_size_of_type?_eq_some hleft
          have hright := Routine.lt_size_of_type?_eq_some hright
          obtain ⟨va, vb, ha, hb, rfl, rfl⟩ := rule.order.exists_apply_eq
            (r := fun n v => p.registry.find? n = some v) hfirst hsecond
          refine h.grow hnew (p.routine.extendedBy_push _) hopen h.name_eq h.arguments_eq
            (fun _ _ => Or.inl) (Routine.size_push _ _) (Or.inl ⟨rfl, ?_⟩) ?_
            (h.ordered.push (by simp [hleft, hright]))
          · rw [hlookup]
            rcases Rule.binary_of_find? hrule with rfl | rfl | rfl | rfl <;> rintro ⟨⟩
          · exact .primitive hnode hops (Registry.find?_add_of_eq_some _ hnew ha)
              (Registry.find?_add_of_eq_some _ hnew hb) hrule (Routine.instruction?_push_size _ _)
      | @lookup table input output a =>
          obtain ⟨index, w, hindex, -, hopen, rfl, rfl⟩ := Plan.emit_lookup_eq_ok_iff.1 hemit
          have hlt := h.lt_size hindex
          have htable := Routine.instruction?_push_size p.routine
            ⟨.constant table.literal, [], some table.literal.ty⟩
          refine h.grow hnew (Plan.extendedBy_addLookup _ _ _ _) hopen h.name_eq h.arguments_eq
            (fun _ _ => Or.inl) (Plan.size_addLookup _ _ _ _) (Or.inr ⟨rfl, hlookup.2 rfl⟩) ?_
            ((h.ordered.push (by simp)).push (by simp; omega))
          refine .lookup hnode hops (Registry.find?_add_of_eq_some _ hnew hindex)
            (Routine.extendedBy_push _ _ _ _ htable) ?_
          rw [← Routine.size_push p.routine]
          exact Routine.instruction?_push_size _ _

/-! ## Whole programs -/

/-- Only nodes that are there have values. -/
theorem Tracks.keys_subset {name : String} {inputs : List Nat} {p : Progress}
    (h : g.Tracks name inputs p) :
    p.registry.entries.map Prod.fst ⊆ g.network.nodes.indices := by
  intro m hm
  rw [← Registry.isSome_find?_iff, Option.isSome_iff_exists] at hm
  obtain ⟨v, hv⟩ := hm
  exact Network.mem_indices_iff_hasNode.2 (h.image m v hv).hasNode

/-- At the end exactly the nodes that are there have values. -/
theorem Tracks.isSome_find?_iff {name : String} {inputs : List Nat} {p : Progress}
    (h : g.Tracks name inputs p) (hsize : p.registry.size = g.network.nodes.count) (n : Nat) :
    (p.registry.find? n).isSome = true ↔ g.network.hasNode n = true := by
  -- The keys are distinct nodes, and as many as there are nodes.
  have hperm : (p.registry.entries.map Prod.fst).Perm g.network.nodes.indices := by
    refine (h.nodup.subperm h.keys_subset).perm_of_length_le ?_
    rw [List.length_map]
    exact Nat.le_of_eq hsize.symm
  rw [Registry.isSome_find?_iff, hperm.mem_iff, Network.mem_indices_iff_hasNode]

/-- If every node has a value, there are as many values as nodes. -/
theorem Tracks.size_eq_count {name : String} {inputs : List Nat} {p : Progress}
    (h : g.Tracks name inputs p)
    (hall : ∀ n, g.network.hasNode n = true → ∃ v, p.registry.find? n = some v) :
    p.registry.size = g.network.nodes.count := by
  -- The keys are distinct, and they are the nodes: each list is contained in the other.
  have hsup : g.network.nodes.indices ⊆ p.registry.entries.map Prod.fst := by
    intro n hn
    obtain ⟨v, hv⟩ := hall n (Network.mem_indices_iff_hasNode.1 hn)
    exact Registry.isSome_find?_iff.1 (by rw [hv]; rfl)
  have hle := (h.nodup.subperm h.keys_subset).length_le
  have hge := (g.network.nodes.nodup_indices.subperm hsup).length_le
  rw [List.length_map] at hle hge
  exact Nat.le_antisymm hle hge

/-- As long as only inputs have values, these are the inputs so far. -/
theorem Tracks.mem_of_find? {name : String} {done : List Nat} {p : Progress} {n v : Nat}
    (h : g.Tracks name done p) (hsize : p.routine.size = done.length)
    (hn : p.registry.find? n = some v) : n ∈ done := by
  have hv : v < done.length := hsize ▸ h.lt_size hn
  have hm := (h.value_input v done[v] (List.getElem?_eq_getElem hv)).1
  rw [h.injective n _ v hn hm]
  exact List.getElem_mem hv

/-- After the first inputs the routine has their arguments and nothing else. -/
theorem tracks_of_inputs {options : Options} {before after : List Nat} {p : Progress} {u : Unit}
    (hsplit : g.inputs = before ++ after)
    (h : before.forM g.lowerInput (initialProgress options) = .ok u p) :
    g.Tracks options.routineName before p ∧ p.routine.size = before.length :=
  EStateM.forM_induction (motive := fun done p =>
      g.Tracks options.routineName done p ∧ p.routine.size = done.length) h
    ⟨tracks_initialProgress options, rfl⟩
    fun done n rest _ _ hbefore hp hstep =>
      hp.1.lowerInput hp.2
        (show g.inputs = done ++ n :: (rest ++ after) by simp [hsplit, hbefore]) hstep

theorem Tracks.lowerAllVisited {name : String} {options : Options} {nodes : List Nat}
    {p p' : Progress} {u : Unit} (h : g.Tracks name g.inputs p)
    (hwalk : nodes.forM (g.lowerVisited options) p = .ok u p') : g.Tracks name g.inputs p' :=
  EStateM.forM_induction (motive := fun _ p => g.Tracks name g.inputs p) hwalk h
    fun _ _ _ _ _ _ hp hstep => hp.lowerVisited hstep

theorem exists_tracks_of_lower {options : Options} {f : Routine} (h : g.lower options = .ok f) :
    ∃ p results, g.Tracks options.routineName g.inputs p ∧
      p.registry.size = g.network.nodes.count ∧
      List.Forall₂ (fun n v => p.registry.find? n = some v) g.outputs results ∧
      f = p.routine.addReturn results := by
  obtain ⟨p₁, p₂, results, hinputs, hwalk, hsize, hresults, -, rfl⟩ := lower_eq_ok_iff.1 h
  obtain ⟨hstart, -⟩ := tracks_of_inputs (List.append_nil _).symm hinputs
  exact ⟨p₂, results, hstart.lowerAllVisited hwalk, hsize, hresults, rfl⟩

/-- The routine has exactly the instructions of the nodes, the tables of the lookups, and the return
of the outputs. -/
structure IsImage (g : Dataflow) (name : String) (f : Routine) (value? : Nat → Option Nat) :
    Prop where
  name_eq : f.name = name
  arguments_eq : f.arguments = List.range g.inputs.length
  /-- Exactly the nodes that are there have values, -/
  isSome_iff : ∀ n, (value? n).isSome = true ↔ g.network.hasNode n = true
  /-- each its own. -/
  injective : ∀ m n v, value? m = some v → value? n = some v → m = n
  /-- The value of the input at a position is the argument at that position, -/
  value_input : ∀ i n, g.inputs[i]? = some n → value? n = some i ∧ g.ArgumentAt f n i
  /-- and the value of any other node is that of its instruction. -/
  image : ∀ n v, value? n = some v → g.ImageAt f value? n v
  /-- The table before a lookup is the value of no node, and an operand only there. -/
  table_private : ∀ n t, g.IsLookup n → value? n = some (t + 1) →
    (∀ m, value? m ≠ some t) ∧ ∀ v i, f.instruction? v = some i → t ∈ i.operands → v = t + 1
  /-- There are no other instructions before the last, -/
  covered : ∀ v, v + 1 < f.size →
    (∃ n, value? n = some v) ∨ ∃ n, g.IsLookup n ∧ value? n = some (v + 1)
  /-- which returns the values of the outputs. -/
  exists_return : ∃ results, List.Forall₂ (fun n v => value? n = some v) g.outputs results ∧
    f.returned = some results ∧ 0 < f.size ∧
      f.instruction? (f.size - 1) = some ⟨.ret, results, none⟩

theorem Tracks.operand_eq_of_table {name : String} {inputs : List Nat} {p : Progress}
    (h : g.Tracks name inputs p) {n t v : Nat} {i : Instruction} (hlookup : g.IsLookup n)
    (hn : p.registry.find? n = some (t + 1)) (hi : p.routine.instruction? v = some i)
    (ht : t ∈ i.operands) : v = t + 1 := by
  rcases h.covered v (Routine.lt_size_of_instruction? hi) with ⟨m, hm⟩ | ⟨m, hm, hv⟩
  · rcases (h.image m v hm).operand hi ht with ⟨k, hk⟩ | hv
    · exact absurd hk (h.table_free n t hlookup hn k)
    · exact hv
  · -- A table has no operands.
    obtain ⟨table, htable⟩ := (h.image m _ hv).exists_table hm
    rw [hi] at htable
    cases htable
    cases ht

/-- The routine of a program is its image. -/
theorem exists_isImage_of_lower {options : Options} {f : Routine} (h : g.lower options = .ok f) :
    ∃ value?, g.IsImage options.routineName f value? := by
  obtain ⟨p, results, hp, hsize, hresults, rfl⟩ := exists_tracks_of_lower h
  have hextended : p.routine.ExtendedBy (p.routine.addReturn results) :=
    p.routine.extendedBy_push _
  have hlast : (p.routine.addReturn results).size = p.routine.size + 1 := Routine.size_push _ _
  refine ⟨p.registry.find?, hp.name_eq, hp.arguments_eq, hp.isSome_find?_iff hsize, hp.injective,
    ?_, ?_, ?_, ?_, ?_⟩
  · intro i n hi
    obtain ⟨hvalue, hargument⟩ := hp.value_input i n hi
    exact ⟨hvalue, hargument.mono hextended⟩
  · intro n v hn
    exact (hp.image n v hn).mono hextended fun _ _ => id
  · intro n t hlookup hn
    refine ⟨hp.table_free n t hlookup hn, fun v i hi ht => ?_⟩
    rcases Routine.instruction?_push_eq_some hi with ⟨-, rfl⟩ | hi
    · -- The operands of the return are values of nodes.
      obtain ⟨m, -, hm⟩ := exists_mem_of_forall₂ hresults ht
      exact absurd hm (hp.table_free n t hlookup hn m)
    · exact hp.operand_eq_of_table hlookup hn hi ht
  · intro v hv
    exact hp.covered v (by omega)
  · refine ⟨results, hresults, rfl, by omega, ?_⟩
    rw [hlast, Nat.add_sub_cancel]
    exact Routine.instruction?_push_size _ _

theorem exists_lower_sample : ∃ f, sample.lower {} = .ok f := Except.exists_eq_ok (by cbv)

theorem exists_isImage_sample :
    ∃ f value?, sample.lower {} = .ok f ∧ sample.IsImage "main" f value? := by
  obtain ⟨f, hf⟩ := exists_lower_sample
  obtain ⟨value?, himage⟩ := exists_isImage_of_lower hf
  exact ⟨f, value?, hf, himage⟩

end Dataflow

end CipherFlow
