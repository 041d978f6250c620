import CipherFlow.Proofs.Lowering.Criterion
import Mathlib.Data.Set.Function

/-!
# Numbering the instructions of a program

A program determines the instructions of its routine but for the numbers of values. Here an
instruction is drafted with operands that are named by their origins: a node, the table of a lookup,
or the return (`Origin`). Main statement: the routine of a program holds exactly the instructions
that the program demands (`Dataflow.Demands`), each once, and in place of an origin its value
(`Dataflow.exists_numbering_of_lower`).
-/

set_option autoImplicit false

namespace CipherFlow

/-- What an instruction of a routine is there for. -/
inductive Origin
  /-- The value of a node. -/
  | node (n : Nat)
  /-- The table of the lookup that a node is. -/
  | table (n : Nat)
  /-- The return of the outputs. -/
  | ret
  deriving Inhabited

/-- The origin with another index for its node. -/
def Origin.map (φ : Nat → Nat) : Origin → Origin
  | node n => node (φ n)
  | table n => table (φ n)
  | ret => ret

/-- An instruction whose operands are origins. -/
structure Draft where
  op : Op
  operands : List Origin
  result : Option Ty

namespace Draft

/-- The draft with other indices for the nodes. -/
def map (φ : Nat → Nat) (d : Draft) : Draft := { d with operands := d.operands.map (·.map φ) }

/-- The instruction with values in place of origins. -/
def instruction (value : Origin → Nat) (d : Draft) : Instruction :=
  ⟨d.op, d.operands.map value, d.result⟩

/-- The constant that holds a literal. -/
def constant (literal : Literal) : Draft := ⟨.constant literal, [], some literal.ty⟩

end Draft

/-- The instruction that a plan adds for a node. -/
def Plan.draft (n : Nat) : Plan → Draft
  | constant literal => .constant literal
  | primitive p width left right =>
      ⟨.primitive p, [.node left, .node right], some (.encrypted width)⟩
  | lookup _ width operand =>
      ⟨.primitive .lookup, [.node operand, .table n], some (.encrypted width)⟩

/-- The value of an origin, where the return comes next. The table of a lookup stands just before
the lookup. -/
def Progress.number (p : Progress) : Origin → Nat
  | .node n => (p.registry.find? n).getD 0
  | .table n => (p.registry.find? n).getD 0 - 1
  | .ret => p.routine.size

namespace Dataflow

variable {g : Dataflow} {options : Options}

/-- The instructions that a program demands, with their origins. -/
inductive Demands (g : Dataflow) (options : Options) : Origin → Draft → Prop
  | argument {i n : Nat} {node : Node} {ty : Ty} (hinput : g.inputs[i]? = some n)
      (hnode : g.network.node? n = some node) (hty : node.argumentTy = .ok ty) :
      Demands g options (.node n) ⟨.argument i, [], some ty⟩
  | plan {n : Nat} {node : Node} {plan : Plan} (hn : n ∉ g.inputs)
      (hnode : g.network.node? n = some node)
      (hplan : node.plan options (g.operands n) = .ok plan) :
      Demands g options (.node n) (plan.draft n)
  | table {n operand : Nat} {node : Node} {table : Table} {width : UInt32} (hn : n ∉ g.inputs)
      (hnode : g.network.node? n = some node)
      (hplan : node.plan options (g.operands n) = .ok (.lookup table width operand)) :
      Demands g options (.table n) (.constant table.literal)
  | ret : Demands g options .ret ⟨.ret, g.outputs.map .node, none⟩

/-- The origins of the instructions that a program demands. -/
def origins (g : Dataflow) (options : Options) : Set Origin := {o | ∃ d, g.Demands options o d}

/-- The routine holds exactly the instructions that a program demands, at the values of their
origins. -/
structure Numbering (g : Dataflow) (options : Options) (f : Routine) (value : Origin → Nat) :
    Prop where
  name_eq : f.name = options.routineName
  bijOn : Set.BijOn value (g.origins options) {v | v < f.size}
  instruction?_eq : ∀ o d, g.Demands options o d →
    f.instruction? (value o) = some (d.instruction value)
  arguments_eq : f.arguments = g.inputs.map fun n => value (.node n)
  returned_eq : f.returned = some (g.outputs.map fun n => value (.node n))

/-! ## Origins of an accepted graph -/

theorem Demands.hasNode {n : Nat} {d : Draft} (h : g.Demands options (.node n) d) :
    g.network.hasNode n = true := by
  cases h with
  | argument _ hnode => exact Pool.contains_iff.2 ⟨_, hnode⟩
  | plan _ hnode => exact Pool.contains_iff.2 ⟨_, hnode⟩

theorem Demands.isLookup {n : Nat} {d : Draft} (h : g.Demands options (.table n) d) :
    g.IsLookup n := by
  cases h with
  | table _ hnode hplan =>
      generalize g.operands n = operands at hplan
      cases Node.plan_eq_ok_iff.1 hplan with
      | lookup => exact ⟨_, hnode, rfl⟩

theorem Accepted.node_mem_origins (h : g.Accepted options) {n : Nat}
    (hn : g.network.hasNode n = true) : .node n ∈ g.origins options := by
  cases h.accepts n hn with
  | input hinput hnode hty =>
      obtain ⟨i, hi⟩ := List.mem_iff_getElem?.1 hinput
      exact ⟨_, .argument hi hnode hty⟩
  | plan hinput _ hnode hplan => exact ⟨_, .plan hinput hnode hplan⟩

theorem Accepted.table_mem_origins (h : g.Accepted options) {n : Nat} (hn : g.IsLookup n) :
    .table n ∈ g.origins options := by
  obtain ⟨node, hnode, htag⟩ := hn
  cases h.accepts n (Pool.contains_iff.2 ⟨node, hnode⟩) with
  | input hinput hnode' hty =>
      obtain ⟨name, index, output, rest, hop, -⟩ := Node.argumentTy_eq_ok_iff.1 hty
      rw [hnode] at hnode'
      cases hnode'
      rw [Node.tag, hop] at htag
      cases htag
  | plan hinput _ hnode' hplan =>
      rw [hnode] at hnode'
      cases hnode'
      generalize hops : g.operands n = operands at hplan
      cases Node.plan_eq_ok_iff.1 hplan with
      | constant => cases htag
      | binary _ _ _ hrule =>
          rcases Rule.binary_of_find? hrule with rfl | rfl | rfl | rfl <;> cases htag
      | lookup => exact ⟨_, .table hinput hnode (hops ▸ hplan)⟩

/-- The operands of a demanded instruction are demanded too. -/
theorem Accepted.operands_subset_origins (h : g.Accepted options) {o : Origin} {d : Draft}
    (hd : g.Demands options o d) : ∀ m ∈ d.operands, m ∈ g.origins options := by
  cases hd with
  | argument => simp
  | table => simp [Draft.constant]
  | ret =>
      intro m hm
      obtain ⟨k, hk, rfl⟩ := List.mem_map.1 hm
      exact h.node_mem_origins (h.outputs_present k hk)
  | @plan n node plan hn hnode hplan =>
      have hoperand : ∀ k ∈ plan.operands, .node k ∈ g.origins options := by
        intro k hk
        have hlink := mem_operands_iff.1 (Plan.operands_subset hplan hk)
        exact h.node_mem_origins (Network.hasNode_of_leadsTo hlink).1
      intro m hm
      cases plan with
      | constant literal => cases hm
      | primitive p width left right =>
          have hm : m = .node left ∨ m = .node right := by simpa [Plan.draft] using hm
          rcases hm with rfl | rfl
          · exact hoperand left (by simp [Plan.operands])
          · exact hoperand right (by simp [Plan.operands])
      | lookup table width operand =>
          have hm : m = .node operand ∨ m = .table n := by simpa [Plan.draft] using hm
          rcases hm with rfl | rfl
          · exact hoperand operand (by simp [Plan.operands])
          · exact ⟨_, .table hn hnode hplan⟩

/-! ## Values of origins -/

/-- The origin has the value, once all nodes have values. -/
inductive OriginAt (g : Dataflow) (p : Progress) : Origin → Nat → Prop
  | node {n v : Nat} (hv : p.registry.find? n = some v) : OriginAt g p (.node n) v
  | table {n t : Nat} (hlookup : g.IsLookup n) (hv : p.registry.find? n = some (t + 1)) :
      OriginAt g p (.table n) t
  | ret : OriginAt g p .ret p.routine.size

theorem OriginAt.number_eq {p : Progress} {o : Origin} {v : Nat} (h : g.OriginAt p o v) :
    p.number o = v := by
  cases h with
  | node hv => rw [Progress.number, hv, Option.getD_some]
  | table _ hv => rw [Progress.number, hv, Option.getD_some, Nat.add_sub_cancel]
  | ret => rfl

/-- No two origins have the same value. -/
theorem Tracks.origin_unique {name : String} {inputs : List Nat} {p : Progress}
    (h : g.Tracks name inputs p) {o o' : Origin} {v : Nat} (ho : g.OriginAt p o v)
    (ho' : g.OriginAt p o' v) : o = o' := by
  have hlt {n w : Nat} (hw : p.registry.find? n = some w) : w < p.routine.size := h.lt_size hw
  cases ho with
  | node hv =>
      cases ho' with
      | node hv' => rw [h.injective _ _ _ hv hv']
      | table hlookup hv' => exact absurd hv (h.table_free _ _ hlookup hv' _)
      | ret => exact absurd (hlt hv) (Nat.lt_irrefl _)
  | table hlookup hv =>
      cases ho' with
      | node hv' => exact absurd hv' (h.table_free _ _ hlookup hv _)
      | table _ hv' => rw [h.injective _ _ _ hv hv']
      | ret => exact absurd (hlt hv) (by omega)
  | ret =>
      cases ho' with
      | node hv' => exact absurd (hlt hv') (Nat.lt_irrefl _)
      | table _ hv' => exact absurd (hlt hv') (by omega)
      | ret => rfl

/-- Every value belongs to an origin that the program demands. -/
theorem Accepted.exists_originAt (hg : g.Accepted options) {name : String} {inputs : List Nat}
    {p : Progress} (h : g.Tracks name inputs p) {v : Nat} (hv : v < p.routine.size + 1) :
    ∃ o ∈ g.origins options, g.OriginAt p o v := by
  rcases Nat.lt_or_ge v p.routine.size with hlt | hge
  · rcases h.covered v hlt with ⟨n, hn⟩ | ⟨n, hlookup, hn⟩
    · exact ⟨.node n, hg.node_mem_origins (h.image n v hn).hasNode, .node hn⟩
    · exact ⟨.table n, hg.table_mem_origins hlookup, .table hlookup hn⟩
  · obtain rfl : v = p.routine.size := by omega
    exact ⟨.ret, ⟨_, .ret⟩, .ret⟩

/-- The instruction of a node that is no input is the one that its plan drafts. -/
theorem ImageAt.instruction?_eq {p : Progress} {n v : Nat} {node : Node} {plan : Plan}
    (h : g.ImageAt p.routine p.registry.find? n v) (hv : p.registry.find? n = some v)
    (hn : n ∉ g.inputs) (hnode : g.network.node? n = some node)
    (hplan : node.plan options (g.operands n) = .ok plan) :
    p.routine.instruction? v = some ((plan.draft n).instruction p.number) := by
  cases h with
  | argument hinput => exact absurd (List.mem_of_getElem? hinput) hn
  | constant hnode' hops hliteral hinstr =>
      rw [hnode] at hnode'
      cases hnode'
      rw [hops] at hplan
      cases Node.plan_eq_ok_iff.1 hplan with
      | constant hpayload =>
          -- The values of a payload and its type determine the literal.
          have hsuits := (payloadLiteral_eq_ok_iff.1 hpayload).1
          rw [payloadLiteral_eq_ok_iff.2 ⟨hsuits, hliteral⟩] at hpayload
          cases hpayload
          exact hinstr
  | @primitive _ _ _ _ _ _ _ _ _ rule hnode' hops ha hb hrule hinstr =>
      rw [hnode] at hnode'
      cases hnode'
      rw [hops] at hplan
      cases Node.plan_eq_ok_iff.1 hplan with
      | binary _ _ _ hrule' =>
          rw [hrule] at hrule'
          cases hrule'
          rw [hinstr]
          cases horder : rule.order <;>
            simp [Plan.draft, Draft.instruction, Arrangement.apply, Progress.number, ha, hb]
  | lookup hnode' hops ha _ hinstr =>
      rw [hnode] at hnode'
      cases hnode'
      rw [hops] at hplan
      cases Node.plan_eq_ok_iff.1 hplan with
      | lookup =>
          rw [hinstr]
          simp [Plan.draft, Draft.instruction, Progress.number, ha, hv]

/-- Before the instruction of a lookup stands its table. -/
theorem ImageAt.table_eq {r : Routine} {value? : Nat → Option Nat} {n v operand : Nat}
    {node : Node} {table : Table} {width : UInt32} (h : g.ImageAt r value? n v)
    (hn : n ∉ g.inputs) (hnode : g.network.node? n = some node)
    (hplan : node.plan options (g.operands n) = .ok (.lookup table width operand)) :
    ∃ t, v = t + 1 ∧
      r.instruction? t = some ⟨.constant table.literal, [], some table.literal.ty⟩ := by
  cases h with
  | argument hinput => exact absurd (List.mem_of_getElem? hinput) hn
  | constant hnode' hops =>
      rw [hnode] at hnode'
      cases hnode'
      rw [hops] at hplan
      cases Node.plan_eq_ok_iff.1 hplan
  | primitive hnode' hops =>
      rw [hnode] at hnode'
      cases hnode'
      rw [hops] at hplan
      cases Node.plan_eq_ok_iff.1 hplan
  | lookup hnode' hops _ htable =>
      rw [hnode] at hnode'
      cases hnode'
      rw [hops] at hplan
      cases Node.plan_eq_ok_iff.1 hplan with
      | lookup => exact ⟨_, rfl, htable⟩

/-! ## The routine of a program -/

/-- Each demanded instruction stands at the value of its origin. -/
theorem Tracks.exists_instruction {name : String} {p : Progress} {results : List Nat}
    (h : g.Tracks name g.inputs p)
    (hall : ∀ n, g.network.hasNode n = true → ∃ v, p.registry.find? n = some v)
    (hresults : g.outputs.map (fun n => p.number (.node n)) = results) {o : Origin} {d : Draft}
    (hd : g.Demands options o d) :
    ∃ v, g.OriginAt p o v ∧
      (p.routine.addReturn results).instruction? v = some (d.instruction p.number) := by
  have hextended : p.routine.ExtendedBy (p.routine.addReturn results) :=
    p.routine.extendedBy_push _
  cases hd with
  | @argument i n node ty hinput hnode hty =>
      obtain ⟨hv, name, index, inputs, output, outputs, ty', hnode', hty', hinstr⟩ :=
        h.value_input i n hinput
      rw [hnode] at hnode'
      cases hnode'
      obtain rfl : ty' = ty := Except.ok.inj (hty'.symm.trans hty)
      exact ⟨i, .node hv, hextended _ _ hinstr⟩
  | @plan n node plan hn hnode hplan =>
      obtain ⟨v, hv⟩ := hall n (Pool.contains_iff.2 ⟨node, hnode⟩)
      have hinstr := (h.image n v hv).instruction?_eq hv hn hnode hplan
      exact ⟨v, .node hv, hextended _ _ hinstr⟩
  | @table n operand node table width hn hnode hplan =>
      obtain ⟨v, hv⟩ := hall n (Pool.contains_iff.2 ⟨node, hnode⟩)
      obtain ⟨t, rfl, htable⟩ := (h.image n v hv).table_eq hn hnode hplan
      exact ⟨t, .table (Demands.table hn hnode hplan).isLookup hv, hextended _ _ htable⟩
  | ret =>
      refine ⟨_, .ret, (Routine.instruction?_push_size _ _).trans ?_⟩
      rw [Draft.instruction, List.map_map, ← hresults]
      rfl

/-- The routine of a program is its demanded instructions, numbered in some way. -/
theorem exists_numbering_of_lower {f : Routine} (h : g.lower options = .ok f) :
    ∃ value, g.Numbering options f value := by
  have hg := accepted_of_lower h
  obtain ⟨p, results, htracks, hsize, hresults, rfl⟩ := exists_tracks_of_lower h
  have hall (n : Nat) (hn : g.network.hasNode n = true) : ∃ v, p.registry.find? n = some v :=
    Option.isSome_iff_exists.1 ((htracks.isSome_find?_iff hsize n).2 hn)
  have hgrown : (p.routine.addReturn results).size = p.routine.size + 1 := Routine.size_push _ _
  -- The number of an origin is its value, for outputs as for inputs.
  have houtputs : g.outputs.map (fun n => p.number (.node n)) = results := by
    rw [← List.forall₂_eq_eq_eq, List.forall₂_map_left_iff]
    exact hresults.imp fun _ _ hv => (OriginAt.node (g := g) hv).number_eq
  have hinputs : g.inputs.map (fun n => p.number (.node n)) = List.range g.inputs.length := by
    refine List.ext_getElem (by simp) fun i hi _ => ?_
    rw [List.length_map] at hi
    have hv := (htracks.value_input i _ (List.getElem?_eq_getElem hi)).1
    rw [List.getElem_map, List.getElem_range, (OriginAt.node (g := g) hv).number_eq]
  refine ⟨p.number, htracks.name_eq, ⟨?_, ?_, ?_⟩, ?_, ?_, ?_⟩
  -- The numbers are those of instructions, no two origins share one, and every instruction has one.
  · rintro o ⟨d, hd⟩
    obtain ⟨v, hv, hinstr⟩ := htracks.exists_instruction hall houtputs hd
    rw [hv.number_eq]
    exact Routine.lt_size_of_instruction? hinstr
  · rintro o ⟨d, hd⟩ o' ⟨d', hd'⟩ heq
    obtain ⟨v, hv, -⟩ := htracks.exists_instruction hall houtputs hd
    obtain ⟨v', hv', -⟩ := htracks.exists_instruction hall houtputs hd'
    rw [hv.number_eq, hv'.number_eq] at heq
    exact htracks.origin_unique hv (heq ▸ hv')
  · intro v hv
    obtain ⟨o, ho, hat⟩ := hg.exists_originAt htracks (hgrown ▸ hv)
    exact ⟨o, ho, hat.number_eq⟩
  · intro o d hd
    obtain ⟨v, hv, hinstr⟩ := htracks.exists_instruction hall houtputs hd
    rw [hv.number_eq]
    exact hinstr
  · exact htracks.arguments_eq.trans hinputs.symm
  · show some results = _
    rw [houtputs]

end Dataflow

end CipherFlow
