import CipherFlow.Proofs.Lowering.Numbering
import Mathlib

/-!
# Other indices for the nodes of a graph

Two graphs may have the same nodes under different indices (`Dataflow.Renumbers`); which links were
added when, and which indices are vacant, does not matter then. Main statement: such graphs are
lowered or refused alike, and their routines have the same instructions under different values
(`Dataflow.lower_respects_renumbering`).
-/

set_option autoImplicit false

namespace CipherFlow

/-- Two routines have the same instructions, but those of one under other values. -/
structure Routine.Renumbers (f f' : Routine) (ψ : Nat → Nat) : Prop where
  name_eq : f'.name = f.name
  bijOn : Set.BijOn ψ {v | v < f.size} {v | v < f'.size}
  /-- Of an instruction only the operands change, to their new values. -/
  instruction?_eq : ∀ v i, f.instruction? v = some i →
    f'.instruction? (ψ v) = some { i with operands := i.operands.map ψ }
  arguments_eq : f'.arguments = f.arguments.map ψ
  returned_eq : f'.returned = f.returned.map (List.map ψ)

namespace Dataflow

variable {g g' : Dataflow} {φ : Nat → Nat} {options : Options}

/-- An index in a list of inputs or outputs goes to the new index of its node; an index without a
node goes to such an index. -/
def Relists (g g' : Dataflow) (φ : Nat → Nat) (n n' : Nat) : Prop :=
  if g.network.hasNode n = true then n' = φ n else g'.network.hasNode n' = false

/-- Two graphs have the same nodes, but those of one under other indices. The operands of a node
are the same in order, and so are the inputs and the outputs. -/
structure Renumbers (g g' : Dataflow) (φ : Nat → Nat) : Prop where
  bijOn : Set.BijOn φ {n | g.network.hasNode n = true} {n | g'.network.hasNode n = true}
  node?_eq : ∀ n, g.network.hasNode n = true → g'.network.node? (φ n) = g.network.node? n
  operands_eq : ∀ n, g.network.hasNode n = true → g'.operands (φ n) = (g.operands n).map φ
  inputs : List.Forall₂ (g.Relists g' φ) g.inputs g'.inputs
  outputs : List.Forall₂ (g.Relists g' φ) g.outputs g'.outputs

theorem hasNode_of_mem_operands {n m : Nat} (h : m ∈ g.operands n) : g.network.hasNode m = true :=
  (Network.hasNode_of_leadsTo (mem_operands_iff.1 h)).1

/-- Where all listed indices have nodes, a list is mapped. -/
theorem eq_map_of_relists {nodes nodes' : List Nat} (h : List.Forall₂ (g.Relists g' φ) nodes nodes')
    (hall : ∀ n ∈ nodes, g.network.hasNode n = true) : nodes' = nodes.map φ := by
  induction h with
  | nil => rfl
  | cons hn _ ih =>
      rw [List.forall_mem_cons] at hall
      rw [Relists, if_pos hall.1] at hn
      rw [hn, ih hall.2, List.map_cons]

namespace Renumbers

/-! ## The way back -/

/-- The old index of each node. -/
noncomputable def back (g : Dataflow) (φ : Nat → Nat) : Nat → Nat :=
  Function.invFunOn φ {n | g.network.hasNode n = true}

theorem invOn (h : g.Renumbers g' φ) : Set.InvOn (back g φ) φ {n | g.network.hasNode n = true}
    {n | g'.network.hasNode n = true} :=
  h.bijOn.invOn_invFunOn

theorem relists_symm (h : g.Renumbers g' φ) {n n' : Nat} (hn : g.Relists g' φ n n') :
    g'.Relists g (back g φ) n' n := by
  unfold Relists at *
  cases hlive : g.network.hasNode n with
  | true =>
      rw [if_pos hlive] at hn
      have hnew : g'.network.hasNode (φ n) = true := h.bijOn.mapsTo hlive
      rw [hn, if_pos hnew]
      exact (h.invOn.1 hlive).symm
  | false =>
      rw [hlive, if_neg (by decide)] at hn
      rw [hn, if_neg (by decide)]

protected theorem symm (h : g.Renumbers g' φ) : g'.Renumbers g (back g φ) where
  bijOn := h.bijOn.symm h.invOn.symm
  node?_eq := by
    intro n' hn'
    obtain ⟨n, hn, rfl⟩ := h.bijOn.surjOn hn'
    rw [h.invOn.1 hn, h.node?_eq n hn]
  operands_eq := by
    intro n' hn'
    obtain ⟨n, hn, rfl⟩ := h.bijOn.surjOn hn'
    rw [h.invOn.1 hn, h.operands_eq n hn, List.map_map]
    have hback : ∀ m ∈ g.operands n, id m = (back g φ ∘ φ) m := fun m hm =>
      (h.invOn.1 (hasNode_of_mem_operands hm)).symm
    rw [← List.map_congr_left hback, List.map_id]
  inputs := h.inputs.flip.imp fun _ _ => h.relists_symm
  outputs := h.outputs.flip.imp fun _ _ => h.relists_symm

end Renumbers

end Dataflow

/-! ## Plans under other indices -/

namespace Plan

/-- The plan with other indices for its operands. -/
def map (φ : Nat → Nat) : Plan → Plan
  | constant literal => constant literal
  | primitive p width left right => primitive p width (φ left) (φ right)
  | lookup table width operand => lookup table width (φ operand)

theorem ty_map (φ : Nat → Nat) (plan : Plan) : (plan.map φ).ty = plan.ty := by
  cases plan <;> rfl

theorem typed_map (φ : Nat → Nat) (type? : Nat → Option Ty) (plan : Plan) :
    (plan.map φ).Typed type? ↔ plan.Typed (type? ∘ φ) := by
  cases plan <;> rfl

theorem draft_map (φ : Nat → Nat) (n : Nat) (plan : Plan) :
    (plan.map φ).draft (φ n) = (plan.draft n).map φ := by
  cases plan <;> rfl

end Plan

/-- What a node becomes does not depend on the indices of its operands. -/
theorem Node.plan_map {options : Options} {node : Node} {operands : List Nat} {plan : Plan}
    (φ : Nat → Nat) (h : node.plan options operands = .ok plan) :
    node.plan options (operands.map φ) = .ok (plan.map φ) := by
  cases Node.plan_eq_ok_iff.1 h with
  | constant hliteral => exact Node.plan_eq_ok_iff.2 (.constant hliteral)
  | @binary op left right output l r rule hleft hright houtput hrule =>
      have hplan : PlansTo options (.binary op left right output) [φ l, φ r]
          (.primitive rule.primitive output.width (rule.order.apply (φ l) (φ r)).1
            (rule.order.apply (φ l) (φ r)).2) := .binary hleft hright houtput hrule
      rw [Node.plan_eq_ok_iff, Plan.map]
      cases horder : rule.order <;> simpa [horder, Arrangement.apply] using hplan
  | lookup hinput houtput hcomplete =>
      exact Node.plan_eq_ok_iff.2 (.lookup hinput houtput hcomplete)

namespace Dataflow

variable {g g' : Dataflow} {φ : Nat → Nat} {options : Options}

namespace Renumbers

/-! ## Acceptance under other indices -/

theorem plan_eq (h : g.Renumbers g' φ) {n : Nat} {node : Node} {plan : Plan}
    (hn : g.network.hasNode n = true) (hplan : node.plan options (g.operands n) = .ok plan) :
    node.plan options (g'.operands (φ n)) = .ok (plan.map φ) := by
  rw [h.operands_eq n hn]
  exact Node.plan_map φ hplan

theorem mem_map_iff (h : g.Renumbers g' φ) {nodes : List Nat}
    (hall : ∀ n ∈ nodes, g.network.hasNode n = true) {n : Nat} (hn : g.network.hasNode n = true) :
    φ n ∈ nodes.map φ ↔ n ∈ nodes := by
  refine ⟨fun hmem => ?_, List.mem_map_of_mem⟩
  obtain ⟨m, hm, heq⟩ := List.mem_map.1 hmem
  exact h.bijOn.injOn (hall m hm) hn heq ▸ hm

theorem grounded (h : g.Renumbers g' φ) {n : Nat} (hgrounded : g.network.Grounded n)
    (hn : g.network.hasNode n = true) : g'.network.Grounded (φ n) := by
  induction hgrounded with
  | intro n _ ih =>
      refine Acc.intro _ fun m' hm' => ?_
      have hm' : m' ∈ (g.operands n).map φ := h.operands_eq n hn ▸ mem_operands_iff.2 hm'
      obtain ⟨m, hm, rfl⟩ := List.mem_map.1 hm'
      exact ih m (mem_operands_iff.1 hm) (hasNode_of_mem_operands hm)

section Accepted

variable (h : g.Renumbers g' φ) (hg : g.Accepted options)

include h hg

theorem inputs_eq : g'.inputs = g.inputs.map φ := eq_map_of_relists h.inputs hg.inputs_present

theorem outputs_eq : g'.outputs = g.outputs.map φ :=
  eq_map_of_relists h.outputs hg.outputs_present

theorem mem_inputs_iff {n : Nat} (hn : g.network.hasNode n = true) :
    φ n ∈ g'.inputs ↔ n ∈ g.inputs := by
  rw [h.inputs_eq hg]
  exact h.mem_map_iff hg.inputs_present hn

theorem valueTy?_eq {n : Nat} {t : Ty} (hn : g.network.hasNode n = true)
    (ht : g.valueTy? options n = some t) : g'.valueTy? options (φ n) = some t := by
  cases hg.accepts n hn with
  | input hinput hnode hty =>
      rw [valueTy?_of_mem_inputs hnode hinput hty] at ht
      rw [← h.node?_eq n hn] at hnode
      rw [valueTy?_of_mem_inputs hnode ((h.mem_inputs_iff hg hn).2 hinput) hty, ht]
  | plan hinput _ hnode hplan =>
      rw [valueTy?_of_plan hnode hinput hplan] at ht
      rw [← h.node?_eq n hn] at hnode
      rw [valueTy?_of_plan hnode (mt (h.mem_inputs_iff hg hn).1 hinput) (h.plan_eq hn hplan),
        Plan.ty_map, ht]

theorem accepts {n : Nat} (hn : g.network.hasNode n = true) : g'.Accepts options (φ n) := by
  cases hg.accepts n hn with
  | input hinput hnode hty =>
      rw [← h.node?_eq n hn] at hnode
      exact .input ((h.mem_inputs_iff hg hn).2 hinput) hnode hty
  | @plan node plan hinput hgrounded hnode hplan htyped =>
      rw [← h.node?_eq n hn] at hnode
      have htyped : (plan.map φ).Typed (g'.valueTy? options) := by
        refine (Plan.typed_map φ _ plan).2 (htyped.congr fun m hm t ht => ?_)
        exact h.valueTy?_eq hg (hasNode_of_mem_operands (Plan.operands_subset hplan hm)) ht
      exact .plan (mt (h.mem_inputs_iff hg hn).1 hinput) (h.grounded hgrounded hn) hnode
        (h.plan_eq hn hplan) htyped

/-- An accepted graph is accepted under other indices. -/
theorem accepted : g'.Accepted options where
  nodup_inputs := by
    rw [h.inputs_eq hg]
    refine hg.nodup_inputs.map_on fun n hn m hm => ?_
    exact h.bijOn.injOn (hg.inputs_present n hn) (hg.inputs_present m hm)
  inputs_present := by
    rw [h.inputs_eq hg, List.forall_mem_map]
    exact fun n hn => h.bijOn.mapsTo (hg.inputs_present n hn)
  outputs_present := by
    rw [h.outputs_eq hg, List.forall_mem_map]
    exact fun n hn => h.bijOn.mapsTo (hg.outputs_present n hn)
  accepts := by
    intro n' hn'
    obtain ⟨n, hn, rfl⟩ := h.bijOn.surjOn hn'
    exact h.accepts hg hn

/-! ## Demanded instructions under other indices -/

theorem demands {o : Origin} {d : Draft} (hd : g.Demands options o d) :
    g'.Demands options (o.map φ) (d.map φ) := by
  cases hd with
  | @argument i n node ty hinput hnode hty =>
      have hn : g.network.hasNode n = true := Pool.contains_iff.2 ⟨node, hnode⟩
      rw [← h.node?_eq n hn] at hnode
      have hinput : g'.inputs[i]? = some (φ n) := by
        rw [h.inputs_eq hg, List.getElem?_map, hinput, Option.map_some]
      exact .argument hinput hnode hty
  | @plan n node plan hinput hnode hplan =>
      have hn : g.network.hasNode n = true := Pool.contains_iff.2 ⟨node, hnode⟩
      rw [← h.node?_eq n hn] at hnode
      rw [← Plan.draft_map]
      exact .plan (mt (h.mem_inputs_iff hg hn).1 hinput) hnode (h.plan_eq hn hplan)
  | @table n operand node table width hinput hnode hplan =>
      have hn : g.network.hasNode n = true := Pool.contains_iff.2 ⟨node, hnode⟩
      rw [← h.node?_eq n hn] at hnode
      exact .table (mt (h.mem_inputs_iff hg hn).1 hinput) hnode (h.plan_eq hn hplan)
  | ret =>
      have hdraft : Draft.map φ ⟨.ret, g.outputs.map .node, none⟩
          = ⟨.ret, g'.outputs.map .node, none⟩ := by
        rw [h.outputs_eq hg, Draft.map, List.map_map, List.map_map]
        rfl
      rw [hdraft]
      exact .ret

theorem mapsTo_origins : Set.MapsTo (Origin.map φ) (g.origins options) (g'.origins options) := by
  rintro o ⟨d, hd⟩
  exact ⟨_, h.demands hg hd⟩

end Accepted

end Renumbers

theorem leftInvOn_origins {ψ : Nat → Nat}
    (h : Set.LeftInvOn ψ φ {n | g.network.hasNode n = true}) :
    Set.LeftInvOn (Origin.map ψ) (Origin.map φ) (g.origins options) := by
  rintro o ⟨d, hd⟩
  cases o with
  | node n => exact congrArg Origin.node (h hd.hasNode)
  | table n =>
      obtain ⟨node, hnode, -⟩ := hd.isLookup
      exact congrArg Origin.table (h (Pool.contains_iff.2 ⟨node, hnode⟩))
  | ret => rfl

theorem Renumbers.bijOn_origins (h : g.Renumbers g' φ) (hg : g.Accepted options) :
    Set.BijOn (Origin.map φ) (g.origins options) (g'.origins options) := by
  have hinv : Set.InvOn (Origin.map (Renumbers.back g φ)) (Origin.map φ) (g.origins options)
      (g'.origins options) := ⟨leftInvOn_origins h.invOn.1, leftInvOn_origins h.invOn.2⟩
  exact hinv.bijOn (h.mapsTo_origins hg) (h.symm.mapsTo_origins (h.accepted hg))

/-! ## Routines under other values -/

/-- Where each origin goes to its counterpart, the routine goes to that of the other graph. -/
theorem Renumbers.routine {f f' : Routine} {value value' : Origin → Nat} {ψ : Nat → Nat}
    (h : g.Renumbers g' φ) (hg : g.Accepted options) (hf : g.Numbering options f value)
    (hf' : g'.Numbering options f' value')
    (hψ : ∀ o ∈ g.origins options, ψ (value o) = value' (o.map φ)) : f.Renumbers f' ψ where
  name_eq := hf'.name_eq.trans hf.name_eq.symm
  bijOn := by
    -- The values of the one routine are those of the other, by way of the origins.
    have hcomp : Set.BijOn (ψ ∘ value) (g.origins options) {v | v < f'.size} :=
      (hf'.bijOn.comp (h.bijOn_origins hg)).congr fun o ho => (hψ o ho).symm
    rw [← hf.bijOn.image_eq]
    exact ⟨Set.mapsTo_image_iff.2 hcomp.mapsTo, hcomp.injOn.image_of_comp,
      hcomp.surjOn.of_comp (Set.mapsTo_image _ _)⟩
  instruction?_eq := by
    intro v i hi
    obtain ⟨o, ⟨d, hd⟩, rfl⟩ := hf.bijOn.surjOn (Routine.lt_size_of_instruction? hi)
    rw [hf.instruction?_eq o d hd] at hi
    obtain rfl := Option.some.inj hi
    rw [hψ o ⟨d, hd⟩, hf'.instruction?_eq _ _ (h.demands hg hd)]
    have hoperands : ((d.map φ).operands.map value') = (d.operands.map value).map ψ := by
      rw [Draft.map, List.map_map, List.map_map]
      exact List.map_congr_left fun m hm => (hψ m (hg.operands_subset_origins hd m hm)).symm
    rw [Draft.instruction, hoperands]
    rfl
  arguments_eq := by
    rw [hf.arguments_eq, hf'.arguments_eq, h.inputs_eq hg, List.map_map, List.map_map]
    refine List.map_congr_left fun n hn => ?_
    exact (hψ (.node n) (hg.node_mem_origins (hg.inputs_present n hn))).symm
  returned_eq := by
    rw [hf.returned_eq, hf'.returned_eq, h.outputs_eq hg, List.map_map, Option.map_some,
      List.map_map]
    refine congrArg some (List.map_congr_left fun n hn => ?_)
    exact (hψ (.node n) (hg.node_mem_origins (hg.outputs_present n hn))).symm

/-- Graphs that have the same nodes under different indices are lowered or refused alike, and their
routines have the same instructions under different values. -/
theorem lower_respects_renumbering (h : g.Renumbers g' φ) (options : Options) :
    ((∃ f, g.lower options = .ok f) ↔ ∃ f', g'.lower options = .ok f') ∧
      ∀ f f', g.lower options = .ok f → g'.lower options = .ok f' → ∃ ψ, f.Renumbers f' ψ := by
  constructor
  · rw [exists_lower_iff_accepted, exists_lower_iff_accepted]
    exact ⟨h.accepted, h.symm.accepted⟩
  · intro f f' hf hf'
    have hg := accepted_of_lower hf
    obtain ⟨value, hvalue⟩ := exists_numbering_of_lower hf
    obtain ⟨value', hvalue'⟩ := exists_numbering_of_lower hf'
    obtain ⟨origin, horigin⟩ : ∃ origin, Set.LeftInvOn origin value (g.origins options) :=
      ⟨_, hvalue.bijOn.invOn_invFunOn.1⟩
    -- A value goes to its origin, to the counterpart of that, and to the value of the counterpart.
    refine ⟨fun v => value' ((origin v).map φ), h.routine hg hvalue hvalue' fun o ho => ?_⟩
    rw [horigin ho]

/-! ## A small example -/

/-- Calls that look up the node `x` in a table, multiply the node `c` by it, and return both. -/
def twoResults (x c : Nat) : List Call :=
  [.lookup ⟨[7, 5, 3, 1], by decide⟩ x (.encryptedUnsigned 3),
    .operation .mul (by decide) [c, x] (.encryptedUnsigned 2), .output 2, .output 3]

/-- A program with its input before its constant. -/
def inputFirst : Dataflow :=
  ofCalls ([.input "x" (.encryptedUnsigned 2), .constant (.scalar 3) (.clearUnsigned 2)]
    ++ twoResults 0 1)

/-- The same program, in which the constant has the index of a node that was removed, and is visited
first. -/
def constantFirst : Dataflow :=
  let g := ofCalls [.constant (.scalar 9) (.clearUnsigned 4), .input "x" (.encryptedUnsigned 2)]
  (.constant (.scalar 3) (.clearUnsigned 2) :: twoResults 1 0).foldl call
    { g with network := g.network.removeNode 0 }

/-- Both graphs have the nodes `0` to `3`. -/
theorem hasNode_iff_lt_four {g : Dataflow} (hg : g = inputFirst ∨ g = constantFirst) {n : Nat} :
    g.network.hasNode n = true ↔ n < 4 := by
  constructor
  · intro hn
    obtain ⟨node, hnode⟩ := Pool.contains_iff.1 hn
    have hsize : g.network.nodes.slots.size = 4 := by rcases hg with rfl | rfl <;> decide
    exact hsize ▸ Pool.lt_size_of_get? hnode
  · intro hn
    rcases hg with rfl | rfl <;> interval_cases n <;> decide

theorem inputFirst_renumbers_constantFirst :
    inputFirst.Renumbers constantFirst (Equiv.swap 0 1) where
  bijOn := by
    refine (Equiv.swap 0 1).bijOn fun n => ?_
    have hswap : Equiv.swap 0 1 n < 4 ↔ n < 4 := by
      rw [Equiv.swap_apply_def]
      split_ifs <;> omega
    exact (hasNode_iff_lt_four (.inr rfl)).trans
      (hswap.trans (hasNode_iff_lt_four (.inl rfl)).symm)
  node?_eq := by
    intro n hn
    have hlt := (hasNode_iff_lt_four (.inl rfl)).1 hn
    interval_cases n <;> decide
  operands_eq := by
    intro n hn
    have hlt := (hasNode_iff_lt_four (.inl rfl)).1 hn
    interval_cases n <;> cbv
  inputs := .cons (by unfold Relists; decide) .nil
  outputs := .cons (by unfold Relists; decide) (.cons (by unfold Relists; decide) .nil)

theorem lower_constantFirst :
    inputFirst.Renumbers constantFirst (Equiv.swap 0 1) ∧
      ∃ f f' ψ, inputFirst.lower {} = .ok f ∧ constantFirst.lower {} = .ok f' ∧
        f.Renumbers f' ψ := by
  obtain ⟨hiff, hroutines⟩ := lower_respects_renumbering inputFirst_renumbers_constantFirst {}
  obtain ⟨f, hf⟩ : ∃ f, inputFirst.lower {} = .ok f := Except.exists_eq_ok (by cbv)
  obtain ⟨f', hf'⟩ := hiff.1 ⟨f, hf⟩
  obtain ⟨ψ, hψ⟩ := hroutines f f' hf hf'
  exact ⟨inputFirst_renumbers_constantFirst, f, f', ψ, hf, hf', hψ⟩

end Dataflow

end CipherFlow
