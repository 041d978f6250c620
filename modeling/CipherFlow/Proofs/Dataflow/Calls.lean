import CipherFlow.Proofs.Dataflow.Operands
import CipherFlow.Proofs.Network.Order
import CipherFlow.Proofs.Sequencing

/-!
# Graphs made by calls

A graph is made by any sequence of calls of the builders, of which those that fail change nothing.
Main statement: such a graph is well made (`Dataflow.wellMade_ofCalls`), that is, each node comes
after its operands, describes them as they describe themselves, and gives one value; and the inputs
that are listed are those that are there.
-/

set_option autoImplicit false

namespace CipherFlow

/-- A pool without vacancies grows. -/
theorem Pool.vacant_add_of_eq_nil {α : Type} {p : Pool α} (a : α) (h : p.vacant = []) :
    (p.add a).vacant = [] := by
  unfold add
  split
  · rfl
  · next hv =>
      rw [h] at hv
      cases hv

/-- A call of a builder. -/
inductive Call
  | input (name : String) (output : Descriptor)
  | constant (payload : Payload) (output : Descriptor)
  /-- Any operation but that of an input. -/
  | operation (op : NodeOp) (hop : op.tag ≠ .input) (operands : List Nat) (output : Descriptor)
  | lookup (table : Table) (operand : Nat) (output : Descriptor)
  | output (n : Nat)

/-- The graph after a step, which may have failed. -/
def Build.after {α : Type} (step : Build α) (g : Dataflow) : Dataflow :=
  match step g with
  | .ok _ g' => g'
  | .error _ g' => g'

/-- The graph after a call. -/
def Dataflow.call (g : Dataflow) : Call → Dataflow
  | .input name output => (Build.input name output).after g
  | .constant payload output => (Build.constant payload output).after g
  | .operation op _ operands output => (Build.operation op operands output).after g
  | .lookup table operand output => (Build.lookup table operand output).after g
  | .output n => (Build.output n).after g

namespace Dataflow

/-- The graph that calls make from nothing. -/
def ofCalls (calls : List Call) : Dataflow := calls.foldl call .empty

/-- What holds of every graph that calls make. -/
structure WellMade (g : Dataflow) : Prop where
  vacant_eq : g.network.nodes.vacant = []
  exists_output : ∀ n node, g.network.node? n = some node → ∃ output, node.outputs = [output]
  /-- The descriptors of the inputs of a node are those of its operands. -/
  inputs_agree : ∀ n node, g.network.node? n = some node →
    List.Forall₂ (fun m d => g.firstOutput m = .ok d) (g.operands n) node.inputs
  operands_lt : ∀ n, ∀ m ∈ g.operands n, m < n
  mem_inputs_iff : ∀ n, n ∈ g.inputs ↔ ∃ node, g.network.node? n = some node ∧ node.tag = .input
  nodup_inputs : g.inputs.Nodup
  outputs_present : ∀ n ∈ g.outputs, g.network.hasNode n = true

variable {g g' : Dataflow}

theorem firstOutput_eq_ok_iff {n : Nat} {d : Descriptor} :
    g.firstOutput n = .ok d ↔
      ∃ node, g.network.node? n = some node ∧ node.outputs.head? = some d := by
  rw [← Option.bind_eq_some_iff]
  unfold firstOutput
  split
  · next d' h =>
      rw [h, Except.ok.injEq, Option.some.injEq]
  · next h => simp [h]

theorem hasNode_of_firstOutput {n : Nat} {d : Descriptor} (h : g.firstOutput n = .ok d) :
    g.network.hasNode n = true := by
  obtain ⟨node, hnode, -⟩ := firstOutput_eq_ok_iff.1 h
  exact Pool.contains_iff.2 ⟨node, hnode⟩

theorem wellMade_empty : WellMade .empty := by
  have hnone (n : Nat) : Dataflow.empty.network.node? n = none := by
    simp [Dataflow.empty, Network.empty, Network.node?, Pool.get?, Pool.empty]
  refine ⟨rfl, ?_, ?_, ?_, ?_, List.nodup_nil, ?_⟩
  · intro n node h
    rw [hnone] at h
    cases h
  · intro n node h
    rw [hnone] at h
    cases h
  · intro n m hm
    rw [mem_operands_iff, Network.mem_predecessors] at hm
    obtain ⟨l, hl, -⟩ := hm
    cases hl
  · intro n
    simp only [hnone, reduceCtorEq, false_and, exists_false, iff_false]
    exact List.not_mem_nil
  · intro n hn
    cases hn

/-- One more node, which may be an input, after all others. -/
theorem WellMade.grow (h : g.WellMade) (node : Node) (operands : List Nat) {output : Descriptor}
    (hinputs : List.Forall₂ (fun m d => g.firstOutput m = .ok d) operands node.inputs)
    (houtput : node.outputs = [output])
    (hnodes : g'.network.nodes = g.network.nodes.add node)
    (hoperands : ∀ m, g'.operands m
      = if m = g.network.nodes.next then operands else g.operands m)
    (hlisted : g'.inputs
      = if node.tag = .input then g.inputs ++ [g.network.nodes.next] else g.inputs)
    (houtputs : g'.outputs = g.outputs) : g'.WellMade := by
  have hnode (m : Nat) : g'.network.node? m
      = if m = g.network.nodes.next then some node else g.network.node? m := by
    rw [Network.node?, hnodes, Pool.get?_add]
    rfl
  have hnext : g.network.node? g.network.nodes.next = none := g.network.nodes.get?_next
  have hkeep {m : Nat} {other : Node} (hm : g.network.node? m = some other) :
      g'.network.node? m = some other := by
    have hne : m ≠ g.network.nodes.next := by
      rintro rfl
      rw [hnext] at hm
      cases hm
    rw [hnode, if_neg hne, hm]
  have hfirst {m : Nat} {d : Descriptor} (hm : g.firstOutput m = .ok d) :
      g'.firstOutput m = .ok d := by
    obtain ⟨other, hother, hd⟩ := firstOutput_eq_ok_iff.1 hm
    exact firstOutput_eq_ok_iff.2 ⟨other, hkeep hother, hd⟩
  have hcases {m : Nat} {other : Node} (hm : g'.network.node? m = some other) :
      (m = g.network.nodes.next ∧ other = node) ∨
        (m ≠ g.network.nodes.next ∧ g.network.node? m = some other) := by
    rw [hnode] at hm
    split at hm
    · next heq =>
        cases hm
        exact Or.inl ⟨heq, rfl⟩
    · next hne => exact Or.inr ⟨hne, hm⟩
  refine ⟨?_, ?_, ?_, ?_, ?_, ?_, ?_⟩
  · rw [hnodes, Pool.vacant_add_of_eq_nil node h.vacant_eq]
  · intro m other hm
    rcases hcases hm with ⟨-, rfl⟩ | ⟨-, hm⟩
    · exact ⟨output, houtput⟩
    · exact h.exists_output m other hm
  · intro m other hm
    rw [hoperands]
    rcases hcases hm with ⟨rfl, rfl⟩ | ⟨hne, hm⟩
    · rw [if_pos rfl]
      exact hinputs.imp fun _ _ => hfirst
    · rw [if_neg hne]
      exact (h.inputs_agree m other hm).imp fun _ _ => hfirst
  · intro m k hk
    rw [hoperands] at hk
    split at hk
    · next heq =>
        -- Without vacancies the new node gets an index behind all that are in use.
        obtain ⟨d, -, hd⟩ := exists_mem_of_forall₂ hinputs.flip hk
        obtain ⟨a, ha⟩ := Pool.contains_iff.1 (hasNode_of_firstOutput hd)
        have hlt := Pool.lt_size_of_get? ha
        rw [heq, Pool.next, h.vacant_eq]
        exact hlt
    · exact h.operands_lt m k hk
  · intro m
    have hlast : m ∈ g'.inputs ↔
        m ∈ g.inputs ∨ (m = g.network.nodes.next ∧ node.tag = .input) := by
      rw [hlisted]
      split <;> simp_all
    rw [hlast, h.mem_inputs_iff]
    constructor
    · rintro (⟨other, hother, htag⟩ | ⟨rfl, htag⟩)
      · exact ⟨other, hkeep hother, htag⟩
      · exact ⟨node, by rw [hnode, if_pos rfl], htag⟩
    · rintro ⟨other, hother, htag⟩
      rcases hcases hother with ⟨rfl, rfl⟩ | ⟨-, hother⟩
      · exact Or.inr ⟨rfl, htag⟩
      · exact Or.inl ⟨other, hother, htag⟩
  · rw [hlisted]
    split
    · -- A listed input is a node, and the index of the new one was free.
      refine List.nodup_append.2 ⟨h.nodup_inputs, List.nodup_singleton _, ?_⟩
      rintro m hm k hk rfl
      obtain ⟨other, hother, -⟩ := (h.mem_inputs_iff m).1 hm
      rw [List.mem_singleton.1 hk, hnext] at hother
      cases hother
    · exact h.nodup_inputs
  · intro m hm
    rw [houtputs] at hm
    obtain ⟨other, hother⟩ := Pool.contains_iff.1 (h.outputs_present m hm)
    exact Pool.contains_iff.2 ⟨other, hkeep hother⟩

/-! ## Calls -/

/-- A new node with operands that have a first output. -/
theorem WellMade.addOperation (h : g.WellMade) (op : NodeOp) {inputs : List Descriptor}
    {operands : List Nat} {output : Descriptor} (hop : op.tag ≠ .input)
    (hinputs : List.Forall₂ (fun m d => g.firstOutput m = .ok d) operands inputs) :
    ((g.addNode ⟨op, inputs, [output]⟩).linkOperands g.network.nodes.next operands 0).WellMade := by
  have hn : (g.addNode ⟨op, inputs, [output]⟩).network.hasNode g.network.nodes.next = true := by
    simp [addNode, Network.addNode, Network.hasNode, Pool.contains_add]
  have hpresent : ∀ m ∈ operands,
      (g.addNode ⟨op, inputs, [output]⟩).network.hasNode m = true := by
    intro m hm
    obtain ⟨d, -, hd⟩ := exists_mem_of_forall₂ hinputs.flip hm
    have hm : g.network.nodes.contains m = true := hasNode_of_firstOutput hd
    simp [addNode, Network.addNode, Network.hasNode, Pool.contains_add, hm]
  obtain ⟨-, hnodes, hlisted, houtputs⟩ := linkOperands_spec 0 hn hpresent
  refine h.grow ⟨op, inputs, [output]⟩ operands hinputs rfl hnodes
    (operands_linkOperands hn hpresent g.network.target_ne_next) ?_ houtputs
  rw [hlisted]
  exact (if_neg hop).symm

theorem WellMade.addInput (h : g.WellMade) (name : String) (output : Descriptor) :
    { g.addNode (.input name g.inputs.length output) with
      inputs := g.inputs ++ [g.network.nodes.next] : Dataflow }.WellMade := by
  refine h.grow (.input name g.inputs.length output) [] .nil rfl rfl ?_ rfl rfl
  intro m
  split
  · next hm =>
      rw [hm]
      exact g.operands_next
  · rfl

theorem WellMade.addOutput (h : g.WellMade) {n : Nat} (hn : g.network.hasNode n = true) :
    { g with outputs := g.outputs ++ [n] : Dataflow }.WellMade where
  __ := h
  outputs_present := by
    intro m hm
    rcases List.mem_append.1 hm with hm | hm
    · exact h.outputs_present m hm
    · rw [List.mem_singleton.1 hm]
      exact hn

theorem WellMade.after_operation (h : g.WellMade) (op : NodeOp) (hop : op.tag ≠ .input)
    (operands : List Nat) (output : Descriptor) :
    ((Build.operation op operands output).after g).WellMade := by
  unfold Build.after Build.operation
  cases hinputs : operands.mapM g.firstOutput with
  | error e => exact h
  | ok inputs => exact h.addOperation op hop (Except.mapM_eq_ok_iff.1 hinputs)

theorem WellMade.after_output (h : g.WellMade) (n : Nat) :
    ((Build.output n).after g).WellMade := by
  unfold Build.after Build.output
  by_cases hn : g.network.hasNode n = true
  · rw [if_pos hn]
    exact h.addOutput hn
  · rw [if_neg hn]
    exact h

/-- A call keeps a graph well made. -/
theorem WellMade.call (h : g.WellMade) (c : Call) : (g.call c).WellMade := by
  cases c with
  | input name output => exact h.addInput name output
  | constant payload output => exact h.addOperation (.constant payload) (by rintro ⟨⟩) .nil
  | operation op hop operands output => exact h.after_operation op hop operands output
  | lookup table operand output =>
      exact h.after_operation (.lookup table) (by rintro ⟨⟩) [operand] output
  | output n => exact h.after_output n

theorem wellMade_ofCalls (calls : List Call) : (ofCalls calls).WellMade := by
  refine List.foldlRecOn calls call (motive := WellMade) wellMade_empty ?_
  intro g h c _
  exact h.call c

/-- Where each node comes after its operands, none is on a cycle or behind one. -/
theorem grounded_of_operands_lt (h : ∀ n, ∀ m ∈ g.operands n, m < n) (n : Nat) :
    g.network.Grounded n := by
  induction n using Nat.strongRecOn with
  | ind n ih => exact Acc.intro _ fun m hm => ih m (h n m (mem_operands_iff.2 hm))

theorem WellMade.grounded (h : g.WellMade) (n : Nat) : g.network.Grounded n :=
  grounded_of_operands_lt h.operands_lt n

/-! ## A small graph -/

/-- A program that looks up three less its input in a table, and returns the entry twice. -/
def sample : Dataflow := ofCalls
  [.input "x" (.encryptedUnsigned 2), .constant (.scalar 3) (.clearUnsigned 2),
    .operation .sub (by decide) [1, 0] (.encryptedUnsigned 2),
    .lookup ⟨[1, 3, 5, 7], by decide⟩ 2 (.encryptedUnsigned 3), .output 3, .output 3]

end Dataflow

end CipherFlow
