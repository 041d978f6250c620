import CipherFlow.Proofs.Dataflow.Calls

/-!
# Exchanged operands

Some calls of the builders may be made with their two operands exchanged: those for a sum, a product
or a dot product of an encrypted and a clear value (`Dataflow.Exchanges`). Here calls may also make
nodes that are inputs but are not listed as such (`AnyCall`); what a call does to a graph is said
once (`Dataflow.CallEffect`). Main statement: the two graphs have the same nodes except that the
operands of some nodes are exchanged, and are walked alike (`Dataflow.Exchanges.mirrors`).
-/

set_option autoImplicit false

namespace CipherFlow

/-! ## Pools with the same vacancies -/

namespace Pool

variable {α : Type}

theorem vacant_add (p : Pool α) (a : α) : (p.add a).vacant = p.vacant.tail := by
  unfold add
  split
  · next hv => simp [hv]
  · next hv => simp [hv]

theorem size_add (p : Pool α) (a : α) :
    (p.add a).slots.size = p.slots.size + if p.vacant = [] then 1 else 0 := by
  unfold add
  split
  · next hv => simp [hv]
  · next hv => simp [hv]

end Pool

theorem Network.node?_eq_none_iff {ν ω : Type} {g : Network ν ω} {n : Nat} :
    g.node? n = none ↔ g.hasNode n = false := by
  rw [Network.hasNode, Pool.contains, Network.node?]
  cases g.nodes.get? n <;> simp

/-! ## Nodes with exchanged operands -/

/-- The operation does not depend on the order of its two operands. -/
def NodeOp.Commutes (op : NodeOp) : Prop := op = .add ∨ op = .mul ∨ op = .dot

/-- Two nodes with their operands are the same, but the operands may be exchanged if one is
encrypted and the other is clear. -/
inductive Node.Mirrors : Node → List Nat → Node → List Nat → Prop
  | same {node : Node} {operands : List Nat} : Mirrors node operands node operands
  | exchanged {op : NodeOp} {left right output : Descriptor} {a b : Nat} (hop : op.Commutes)
      (hmixed : left.isEncrypted ≠ right.isEncrypted) :
      Mirrors (.binary op left right output) [a, b] (.binary op right left output) [b, a]

namespace Node.Mirrors

variable {node node' : Node} {operands operands' : List Nat}

theorem op_eq (h : node.Mirrors operands node' operands') : node.op = node'.op := by
  cases h <;> rfl

theorem outputs_eq (h : node.Mirrors operands node' operands') : node.outputs = node'.outputs := by
  cases h <;> rfl

theorem perm (h : node.Mirrors operands node' operands') : operands.Perm operands' := by
  cases h with
  | same => exact .refl _
  | exchanged => exact .swap _ _ _

end Node.Mirrors

namespace Dataflow

variable {g g' g₁ g₁' : Dataflow}

/-- Two graphs have the same nodes, except that the operands of some are exchanged. -/
structure Mirrors (g g' : Dataflow) : Prop where
  shape : g.network.SameShape g'.network
  vacant_eq : g.network.nodes.vacant = g'.network.nodes.vacant
  node : ∀ n node, g.network.node? n = some node →
    ∃ node', g'.network.node? n = some node' ∧ node.Mirrors (g.operands n) node' (g'.operands n)
  inputs_eq : g.inputs = g'.inputs
  outputs_eq : g.outputs = g'.outputs

theorem mirrors_empty : Mirrors .empty .empty where
  shape := ⟨rfl, fun _ => rfl, fun _ => rfl⟩
  vacant_eq := rfl
  node := fun _ node h => ⟨node, h, .same⟩
  inputs_eq := rfl
  outputs_eq := rfl

theorem Mirrors.node?_eq_none (h : g.Mirrors g') {n : Nat} (hn : g.network.node? n = none) :
    g'.network.node? n = none := by
  rw [Network.node?_eq_none_iff] at hn ⊢
  rw [← h.shape.hasNode_eq, hn]

theorem Mirrors.next_eq (h : g.Mirrors g') : g.network.nodes.next = g'.network.nodes.next := by
  rw [Pool.next, Pool.next, h.vacant_eq, h.shape.size_eq]

theorem Mirrors.firstOutput_eq (h : g.Mirrors g') (n : Nat) :
    g.firstOutput n = g'.firstOutput n := by
  unfold firstOutput
  cases hn : g.network.node? n with
  | none => rw [h.node?_eq_none hn]
  | some node =>
      obtain ⟨node', hn', hmirrors⟩ := h.node n node hn
      rw [hn', Option.bind_some, Option.bind_some, hmirrors.outputs_eq]

/-! ## One more node -/

/-- A graph has one more node than another, with links from operands. -/
structure GrowsTo (g g₁ : Dataflow) (node : Node) (operands : List Nat) : Prop where
  nodes_eq : g₁.network.nodes = g.network.nodes.add node
  operands_eq : ∀ m, g₁.operands m = if m = g.network.nodes.next then operands else g.operands m
  successors_eq : ∀ m, g₁.network.successors m
    = List.replicate (operands.count m) g.network.nodes.next ++ g.network.successors m

theorem GrowsTo.node?_eq {node : Node} {operands : List Nat} (hg : g.GrowsTo g₁ node operands)
    (n : Nat) : g₁.network.node? n
      = if n = g.network.nodes.next then some node else g.network.node? n := by
  rw [Network.node?, hg.nodes_eq, Pool.get?_add]
  rfl

/-- What holds of the new node and of those there were holds of all. -/
theorem GrowsTo.forall_node {P : Node → Prop} {node : Node} {operands : List Nat}
    (hg : g.GrowsTo g₁ node operands) (hnew : P node)
    (hold : ∀ n other, g.network.node? n = some other → P other) :
    ∀ n other, g₁.network.node? n = some other → P other := by
  intro n other hn
  rw [hg.node?_eq] at hn
  split at hn
  · cases hn
    exact hnew
  · exact hold n other hn

theorem GrowsTo.hasNode_next {node : Node} {operands : List Nat}
    (hg : g.GrowsTo g₁ node operands) : g₁.network.hasNode g.network.nodes.next = true := by
  rw [Network.hasNode, hg.nodes_eq, Pool.contains_add]
  simp

/-- Two graphs still mirror each other when a node and its mirror image are added. -/
theorem Mirrors.grow (h : g.Mirrors g') {node node' : Node} {operands operands' : List Nat}
    (hg : g.GrowsTo g₁ node operands) (hg' : g'.GrowsTo g₁' node' operands')
    (hmirrors : node.Mirrors operands node' operands') (hinputs : g₁.inputs = g₁'.inputs)
    (houtputs : g₁.outputs = g₁'.outputs) : g₁.Mirrors g₁' := by
  have hnext := h.next_eq
  refine ⟨⟨?_, fun n => ?_, fun n => ?_⟩, ?_, fun n m hm => ?_, hinputs, houtputs⟩
  · rw [hg.nodes_eq, hg'.nodes_eq, Pool.size_add, Pool.size_add, h.shape.size_eq, h.vacant_eq]
  · have hn : g.network.nodes.contains n = g'.network.nodes.contains n := h.shape.hasNode_eq n
    rw [Network.hasNode, Network.hasNode, hg.nodes_eq, hg'.nodes_eq, Pool.contains_add,
      Pool.contains_add, hnext, hn]
  · rw [hg.successors_eq, hg'.successors_eq, hnext, h.shape.successors_eq,
      hmirrors.perm.count_eq]
  · rw [hg.nodes_eq, hg'.nodes_eq, Pool.vacant_add, Pool.vacant_add, h.vacant_eq]
  · rw [hg.node?_eq] at hm
    rw [hg'.node?_eq, hg.operands_eq, hg'.operands_eq, ← hnext]
    split at hm
    · next heq =>
        cases hm
        simp only [if_pos heq]
        exact ⟨node', rfl, hmirrors⟩
    · next hne =>
        simp only [if_neg hne]
        exact h.node n m hm

theorem growsTo_addInput (g : Dataflow) (node : Node) (inputs : List Nat) :
    g.GrowsTo { g.addNode node with inputs := inputs } node [] where
  nodes_eq := rfl
  operands_eq := by
    intro m
    split
    · next hm =>
        rw [hm]
        exact g.operands_next
    · rfl
  successors_eq := fun _ => rfl

theorem hasNode_addNode (g : Dataflow) (node : Node) (n : Nat) :
    (g.addNode node).network.hasNode n
      = (decide (n = g.network.nodes.next) || g.network.hasNode n) :=
  Pool.contains_add _ _ _

/-- A call for an operation on nodes that are there adds a node and links from its operands. -/
theorem after_operation_of_ok (op : NodeOp) (output : Descriptor) {operands : List Nat}
    {inputs : List Descriptor} (hinputs : operands.mapM g.firstOutput = .ok inputs) :
    (Build.operation op operands output).after g
      = (g.addNode ⟨op, inputs, [output]⟩).linkOperands g.network.nodes.next operands 0 := by
  unfold Build.after Build.operation
  rw [hinputs]

theorem hasNode_addNode_next (g : Dataflow) (node : Node) :
    (g.addNode node).network.hasNode g.network.nodes.next = true := by
  simp [hasNode_addNode]

theorem hasNode_of_mapM {operands : List Nat} {inputs : List Descriptor}
    (hinputs : operands.mapM g.firstOutput = .ok inputs) :
    ∀ m ∈ operands, g.network.hasNode m = true := by
  intro m hm
  obtain ⟨d, -, hd⟩ := exists_mem_of_forall₂ (Except.mapM_eq_ok_iff.1 hinputs).flip hm
  exact hasNode_of_firstOutput hd

theorem hasNode_addNode_of_mapM {operands : List Nat} {inputs : List Descriptor}
    (hinputs : operands.mapM g.firstOutput = .ok inputs) (node : Node) :
    ∀ m ∈ operands, (g.addNode node).network.hasNode m = true := by
  intro m hm
  simp [hasNode_addNode, hasNode_of_mapM hinputs m hm]

theorem growsTo_operation (op : NodeOp) (output : Descriptor) {operands : List Nat}
    {inputs : List Descriptor} (hinputs : operands.mapM g.firstOutput = .ok inputs) :
    g.GrowsTo ((Build.operation op operands output).after g) ⟨op, inputs, [output]⟩ operands ∧
      ((Build.operation op operands output).after g).inputs = g.inputs ∧
      ((Build.operation op operands output).after g).outputs = g.outputs := by
  have hn := g.hasNode_addNode_next ⟨op, inputs, [output]⟩
  have hpresent := hasNode_addNode_of_mapM hinputs ⟨op, inputs, [output]⟩
  obtain ⟨-, hnodes, hlisted, houtputs⟩ := linkOperands_spec 0 hn hpresent
  rw [after_operation_of_ok op output hinputs]
  exact ⟨⟨hnodes, operands_linkOperands hn hpresent g.network.target_ne_next,
    successors_linkOperands hn hpresent⟩, hlisted, houtputs⟩

theorem after_operation_of_error {op : NodeOp} {operands : List Nat} {output : Descriptor}
    {e : UnknownNode} (hinputs : operands.mapM g.firstOutput = .error e) :
    (Build.operation op operands output).after g = g := by
  unfold Build.after Build.operation
  rw [hinputs]

end Dataflow

/-! ## Calls -/

/-- A call of a builder. Unlike a `Call`, it may be for an operation that is that of an input; the
node is then not listed as an input. -/
inductive AnyCall
  | input (name : String) (output : Descriptor)
  | constant (payload : Payload) (output : Descriptor)
  | operation (op : NodeOp) (operands : List Nat) (output : Descriptor)
  | lookup (table : Table) (operand : Nat) (output : Descriptor)
  | output (n : Nat)

/-- The operation that a call is for, unless it lists an input or an output. -/
def AnyCall.op? : AnyCall → Option NodeOp
  | .input _ _ => none
  | .constant payload _ => some (.constant payload)
  | .operation op _ _ => some op
  | .lookup table _ _ => some (.lookup table)
  | .output _ => none

namespace Dataflow

variable {g g' g₁ : Dataflow}

/-- The graph after a call. -/
def anyCall (g : Dataflow) : AnyCall → Dataflow
  | .input name output => (Build.input name output).after g
  | .constant payload output => (Build.constant payload output).after g
  | .operation op operands output => (Build.operation op operands output).after g
  | .lookup table operand output => (Build.lookup table operand output).after g
  | .output n => (Build.output n).after g

/-- The graph that calls make from nothing. -/
def ofAnyCalls (calls : List AnyCall) : Dataflow := calls.foldl anyCall .empty

theorem Mirrors.after_operation (h : g.Mirrors g') (op : NodeOp) (operands : List Nat)
    (output : Descriptor) : ((Build.operation op operands output).after g).Mirrors
      ((Build.operation op operands output).after g') := by
  have hfirst : g.firstOutput = g'.firstOutput := funext h.firstOutput_eq
  cases hinputs : operands.mapM g.firstOutput with
  | error e =>
      rw [after_operation_of_error hinputs, after_operation_of_error (hfirst ▸ hinputs)]
      exact h
  | ok inputs =>
      obtain ⟨hgrows, hin, hout⟩ := growsTo_operation op output hinputs
      obtain ⟨hgrows', hin', hout'⟩ :=
        growsTo_operation (g := g') op output (hfirst ▸ hinputs)
      exact h.grow hgrows hgrows' .same (by rw [hin, hin', h.inputs_eq])
        (by rw [hout, hout', h.outputs_eq])

theorem after_output (g : Dataflow) (n : Nat) : (Build.output n).after g
    = if g.network.hasNode n = true then { g with outputs := g.outputs ++ [n] } else g := by
  unfold Build.after Build.output
  by_cases hn : g.network.hasNode n = true
  · rw [if_pos hn, if_pos hn]
  · rw [if_neg hn, if_neg hn]

theorem Mirrors.after_output (h : g.Mirrors g') (n : Nat) :
    ((Build.output n).after g).Mirrors ((Build.output n).after g') := by
  rw [Dataflow.after_output, Dataflow.after_output, ← h.shape.hasNode_eq]
  split
  · exact { h with outputs_eq := congrArg (· ++ [n]) h.outputs_eq }
  · exact h

/-- A call keeps graphs mirror images of each other. -/
theorem Mirrors.anyCall (h : g.Mirrors g') (c : AnyCall) :
    (g.anyCall c).Mirrors (g'.anyCall c) := by
  cases c with
  | input name output =>
      refine h.grow (growsTo_addInput g _ _) (growsTo_addInput g' _ _) ?_ ?_ h.outputs_eq
      · rw [h.inputs_eq]
        exact .same
      · show g.inputs ++ [g.network.nodes.next] = g'.inputs ++ [g'.network.nodes.next]
        rw [h.inputs_eq, h.next_eq]
  | constant payload output => exact h.after_operation (.constant payload) [] output
  | operation op operands output => exact h.after_operation op operands output
  | lookup table operand output => exact h.after_operation (.lookup table) [operand] output
  | output n => exact h.after_output n

/-! ## What a call does -/

/-- What a call does to a graph. -/
inductive CallEffect (c : AnyCall) (g g' : Dataflow) : Prop
  /-- It adds a node with links from operands. The node is for the operation of the call, or it is
  an input and listed as such. -/
  | grows {node : Node} {operands : List Nat} (hgrows : g.GrowsTo g' node operands)
      (hlinks : g'.network.linkList
        = (operandLinks g.network.nodes.next operands 0).reverse ++ g.network.linkList)
      (hoperands : ∀ m ∈ operands, g.network.hasNode m = true)
      (hinputs : (c.op? = some node.op ∧ g'.inputs = g.inputs) ∨
        ((∃ name output, node = .input name g.inputs.length output) ∧
          g'.inputs = g.inputs ++ [g.network.nodes.next]))
      (houtputs : g'.outputs = g.outputs) : CallEffect c g g'
  /-- It lists a node as an output. -/
  | lists {n : Nat} (hn : g.network.hasNode n = true)
      (hlists : g' = { g with outputs := g.outputs ++ [n] }) : CallEffect c g g'
  /-- It fails. -/
  | fails (hfails : g' = g) : CallEffect c g g'

theorem callEffect_operation {c : AnyCall} {op : NodeOp} (hc : c.op? = some op) (g : Dataflow)
    (operands : List Nat) (output : Descriptor) :
    CallEffect c g ((Build.operation op operands output).after g) := by
  cases hinputs : operands.mapM g.firstOutput with
  | error e => exact .fails (after_operation_of_error hinputs)
  | ok inputs =>
      obtain ⟨hgrows, hlisted, houtputs⟩ := growsTo_operation op output hinputs
      have hlinks := (linkOperands_spec 0 (g.hasNode_addNode_next ⟨op, inputs, [output]⟩)
        (hasNode_addNode_of_mapM hinputs _)).1
      rw [← after_operation_of_ok op output hinputs] at hlinks
      exact .grows hgrows hlinks (hasNode_of_mapM hinputs) (Or.inl ⟨hc, hlisted⟩) houtputs

theorem callEffect_anyCall (g : Dataflow) (c : AnyCall) : CallEffect c g (g.anyCall c) := by
  cases c with
  | input name output =>
      refine .grows (growsTo_addInput g _ _) rfl (by simp) (Or.inr ⟨⟨name, output, rfl⟩, rfl⟩) ?_
      rfl
  | constant payload output =>
      have hop : (AnyCall.constant payload output).op? = some (.constant payload) := rfl
      exact callEffect_operation hop g [] output
  | operation op operands output => exact callEffect_operation rfl g operands output
  | lookup table operand output => exact callEffect_operation rfl g [operand] output
  | output n =>
      have hafter := after_output g n
      split at hafter
      · next hn => exact .lists hn hafter
      · exact .fails hafter

/-! ## Each node comes after its operands -/

/-- What holds of every graph that calls make. -/
structure Layered (g : Dataflow) : Prop where
  vacant_eq : g.network.nodes.vacant = []
  operands_lt : ∀ n, ∀ m ∈ g.operands n, m < n
  outputs_present : ∀ n ∈ g.outputs, g.network.hasNode n = true

theorem layered_empty : Layered .empty where
  vacant_eq := wellMade_empty.vacant_eq
  operands_lt := wellMade_empty.operands_lt
  outputs_present := wellMade_empty.outputs_present

theorem Layered.grow (h : g.Layered) {node : Node} {operands : List Nat}
    (hg : g.GrowsTo g₁ node operands) (houtputs : g₁.outputs = g.outputs)
    (hoperands : ∀ m ∈ operands, g.network.hasNode m = true) : g₁.Layered where
  vacant_eq := by rw [hg.nodes_eq, Pool.vacant_add_of_eq_nil node h.vacant_eq]
  operands_lt := by
    intro n m hm
    rw [hg.operands_eq] at hm
    split at hm
    · next heq =>
        -- Without vacancies the new node gets an index behind all that are in use.
        obtain ⟨other, hother⟩ := Pool.contains_iff.1 (hoperands m hm)
        rw [heq, Pool.next, h.vacant_eq]
        exact Pool.lt_size_of_get? hother
    · exact h.operands_lt n m hm
  outputs_present := by
    intro n hn
    rw [houtputs] at hn
    have hn : g.network.nodes.contains n = true := h.outputs_present n hn
    rw [Network.hasNode, hg.nodes_eq, Pool.contains_add, hn, Bool.or_true]

theorem Layered.addOutput (h : g.Layered) {n : Nat} (hn : g.network.hasNode n = true) :
    { g with outputs := g.outputs ++ [n] : Dataflow }.Layered where
  __ := h
  outputs_present := by
    intro m hm
    rcases List.mem_append.1 hm with hm | hm
    · exact h.outputs_present m hm
    · rw [List.mem_singleton.1 hm]
      exact hn

theorem Layered.anyCall (h : g.Layered) (c : AnyCall) : (g.anyCall c).Layered := by
  cases g.callEffect_anyCall c with
  | grows hgrows _ hoperands _ houtputs => exact h.grow hgrows houtputs hoperands
  | lists hn hlists =>
      rw [hlists]
      exact h.addOutput hn
  | fails hfails => rwa [hfails]

theorem layered_ofAnyCalls (calls : List AnyCall) : (ofAnyCalls calls).Layered := by
  refine List.foldlRecOn calls anyCall (motive := Layered) layered_empty ?_
  intro g h c _
  exact h.anyCall c

/-! ## Exchanged operands -/

/-- One of two nodes gives an encrypted value and the other a clear one. -/
def IsMixed (g : Dataflow) (a b : Nat) : Prop :=
  ∃ left right, g.firstOutput a = .ok left ∧ g.firstOutput b = .ok right ∧
    left.isEncrypted ≠ right.isEncrypted

/-- Calls that go on from a graph are the same, but the operands of some calls for operations that
commute are exchanged, where one is encrypted and the other is clear. -/
inductive Exchanges : Dataflow → List AnyCall → List AnyCall → Prop
  | nil {g : Dataflow} : Exchanges g [] []
  | keep {g : Dataflow} {c : AnyCall} {calls calls' : List AnyCall}
      (hrest : Exchanges (g.anyCall c) calls calls') : Exchanges g (c :: calls) (c :: calls')
  | exchange {g : Dataflow} {op : NodeOp} {a b : Nat} {output : Descriptor}
      {calls calls' : List AnyCall} (hcommutes : op.Commutes) (hmixed : g.IsMixed a b)
      (hrest : Exchanges (g.anyCall (.operation op [a, b] output)) calls calls') :
      Exchanges g (.operation op [a, b] output :: calls) (.operation op [b, a] output :: calls')

theorem Mirrors.exchange (h : g.Mirrors g') {op : NodeOp} {a b : Nat} (output : Descriptor)
    (hcommutes : op.Commutes) (hmixed : g.IsMixed a b) :
    ((Build.operation op [a, b] output).after g).Mirrors
      ((Build.operation op [b, a] output).after g') := by
  obtain ⟨left, right, hleft, hright, hne⟩ := hmixed
  have hinputs : [a, b].mapM g.firstOutput = .ok [left, right] :=
    Except.mapM_eq_ok_iff.2 (.cons hleft (.cons hright .nil))
  rw [h.firstOutput_eq] at hleft hright
  have hinputs' : [b, a].mapM g'.firstOutput = .ok [right, left] :=
    Except.mapM_eq_ok_iff.2 (.cons hright (.cons hleft .nil))
  obtain ⟨hgrows, hin, hout⟩ := growsTo_operation op output hinputs
  obtain ⟨hgrows', hin', hout'⟩ := growsTo_operation op output hinputs'
  exact h.grow hgrows hgrows' (.exchanged hcommutes hne) (by rw [hin, hin', h.inputs_eq])
    (by rw [hout, hout', h.outputs_eq])

theorem Exchanges.foldl_mirrors {calls calls' : List AnyCall} (hcalls : g.Exchanges calls calls')
    (h : g.Mirrors g') : (calls.foldl anyCall g).Mirrors (calls'.foldl anyCall g') := by
  induction hcalls generalizing g' with
  | nil => exact h
  | keep _ ih => exact ih (h.anyCall _)
  | exchange hcommutes hmixed _ ih => exact ih (h.exchange _ hcommutes hmixed)

/-- The graphs that such calls make mirror each other. -/
theorem Exchanges.mirrors {calls calls' : List AnyCall}
    (h : Dataflow.empty.Exchanges calls calls') : (ofAnyCalls calls).Mirrors (ofAnyCalls calls') :=
  h.foldl_mirrors mirrors_empty

end Dataflow

end CipherFlow
