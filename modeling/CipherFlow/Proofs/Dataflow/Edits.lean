import CipherFlow.Proofs.Dataflow.Mirror
import CipherFlow.Proofs.Network.Cycles

/-!
# Edited graphs

A graph is edited by calls of the builders and by removals of nodes. A removal takes the links at
the node with it and leaves their indices to be reused, so indices do not follow the order in which
nodes and links were added. That there are no cycles is kept by edits all the same: a new node is no
operand of the others, and a removal makes no new predecessors (`Dataflow.grounded_edit`). Main
statement: whatever the edits, an operation on nodes that give values is added under a free index
with just the given operands, an operation on anything else is refused and changes nothing, and no
node is on a cycle; without removals the descriptors and the list of inputs agree with the nodes
(`Dataflow.ofEdits_consistent`).
-/

set_option autoImplicit false

namespace CipherFlow

/-! ## Ways back in a changed network -/

namespace Network

variable {ν ω : Type} {g g' : Network ν ω}

theorem ne_next_of_hasNode {n : Nat} (h : g.hasNode n = true) : n ≠ g.nodes.next := by
  rintro rfl
  rw [hasNode, Pool.contains, Pool.get?_next] at h
  cases h

/-- Where no node has a new predecessor, no way back becomes endless. -/
theorem Grounded.of_predecessors_subset {n : Nat} (h : g.Grounded n)
    (hsubset : ∀ m, g'.predecessors m ⊆ g.predecessors m) : g'.Grounded n :=
  Subrelation.accessible (fun hm => hsubset _ hm) h

/-- The removal of a node adds no link. -/
theorem mem_linkList_of_removeNode {n : Nat} {l : Link ω} (h : l ∈ (g.removeNode n).linkList) :
    l ∈ g.linkList := by
  obtain ⟨e, he⟩ := mem_linkList.1 h
  exact mem_linkList.2 ⟨e, (get?_links_isolate he).1⟩

theorem predecessors_removeNode_subset (g : Network ν ω) (n m : Nat) :
    (g.removeNode n).predecessors m ⊆ g.predecessors m := by
  intro k hk
  obtain ⟨l, hl, hends⟩ := mem_predecessors.1 hk
  exact mem_predecessors.2 ⟨l, mem_linkList_of_removeNode hl, hends⟩

end Network

/-! ## Edits -/

/-- An edit of a graph. -/
inductive Edit
  /-- A call of a builder, which may fail and then changes nothing. -/
  | call (c : AnyCall)
  /-- The removal of a node with its links. The node need not be there. -/
  | remove (n : Nat)

/-- The edit is a call, but not one that makes an input that is not listed. -/
def Edit.IsPlain : Edit → Prop
  | .call (.operation op _ _) => op.tag ≠ .input
  | .call _ => True
  | .remove _ => False

namespace Dataflow

/-- The graph without a node. The lists of inputs and outputs stay, also where they name the node.
-/
def removeNode (g : Dataflow) (n : Nat) : Dataflow := { g with network := g.network.removeNode n }

/-- The graph after an edit. -/
def edit (g : Dataflow) : Edit → Dataflow
  | .call c => g.anyCall c
  | .remove n => g.removeNode n

/-- The graph that edits make from nothing. -/
def ofEdits (edits : List Edit) : Dataflow := edits.foldl edit .empty

variable {g g' : Dataflow}

/-! ## No cycles -/

/-- A new node is no operand of the others, so their ways back stay, and its own lead to them. -/
theorem GrowsTo.grounded {node : Node} {operands : List Nat} (hg : g.GrowsTo g' node operands)
    (hoperands : ∀ m ∈ operands, g.network.hasNode m = true) (h : ∀ n, g.network.Grounded n)
    (n : Nat) : g'.network.Grounded n := by
  have hold : ∀ m, m ≠ g.network.nodes.next → g'.network.Grounded m := by
    intro m
    induction h m with
    | intro m _ ih =>
        intro hne
        refine Acc.intro _ fun k hk => ?_
        rw [← mem_operands_iff, hg.operands_eq, if_neg hne, mem_operands_iff] at hk
        exact ih k hk (Network.ne_next_of_hasNode (Network.hasNode_of_leadsTo hk).1)
  by_cases hn : n = g.network.nodes.next
  · refine Acc.intro _ fun m hm => ?_
    rw [← mem_operands_iff, hg.operands_eq, if_pos hn] at hm
    exact hold m (Network.ne_next_of_hasNode (hoperands m hm))
  · exact hold n hn

theorem grounded_edit (h : ∀ n, g.network.Grounded n) (e : Edit) (n : Nat) :
    (g.edit e).network.Grounded n := by
  cases e with
  | call c =>
      show (g.anyCall c).network.Grounded n
      cases g.callEffect_anyCall c with
      | grows hgrows _ hoperands _ _ => exact hgrows.grounded hoperands h n
      | lists _ hlists =>
          rw [hlists]
          exact h n
      | fails hfails =>
          rw [hfails]
          exact h n
  | remove m => exact (h n).of_predecessors_subset (g.network.predecessors_removeNode_subset m)

/-- No way back is endless, in whatever order indices were vacated and reused. -/
theorem grounded_ofEdits (edits : List Edit) : ∀ n, (ofEdits edits).network.Grounded n := by
  refine List.foldlRecOn edits edit (motive := fun g => ∀ n, g.network.Grounded n)
    wellMade_empty.grounded ?_
  intro g h e _
  exact grounded_edit h e

/-! ## Listed inputs -/

/-- Each listed input is a node that declares its place in the list. -/
def InputsDeclared (g : Dataflow) : Prop :=
  ∀ i n, g.inputs[i]? = some n → ∃ name output, g.network.node? n = some (.input name i output)

theorem GrowsTo.node?_eq_some {node other : Node} {operands : List Nat}
    (hg : g.GrowsTo g' node operands) {n : Nat} (hn : g.network.node? n = some other) :
    g'.network.node? n = some other := by
  have hne : n ≠ g.network.nodes.next :=
    Network.ne_next_of_hasNode (Pool.contains_iff.2 ⟨other, hn⟩)
  rw [hg.node?_eq, if_neg hne, hn]

theorem InputsDeclared.anyCall (h : g.InputsDeclared) (c : AnyCall) :
    (g.anyCall c).InputsDeclared := by
  intro i n hi
  cases g.callEffect_anyCall c with
  | lists _ hlists =>
      rw [hlists] at hi ⊢
      exact h i n hi
  | fails hfails =>
      rw [hfails] at hi ⊢
      exact h i n hi
  | @grows node operands hgrows _ _ hinputs _ =>
      have hkept (hi : g.inputs[i]? = some n) :
          ∃ name output, (g.anyCall c).network.node? n = some (.input name i output) := by
        obtain ⟨name, output, hn⟩ := h i n hi
        exact ⟨name, output, hgrows.node?_eq_some hn⟩
      rcases hinputs with ⟨-, hinputs⟩ | ⟨⟨name, output, rfl⟩, hinputs⟩
      · rw [hinputs] at hi
        exact hkept hi
      · rw [hinputs, List.getElem?_append] at hi
        split at hi
        · exact hkept hi
        · -- The last of the list is the new node, which declares how many there were before.
          next hlt =>
            obtain ⟨hlast, hn⟩ := List.getElem?_eq_some_iff.1 hi
            rw [List.length_singleton] at hlast
            have hi : i = g.inputs.length := by omega
            have hn : n = g.network.nodes.next := by simpa [eq_comm] using hn
            refine ⟨name, output, ?_⟩
            rw [hgrows.node?_eq, if_pos hn, hi]

theorem WellMade.edit (h : g.WellMade) {e : Edit} (he : e.IsPlain) : (g.edit e).WellMade := by
  cases e with
  | remove n => exact he.elim
  | call c =>
      cases c with
      | input name output => exact h.call (.input name output)
      | constant payload output => exact h.call (.constant payload output)
      | operation op operands output => exact h.call (.operation op he operands output)
      | lookup table operand output => exact h.call (.lookup table operand output)
      | output n => exact h.call (.output n)

theorem wellMade_and_inputsDeclared_ofEdits {edits : List Edit} (h : ∀ e ∈ edits, e.IsPlain) :
    (ofEdits edits).WellMade ∧ (ofEdits edits).InputsDeclared := by
  refine List.foldlRecOn edits edit (motive := fun g => g.WellMade ∧ g.InputsDeclared)
    ⟨wellMade_empty, fun i n hi => by cases hi⟩ ?_
  rintro g ⟨hmade, hdeclared⟩ e he
  refine ⟨hmade.edit (h e he), ?_⟩
  cases e with
  | call c => exact hdeclared.anyCall c
  | remove n => exact (h _ he).elim

/-! ## Operations -/

/-- A node that is there and gives at least one value. -/
def GivesValue (g : Dataflow) (n : Nat) : Prop :=
  ∃ node, g.network.node? n = some node ∧ node.outputs ≠ []

instance (g : Dataflow) (n : Nat) : Decidable (g.GivesValue n) :=
  decidable_of_iff ((g.network.node? n).any (fun node => !node.outputs.isEmpty) = true)
    (by simp [GivesValue, Option.any_eq_true])

theorem GivesValue.exists_firstOutput {n : Nat} (h : g.GivesValue n) :
    ∃ d, g.firstOutput n = .ok d := by
  obtain ⟨node, hnode, houtputs⟩ := h
  obtain ⟨d, rest, hd⟩ := List.exists_cons_of_ne_nil houtputs
  exact ⟨d, firstOutput_eq_ok_iff.2 ⟨node, hnode, by rw [hd, List.head?_cons]⟩⟩

theorem firstOutput_eq_error {n : Nat} (h : ¬ g.GivesValue n) : g.firstOutput n = .error ⟨n⟩ := by
  cases hfirst : g.firstOutput n with
  | ok d =>
      obtain ⟨node, hnode, hd⟩ := firstOutput_eq_ok_iff.1 hfirst
      refine absurd ⟨node, hnode, fun hnil => ?_⟩ h
      rw [hnil] at hd
      cases hd
  | error e =>
      unfold firstOutput at hfirst
      split at hfirst
      · cases hfirst
      · exact hfirst.symm

/-- A graph has an operation more than another under a free index, and is otherwise the same. -/
structure AddsOperation (g g' : Dataflow) (n : Nat) (op : NodeOp) (operands : List Nat)
    (output : Descriptor) : Prop where
  hasNode_eq : g.network.hasNode n = false
  operands_eq : g'.operands n = operands
  /-- The descriptors of the inputs are the first outputs of the operands. -/
  exists_node : ∃ inputs, g'.network.node? n = some ⟨op, inputs, [output]⟩ ∧
    List.Forall₂ (fun m d => g.firstOutput m = .ok d) operands inputs
  node?_of_ne : ∀ m, m ≠ n → g'.network.node? m = g.network.node? m
  operands_of_ne : ∀ m, m ≠ n → g'.operands m = g.operands m
  inputs_eq : g'.inputs = g.inputs
  outputs_eq : g'.outputs = g.outputs

/-- An operation on nodes that give values is added. -/
theorem exists_operation_eq_ok (op : NodeOp) {operands : List Nat} (output : Descriptor)
    (h : ∀ m ∈ operands, g.GivesValue m) :
    ∃ n g', Build.operation op operands output g = .ok n g' ∧
      g.AddsOperation g' n op operands output := by
  obtain ⟨inputs, hinputs⟩ := exists_forall₂ fun m hm => (h m hm).exists_firstOutput
  have hmapM : operands.mapM g.firstOutput = .ok inputs := Except.mapM_eq_ok_iff.2 hinputs
  obtain ⟨hgrows, hlisted, houtputs⟩ := growsTo_operation op output hmapM
  have hrun : Build.operation op operands output g
      = .ok g.network.nodes.next ((Build.operation op operands output).after g) := by
    rw [after_operation_of_ok op output hmapM]
    unfold Build.operation
    rw [hmapM]
  refine ⟨_, _, hrun, ?_⟩
  constructor
  case hasNode_eq => exact Network.node?_eq_none_iff.1 g.network.nodes.get?_next
  case operands_eq => rw [hgrows.operands_eq, if_pos rfl]
  case exists_node => exact ⟨inputs, by rw [hgrows.node?_eq, if_pos rfl], hinputs⟩
  case node?_of_ne => exact fun m hm => by rw [hgrows.node?_eq, if_neg hm]
  case operands_of_ne => exact fun m hm => by rw [hgrows.operands_eq, if_neg hm]
  case inputs_eq => exact hlisted
  case outputs_eq => exact houtputs

/-- An operation is refused for the first of its operands that gives no value. -/
theorem operation_eq_error (op : NodeOp) {before after : List Nat} {m : Nat} (output : Descriptor)
    (hbefore : ∀ k ∈ before, g.GivesValue k) (hm : ¬ g.GivesValue m) :
    Build.operation op (before ++ m :: after) output g = .error ⟨m⟩ g := by
  have hmapM : (before ++ m :: after).mapM g.firstOutput = .error ⟨m⟩ :=
    Except.mapM_eq_error (fun k hk => (hbefore k hk).exists_firstOutput) (firstOutput_eq_error hm)
  unfold Build.operation
  rw [hmapM]

/-! ## Edited graphs -/

/-- The nodes of a graph agree with each other and with the list of inputs. -/
structure Consistent (g : Dataflow) : Prop where
  acyclic : ∀ n, ¬ g.network.OnCycle n
  /-- The descriptors of the inputs of a node are those of its operands. -/
  inputs_agree : ∀ n node, g.network.node? n = some node →
    List.Forall₂ (fun m d => g.firstOutput m = .ok d) (g.operands n) node.inputs
  inputs_declared : g.InputsDeclared
  /-- No node is an input but those that are listed. -/
  inputs_listed : ∀ n node, g.network.node? n = some node → node.tag = .input → n ∈ g.inputs

/-- Of an edited graph: no node is on a cycle; without removals and unlisted inputs it is
consistent; and an operation is added to it, or refused for its first operand that gives no value.
-/
theorem ofEdits_consistent (edits : List Edit) :
    (∀ n, ¬ (ofEdits edits).network.OnCycle n) ∧
      ((∀ e ∈ edits, e.IsPlain) → (ofEdits edits).Consistent) ∧
      ∀ op operands output,
        ((∀ m ∈ operands, (ofEdits edits).GivesValue m) →
          ∃ n g', Build.operation op operands output (ofEdits edits) = .ok n g' ∧
            (ofEdits edits).AddsOperation g' n op operands output) ∧
        ∀ before m after, operands = before ++ m :: after →
          (∀ k ∈ before, (ofEdits edits).GivesValue k) → ¬ (ofEdits edits).GivesValue m →
            Build.operation op operands output (ofEdits edits) = .error ⟨m⟩ (ofEdits edits) := by
  have hacyclic : ∀ n, ¬ (ofEdits edits).network.OnCycle n := fun n =>
    (grounded_ofEdits edits n).not_onCycle
  refine ⟨hacyclic, fun hplain => ?_, fun op operands output => ⟨?_, ?_⟩⟩
  · obtain ⟨hmade, hdeclared⟩ := wellMade_and_inputsDeclared_ofEdits hplain
    refine ⟨hacyclic, hmade.inputs_agree, hdeclared, fun n node hn htag => ?_⟩
    exact (hmade.mem_inputs_iff n).2 ⟨node, hn, htag⟩
  · exact exists_operation_eq_ok op output
  · rintro before m after rfl hbefore hm
    exact operation_eq_error op output hbefore hm

/-- An operand was removed and a constant has its index now. The index of another node stays vacant.
The calls alone, without removals, make a consistent graph. -/
theorem ofEdits_consistent_reusedIndex :
    let calls : List Edit :=
      [.call (.input "x" (.encryptedUnsigned 4)), .call (.constant (.scalar 3) (.clearUnsigned 4)),
        .call (.operation .sub [1, 0] (.encryptedUnsigned 4)),
        .call (.operation .add [2, 2] (.encryptedUnsigned 5))]
    let edits : List Edit :=
      calls ++ [.remove 3, .remove 1, .call (.constant (.scalar 5) (.clearUnsigned 4))]
    ((∀ e ∈ calls, e.IsPlain) ∧ (ofEdits calls).Consistent) ∧
      ((∀ m ∈ [1, 2, 1], (ofEdits edits).GivesValue m) ∧
        ∃ n g', Build.operation .mul [1, 2, 1] (.encryptedUnsigned 8) (ofEdits edits) = .ok n g' ∧
          (ofEdits edits).AddsOperation g' n .mul [1, 2, 1] (.encryptedUnsigned 8)) ∧
      ((∀ k ∈ [2], (ofEdits edits).GivesValue k) ∧ ¬ (ofEdits edits).GivesValue 3 ∧
        Build.operation .add [2, 3, 9] (.encryptedUnsigned 5) (ofEdits edits)
          = .error ⟨3⟩ (ofEdits edits)) := by
  intro calls edits
  have hplain : ∀ e ∈ calls, e.IsPlain := by simp [calls, Edit.IsPlain, NodeOp.tag]
  have hgiven : ∀ m ∈ [1, 2, 1], (ofEdits edits).GivesValue m := by decide
  have hbefore : ∀ k ∈ [2], (ofEdits edits).GivesValue k := by decide
  have hmissing : ¬ (ofEdits edits).GivesValue 3 := by decide
  obtain ⟨-, hconsistent, -⟩ := ofEdits_consistent calls
  obtain ⟨-, -, hoperation⟩ := ofEdits_consistent edits
  exact ⟨⟨hplain, hconsistent hplain⟩,
    ⟨hgiven, (hoperation .mul [1, 2, 1] (.encryptedUnsigned 8)).1 hgiven⟩,
    ⟨hbefore, hmissing, (hoperation .add [2, 3, 9] (.encryptedUnsigned 5)).2 [2] 3 [9] rfl hbefore
      hmissing⟩⟩

end Dataflow

end CipherFlow
