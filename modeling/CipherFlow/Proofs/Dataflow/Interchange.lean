import CipherFlow.Proofs.Dataflow.Codec
import CipherFlow.Proofs.Dataflow.Mirror

/-!
# Graphs made by calls, read back

The graphs that calls make from nothing have no vacancies, and their links stand in the order in
which they were added. The invariant of the calls is `Dataflow.Orderly`. Main statement: such a
graph is read back from its text with all that it is made of (`Dataflow.read?_write_ofAnyCalls`), so
a walk, a lowering and any further calls go the same way for the graph that is read.
-/

set_option autoImplicit false

namespace CipherFlow

/-! ## Networks -/

namespace Network

variable {ν ω : Type} {g : Network ν ω}

theorem compact_empty : (empty : Network ν ω).Compact where
  nodes_vacant := rfl
  links_vacant := rfl
  recent_eq := rfl

theorem Compact.addNode (h : g.Compact) (a : ν) : (g.addNode a).Compact where
  nodes_vacant := Pool.vacant_add_of_eq_nil a h.nodes_vacant
  links_vacant := h.links_vacant
  recent_eq := h.recent_eq

/-- A new link gets the index behind those in use. -/
theorem Compact.next_links (h : g.Compact) : g.links.next = g.links.slots.size := by
  rw [Pool.next, h.links_vacant]
  rfl

theorem links_addLink {l : Link ω} (hs : g.hasNode l.source = true)
    (ht : g.hasNode l.target = true) : (g.addLink l).links = g.links.add l := by
  rw [addLink, dif_pos ⟨hs, ht⟩]

theorem Compact.size_addLink (h : g.Compact) {l : Link ω} (hs : g.hasNode l.source = true)
    (ht : g.hasNode l.target = true) :
    (g.addLink l).links.slots.size = g.links.slots.size + 1 := by
  rw [links_addLink hs ht, Pool.size_add, if_pos h.links_vacant]

theorem Compact.addLink (h : g.Compact) (l : Link ω) : (g.addLink l).Compact := by
  unfold Network.addLink
  split
  · refine ⟨h.nodes_vacant, Pool.vacant_add_of_eq_nil l h.links_vacant, ?_⟩
    show g.links.next :: g.recent = (List.range (g.links.add l).slots.size).reverse
    rw [Pool.size_add, if_pos h.links_vacant, List.range_succ, List.reverse_concat,
      h.next_links, h.recent_eq]
  · exact h

end Network

/-! ## Calls -/

/-- The number that a call gives for the position of an input is a word. The other numbers in a call
are bounded by their types. -/
def AnyCall.Encodable : AnyCall → Prop
  | .operation (.input _ index) _ _ => index < UInt64.size
  | _ => True

namespace Dataflow

/-- What holds of every graph that encodable calls make. -/
structure Orderly (g : Dataflow) : Prop where
  compact : g.network.Compact
  /-- The links from the earlier operands of a node come before that from a later one. -/
  weight_le : ∀ e l, g.network.links.get? e = some l → l.weight ≤ e
  inputs_present : ∀ n ∈ g.inputs, g.network.hasNode n = true
  length_inputs_le : g.inputs.length ≤ g.network.nodes.slots.size
  /-- The position of an input is the number of those listed before it, or the word in a call. -/
  position_lt : ∀ n node, g.network.node? n = some node → ∀ name index,
    node.op = .input name index → index < g.network.nodes.slots.size ∨ index < UInt64.size

theorem orderly_empty : Orderly .empty where
  compact := Network.compact_empty
  weight_le := by simp [empty, Network.empty, Pool.empty, Pool.get?]
  inputs_present := by simp [empty]
  length_inputs_le := Nat.zero_le _
  position_lt := by simp [empty, Network.empty, Network.node?, Pool.empty, Pool.get?]

variable {g : Dataflow}

theorem Orderly.size_addNode (h : g.Orderly) (node : Node) :
    (g.addNode node).network.nodes.slots.size = g.network.nodes.slots.size + 1 := by
  show (g.network.nodes.add node).slots.size = _
  rw [Pool.size_add, if_pos h.compact.nodes_vacant]

theorem Orderly.addNode (h : g.Orderly) {node : Node}
    (hnode : ∀ name index, node.op = .input name index →
      index ≤ g.network.nodes.slots.size ∨ index < UInt64.size) : (g.addNode node).Orderly where
  compact := h.compact.addNode node
  weight_le := h.weight_le
  inputs_present := by
    intro n hn
    have hn : g.network.hasNode n = true := h.inputs_present n hn
    rw [hasNode_addNode, hn, Bool.or_true]
  length_inputs_le := by
    rw [h.size_addNode]
    exact Nat.le_succ_of_le h.length_inputs_le
  position_lt := by
    intro n other hn name index hop
    rw [h.size_addNode]
    have hn : (g.network.nodes.add node).get? n = some other := hn
    rw [Pool.get?_add] at hn
    split at hn
    · cases hn
      exact (hnode name index hop).imp_left Nat.lt_succ_of_le
    · exact (h.position_lt n other hn name index hop).imp_left Nat.lt_succ_of_lt

/-- An input is numbered by those listed before it. -/
theorem Orderly.addInput (h : g.Orderly) (name : String) (output : Descriptor) :
    { g.addNode (.input name g.inputs.length output) with
      inputs := g.inputs ++ [g.network.nodes.next] : Dataflow }.Orderly := by
  have hadded : (g.addNode (.input name g.inputs.length output)).Orderly := by
    refine h.addNode fun name' index hop => Or.inl ?_
    cases hop
    exact h.length_inputs_le
  refine { hadded with inputs_present := fun n hn => ?_, length_inputs_le := ?_ }
  · rcases List.mem_append.1 hn with hn | hn
    · exact hadded.inputs_present n hn
    · rw [List.mem_singleton.1 hn]
      exact hasNode_addNode_next g _
  · show (g.inputs ++ [g.network.nodes.next]).length ≤ _
    rw [List.length_append, List.length_singleton, h.size_addNode]
    exact Nat.succ_le_succ h.length_inputs_le

/-- One more link, at a position no greater than its index. -/
theorem Orderly.addLink (h : g.Orderly) {l : Link Nat} (hs : g.network.hasNode l.source = true)
    (ht : g.network.hasNode l.target = true) (hweight : l.weight ≤ g.network.links.slots.size) :
    { g with network := g.network.addLink l : Dataflow }.Orderly := by
  have hnodes := g.network.nodes_addLink l
  refine ⟨h.compact.addLink l, fun e m he => ?_, fun n hn => ?_, ?_, fun n node hn => ?_⟩
  · rw [Network.links_addLink hs ht, Pool.get?_add] at he
    split at he
    · next heq =>
        cases he
        rw [heq, h.compact.next_links]
        exact hweight
    · exact h.weight_le e m he
  · rw [Network.hasNode, hnodes]
    exact h.inputs_present n hn
  · rw [hnodes]
    exact h.length_inputs_le
  · rw [Network.node?, hnodes] at hn
    rw [hnodes]
    exact h.position_lt n node hn

theorem Orderly.linkOperands (h : g.Orderly) {n : Nat} {operands : List Nat} {position : Nat}
    (hn : g.network.hasNode n = true)
    (hoperands : ∀ m ∈ operands, g.network.hasNode m = true)
    (hposition : position ≤ g.network.links.slots.size) :
    (g.linkOperands n operands position).Orderly := by
  induction operands generalizing g position with
  | nil => exact h
  | cons operand rest ih =>
      rw [List.forall_mem_cons] at hoperands
      have hhas (m : Nat) : (g.network.addLink ⟨operand, n, position⟩).hasNode m
          = g.network.hasNode m := by
        rw [Network.hasNode, Network.nodes_addLink, Network.hasNode]
      -- Each link takes one more index, so the next position is not past the next index either.
      have hsize := h.compact.size_addLink (l := ⟨operand, n, position⟩) hoperands.1 hn
      refine ih (h.addLink hoperands.1 hn hposition) (by rw [hhas, hn]) (fun m hm => ?_) ?_
      · rw [hhas, hoperands.2 m hm]
      · rw [hsize]
        exact Nat.succ_le_succ hposition

theorem Orderly.after_operation (h : g.Orderly) {op : NodeOp}
    (hop : ∀ name index, op = .input name index → index < UInt64.size) (operands : List Nat)
    (output : Descriptor) : ((Build.operation op operands output).after g).Orderly := by
  cases hinputs : operands.mapM g.firstOutput with
  | error e => rwa [after_operation_of_error hinputs]
  | ok inputs =>
      rw [after_operation_of_ok op output hinputs]
      exact (h.addNode fun name index hindex => Or.inr (hop name index hindex)).linkOperands
        (hasNode_addNode_next g _) (hasNode_addNode_of_mapM hinputs _) (Nat.zero_le _)

theorem Orderly.after_output (h : g.Orderly) (n : Nat) :
    ((Build.output n).after g).Orderly := by
  rw [Dataflow.after_output]
  split
  · exact ⟨h.compact, h.weight_le, h.inputs_present, h.length_inputs_le, h.position_lt⟩
  · exact h

theorem Orderly.anyCall (h : g.Orderly) {c : AnyCall} (hc : c.Encodable) :
    (g.anyCall c).Orderly := by
  cases c with
  | input name output => exact h.addInput name output
  | constant payload output => exact h.after_operation (by rintro _ _ ⟨⟩) [] output
  | operation op operands output =>
      refine h.after_operation ?_ operands output
      rintro name index rfl
      exact hc
  | lookup table operand output => exact h.after_operation (by rintro _ _ ⟨⟩) [operand] output
  | output n => exact h.after_output n

theorem orderly_ofAnyCalls {calls : List AnyCall} (hcalls : ∀ c ∈ calls, c.Encodable) :
    (ofAnyCalls calls).Orderly := by
  refine List.foldlRecOn calls anyCall (motive := Orderly) orderly_empty ?_
  intro g h c hc
  exact h.anyCall (hcalls c hc)

/-! ## Reading back -/

/-- The numbers in such a graph are words, as long as its nodes and links can be counted. -/
theorem Orderly.encodable (h : g.Orderly) (houtputs : ∀ n ∈ g.outputs, g.network.hasNode n = true)
    (hnodes : g.network.nodes.slots.size ≤ UInt32.size)
    (hlinks : g.network.links.slots.size ≤ UInt64.size) : g.Encodable := by
  have hnetwork : g.network.Encodable := by
    refine ⟨Nat.le_trans g.network.nodes.extent_le_size hnodes, fun e l he => ?_, ?_⟩
    · calc l.weight
          ≤ e := h.weight_le e l he
        _ < g.network.links.slots.size := Pool.lt_size_of_get? he
        _ ≤ UInt64.size := hlinks
    · intro n node hn name index hop
      rcases h.position_lt n node hn name index hop with hindex | hindex
      · have hword : UInt32.size ≤ UInt64.size := by decide
        exact Nat.lt_of_lt_of_le hindex (Nat.le_trans hnodes hword)
      · exact hindex
  exact ⟨hnetwork, fun n hn => hnetwork.lt_of_hasNode (h.inputs_present n hn),
    fun n hn => hnetwork.lt_of_hasNode (houtputs n hn)⟩

/-- A graph that calls make from nothing is read back from its text as it is, with its nodes, its
links and the order in which they were added. -/
theorem read?_write_ofAnyCalls {calls : List AnyCall} (hcalls : ∀ c ∈ calls, c.Encodable)
    (hnodes : (ofAnyCalls calls).network.nodes.slots.size ≤ UInt32.size)
    (hlinks : (ofAnyCalls calls).network.links.slots.size ≤ UInt64.size) :
    read? (ofAnyCalls calls).write = some (ofAnyCalls calls) := by
  have horderly := orderly_ofAnyCalls hcalls
  exact read?_write_of_compact
    (horderly.encodable (layered_ofAnyCalls calls).outputs_present hnodes hlinks) horderly.compact

/-- A graph with a quoted name, a negative constant and an input that is not listed. -/
theorem read?_write_quotedSum :
    let calls : List AnyCall :=
      [.input "the \"x\"" (.encryptedSigned 4), .constant (.scalar (-3)) (.clearSigned 4),
        .operation .add [0, 1] (.encryptedSigned 4),
        .operation (.input "y" 7) [2, 2] (.encryptedUnsigned 2),
        .lookup ⟨[1, 3, 5, 7], by decide⟩ 3 (.encryptedUnsigned 3), .output 4, .output 9, .output 2]
    (∀ c ∈ calls, c.Encodable) ∧
      (ofAnyCalls calls).network.nodes.slots.size ≤ UInt32.size ∧
      (ofAnyCalls calls).network.links.slots.size ≤ UInt64.size ∧
      read? (ofAnyCalls calls).write = some (ofAnyCalls calls) := by
  intro calls
  have hcalls : ∀ c ∈ calls, c.Encodable := by
    simp [calls, AnyCall.Encodable, UInt64.size]
  have hnodes : (ofAnyCalls calls).network.nodes.slots.size ≤ UInt32.size := by decide
  have hlinks : (ofAnyCalls calls).network.links.slots.size ≤ UInt64.size := by decide
  exact ⟨hcalls, hnodes, hlinks, read?_write_ofAnyCalls hcalls hnodes hlinks⟩

end Dataflow

end CipherFlow
