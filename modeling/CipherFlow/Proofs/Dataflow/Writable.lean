import CipherFlow.Proofs.Dataflow.Codec
import CipherFlow.Proofs.Dataflow.Edits
import CipherFlow.Proofs.Dataflow.Interchange

/-!
# Graphs that can be written

A graph is reached by edits from nothing or from a graph that was read (`Dataflow.Reached`). Main
statement: every graph that is reached can be written without a number that is too large to be read
(`Dataflow.Reached.writable`). What was read has only numbers that were read, and an edit brings in
only indices, positions and the word in a call, which are small as long as nodes, links and inputs
can be counted.
-/

set_option autoImplicit false

namespace CipherFlow

/-! ## Numbers that are read -/

namespace Json

theorem lt_of_below? {bound n : Nat} {json : Json} (h : json.below? bound = some n) :
    n < bound := by
  unfold below? at h
  split at h
  · split at h
    · next hlt =>
        cases h
        exact hlt
    · cases h
  · cases h

/-- Each item of a list that is decoded comes from some value. -/
theorem exists_of_mem_list? {α : Type} {decode : Json → Option α} {json : Json} {xs : List α}
    (h : json.list? decode = some xs) : ∀ x ∈ xs, ∃ item, decode item = some x := by
  unfold list? at h
  split at h
  · next items =>
      induction items generalizing xs with
      | nil =>
          cases h
          simp
      | cons item items ih =>
          rw [List.mapM_cons] at h
          obtain ⟨x, hx, h⟩ := Option.bind_eq_some_iff.1 h
          obtain ⟨rest, hrest, h⟩ := Option.bind_eq_some_iff.1 h
          cases h
          intro y hy
          rcases List.mem_cons.1 hy with rfl | hy
          · exact ⟨item, hx⟩
          · exact ih hrest y hy
  · cases h

end Json

theorem lt_of_nodeOfJson? {json : Json} {n : Nat} (h : nodeOfJson? json = some n) :
    n < UInt32.size := Json.lt_of_below? h

theorem lt_of_mem_list?_nodeOfJson? {json : Json} {ns : List Nat}
    (h : json.list? nodeOfJson? = some ns) : ∀ n ∈ ns, n < UInt32.size := by
  intro n hn
  obtain ⟨item, hitem⟩ := Json.exists_of_mem_list? h n hn
  exact lt_of_nodeOfJson? hitem

theorem Link.writable_of_ofJson? {json : Json} {l : Link Nat} (h : Link.ofJson? json = some l) :
    l.Writable := by
  unfold ofJson? at h
  split at h
  · obtain ⟨source, hsource, h⟩ := Option.bind_eq_some_iff.1 h
    obtain ⟨target, htarget, h⟩ := Option.bind_eq_some_iff.1 h
    obtain ⟨weight, hweight, h⟩ := Option.bind_eq_some_iff.1 h
    cases h
    exact ⟨lt_of_nodeOfJson? hsource, lt_of_nodeOfJson? htarget, Json.lt_of_below? hweight⟩
  · cases h

theorem Link.writable_of_slotOfJson? {json : Json} {l : Link Nat}
    (h : Link.slotOfJson? json = some (some l)) : l.Writable := by
  unfold slotOfJson? at h
  split at h
  · cases h
  · obtain ⟨l', hl', h⟩ := Option.map_eq_some_iff.1 h
    cases h
    exact writable_of_ofJson? hl'

theorem NodeOp.lt_of_ofData? {tag : Tag} {data : Json} {name : String} {index : Nat}
    (h : NodeOp.ofData? tag data = some (.input name index)) : index < UInt64.size := by
  cases tag with
  | input =>
      simp only [ofData?] at h
      split at h
      · obtain ⟨name', hname, h⟩ := Option.bind_eq_some_iff.1 h
        obtain ⟨index', hindex, h⟩ := Option.bind_eq_some_iff.1 h
        cases h
        exact Json.lt_of_below? hindex
      · cases h
  | constant => simp [ofData?] at h
  | lookup => simp [ofData?] at h
  | add => cases h
  | sub => cases h
  | mul => cases h
  | dot => cases h

/-- Only an operation with data has a number, and a position that is read is a word. -/
theorem NodeOp.writable_of_ofJson? {json : Json} {op : NodeOp} (h : NodeOp.ofJson? json = some op) :
    op.Writable := by
  rintro name index rfl
  obtain ⟨⟨variantName, data⟩, -, hrest⟩ := Option.bind_eq_some_iff.1 h
  obtain ⟨tag, -, hop⟩ := Option.bind_eq_some_iff.1 hrest
  clear h hrest
  cases htag : ofTag? tag with
  | some op =>
      rw [htag] at hop
      obtain ⟨-, hop⟩ := Option.ite_none_right_eq_some.1 hop
      cases hop
      cases tag <;> cases htag
  | none =>
      rw [htag] at hop
      cases data with
      | some data => exact lt_of_ofData? hop
      | none => cases hop

theorem Node.writable_of_ofJson? {json : Json} {node : Node} (h : Node.ofJson? json = some node) :
    node.op.Writable := by
  unfold ofJson? at h
  split at h
  · obtain ⟨op, hop, h⟩ := Option.bind_eq_some_iff.1 h
    obtain ⟨inputs, -, h⟩ := Option.bind_eq_some_iff.1 h
    obtain ⟨outputs, -, h⟩ := Option.bind_eq_some_iff.1 h
    cases h
    exact NodeOp.writable_of_ofJson? hop
  · cases h

/-! ## Networks that are read -/

/-- An item that is put into a slot is one of the list, and an empty slot is not behind all holes.
-/
theorem Pool.mem_of_spread? {α : Type} {total start : Nat} {holes : List Nat} {items : List α}
    {slots : List (Option α)} (h : spread? total start holes items = some slots) :
    (∀ a, some a ∈ slots → a ∈ items) ∧
      ∀ i, slots[i]? = some none → ∃ hole ∈ holes, start + i ≤ hole := by
  induction holes generalizing start items slots with
  | nil =>
      cases h
      constructor
      · simp
      · intro i hi
        simp at hi
  | cons hole holes ih =>
      rw [spread?] at h
      split at h
      · next hbounds =>
          obtain ⟨rest, hrest, h⟩ := Option.bind_eq_some_iff.1 h
          cases h
          obtain ⟨hitems, hholes⟩ := ih hrest
          -- Up to the first hole stand items; behind it the rest of them is spread in turn.
          have hlength : ((items.take (hole - start)).map some).length ≤ hole - start := by
            rw [List.length_map]
            exact List.length_take_le _ _
          constructor
          · intro a ha
            rcases List.mem_append.1 ha with ha | ha
            · obtain ⟨b, hb, hba⟩ := List.mem_map.1 ha
              cases hba
              exact List.mem_of_mem_take hb
            · rcases List.mem_cons.1 ha with ha | ha
              · cases ha
              · exact List.mem_of_mem_drop (hitems a ha)
          · intro i hi
            rw [List.getElem?_append] at hi
            split at hi
            · rw [List.getElem?_map] at hi
              cases hi' : (items.take (hole - start))[i]? <;> simp [hi'] at hi
            · next hle =>
                cases hj : i - ((items.take (hole - start)).map some).length with
                | zero => exact ⟨hole, List.mem_cons_self, by omega⟩
                | succ j =>
                    rw [hj, List.getElem?_cons_succ] at hi
                    obtain ⟨later, hlater, hle'⟩ := hholes j hi
                    exact ⟨later, List.mem_cons_of_mem _ hlater, by omega⟩
      · cases h

namespace Network

/-- There are no more links than indices for them. -/
theorem length_linkList_le {ν ω : Type} (g : Network ν ω) :
    g.linkList.length ≤ g.links.slots.size := by
  have hsubset : g.recent ⊆ List.range g.links.slots.size := by
    intro e he
    obtain ⟨l, hl⟩ := Pool.contains_iff.1 ((g.mem_recent e).1 he)
    exact List.mem_range.2 (Pool.lt_size_of_get? hl)
  calc g.linkList.length
      ≤ g.recent.length := List.length_filterMap_le _ _
    _ ≤ (List.range g.links.slots.size).length := (g.nodup_recent.subperm hsubset).length_le
    _ = g.links.slots.size := List.length_range

/-- A network of given slots has just these. -/
theorem slots_of_ofSlots? {ν ω : Type} {nodes : Array (Option ν)} {links : Array (Option (Link ω))}
    {g : Network ν ω} (h : ofSlots? nodes links = some g) :
    g.nodes = .ofSlots nodes ∧ g.links = .ofSlots links := by
  unfold ofSlots? at h
  dsimp only at h
  split at h
  · cases h
    exact ⟨rfl, rfl⟩
  · cases h

theorem writable_of_ofSlots? {nodes : List Node} {holes : List Nat}
    {slots : List (Option Node)} {links : List (Option (Link Nat))} {g : Network Node Nat}
    (hslots : Pool.spread? (nodes.length + holes.length) 0 holes nodes = some slots)
    (hg : ofSlots? slots.toArray links.toArray = some g)
    (hholes : ∀ i ∈ holes, i < UInt32.size)
    (hlinks : ∀ l, some l ∈ links → l.Writable) (hnodes : ∀ node ∈ nodes, node.op.Writable) :
    g.Writable := by
  obtain ⟨hitems, hempty⟩ := Pool.mem_of_spread? hslots
  obtain ⟨hnodeSlots, hlinkSlots⟩ := slots_of_ofSlots? hg
  constructor
  case hole_lt =>
    intro i hi
    obtain ⟨hrange, hvacant⟩ := List.mem_filter.1 hi
    have hlt : i < slots.length := by
      have hsize : g.nodes.slots.size = slots.length := by
        rw [hnodeSlots]
        exact List.size_toArray
      rw [← hsize]
      exact Nat.lt_of_lt_of_le (List.mem_range.1 hrange) g.nodes.extent_le_size
    have hnone : slots[i]? = some none := by
      rw [hnodeSlots, Pool.contains, Pool.get?_ofSlots, List.getElem?_toArray] at hvacant
      rw [List.getElem?_eq_getElem hlt] at hvacant ⊢
      cases hslot : slots[i] with
      | none => rfl
      | some node => simp [hslot] at hvacant
    -- An empty slot is not behind all holes, so its index is as small as they are.
    obtain ⟨hole, hhole, hle⟩ := hempty i hnone
    have hhole := hholes hole hhole
    omega
  case link =>
    intro e l he
    rw [hlinkSlots, Pool.get?_ofSlots, List.getElem?_toArray, Option.join_eq_some_iff] at he
    exact hlinks l (List.mem_of_getElem? he)
  case op =>
    intro n node hn
    rw [node?, hnodeSlots, Pool.get?_ofSlots, List.getElem?_toArray, Option.join_eq_some_iff] at hn
    exact hnodes node (hitems node (List.mem_of_getElem? hn))

theorem writable_of_ofJson? {json : Json} {g : Network Node Nat}
    (h : Network.ofJson? json = some g) : g.Writable := by
  unfold Network.ofJson? at h
  split at h
  · next nodesJson holesJson direction linksJson hfields =>
      obtain ⟨nodes, hnodes, h⟩ := Option.bind_eq_some_iff.1 h
      -- What follows the holes is the same whether they are left out or not.
      have hrest {holes : List Nat} (hholes : ∀ i ∈ holes, i < UInt32.size)
          (h : (do
            let links ← linksJson.list? Link.slotOfJson?
            if !isDirected direction then none
            let slots ← Pool.spread? (nodes.length + holes.length) 0 holes nodes
            ofSlots? slots.toArray links.toArray) = some g) : g.Writable := by
        obtain ⟨links, hlinks, h⟩ := Option.bind_eq_some_iff.1 h
        dsimp only at h
        split at h
        · cases h
        · obtain ⟨slots, hslots, h⟩ := Option.bind_eq_some_iff.1 h
          refine writable_of_ofSlots? hslots h hholes (fun l hl => ?_) (fun node hnode => ?_)
          · obtain ⟨item, hitem⟩ := Json.exists_of_mem_list? hlinks _ hl
            exact Link.writable_of_slotOfJson? hitem
          · obtain ⟨item, hitem⟩ := Json.exists_of_mem_list? hnodes _ hnode
            exact Node.writable_of_ofJson? hitem
      cases holesJson with
      | none => exact hrest (by simp) h
      | some holesJson =>
          obtain ⟨holes, hholes, h⟩ := Option.bind_eq_some_iff.1 h
          exact hrest (lt_of_mem_list?_nodeOfJson? hholes) h
  · cases h

end Network

namespace Dataflow

variable {g g' : Dataflow}

/-- What is read has no number that is too large to be read again. -/
theorem writable_of_read? {text : String} (h : read? text = some g) : g.Writable := by
  obtain ⟨json, -, h⟩ := Option.bind_eq_some_iff.1 h
  unfold ofJson? at h
  split at h
  · obtain ⟨network, hnetwork, h⟩ := Option.bind_eq_some_iff.1 h
    obtain ⟨inputs, hinputs, h⟩ := Option.bind_eq_some_iff.1 h
    obtain ⟨outputs, houtputs, h⟩ := Option.bind_eq_some_iff.1 h
    cases h
    exact ⟨Network.writable_of_ofJson? hnetwork, lt_of_mem_list?_nodeOfJson? hinputs,
      lt_of_mem_list?_nodeOfJson? houtputs⟩
  · cases h

/-! ## Numbers that edits bring in -/

/-- The nodes of a graph can be counted by words of 32 bits, as indices of nodes are, and its links
and inputs by words of 64 bits, as positions are. No graph can grow beyond that. -/
structure Addressable (g : Dataflow) : Prop where
  nodes_le : g.network.nodes.slots.size ≤ UInt32.size
  links_le : g.network.links.slots.size ≤ UInt64.size
  inputs_le : g.inputs.length ≤ UInt64.size

theorem Addressable.lt_of_hasNode (h : g.Addressable) {n : Nat} (hn : g.network.hasNode n = true) :
    n < UInt32.size := by
  obtain ⟨node, hnode⟩ := Pool.contains_iff.1 hn
  exact Nat.lt_of_lt_of_le (Pool.lt_size_of_get? hnode) h.nodes_le

/-- In such a graph it is left to look at what is not an index of a node that is there. -/
theorem Addressable.writable (h : g.Addressable)
    (hweights : ∀ l ∈ g.network.linkList, l.weight < UInt64.size)
    (hops : ∀ n node, g.network.node? n = some node → node.op.Writable)
    (hinputs : ∀ n ∈ g.inputs, n < UInt32.size) (houtputs : ∀ n ∈ g.outputs, n < UInt32.size) :
    g.Writable := by
  refine ⟨⟨fun i hi => ?_, fun e l he => ?_, hops⟩, hinputs, houtputs⟩
  · have hi : i < g.network.nodes.extent := List.mem_range.1 (List.mem_filter.1 hi).1
    exact Nat.lt_of_lt_of_le hi (Nat.le_trans g.network.nodes.extent_le_size h.nodes_le)
  · obtain ⟨hsource, htarget⟩ := g.network.ends_present e l he
    exact ⟨h.lt_of_hasNode hsource, h.lt_of_hasNode htarget,
      hweights l (Network.mem_linkList.2 ⟨e, he⟩)⟩

theorem Writable.weight_lt (h : g.Writable) : ∀ l ∈ g.network.linkList, l.weight < UInt64.size := by
  intro l hl
  obtain ⟨e, he⟩ := Network.mem_linkList.1 hl
  exact (h.network.link e l he).weight_lt

theorem weight_lt_of_mem_operandLinks {n position : Nat} {operands : List Nat} {l : Link Nat}
    (h : l ∈ operandLinks n operands position) : l.weight < position + operands.length := by
  obtain ⟨-, k, hk, hoperand⟩ := mem_operandLinks.1 h
  have hlt : k < operands.length := (List.getElem?_eq_some_iff.1 hoperand).1
  omega

/-- The positions of the links from new operands are small, since each of them is an index more. -/
theorem weight_lt_of_linkList_eq (haddressable : g'.Addressable) {n : Nat} {operands : List Nat}
    {links : List (Link Nat)}
    (hlinks : g'.network.linkList = (operandLinks n operands 0).reverse ++ links)
    (hold : ∀ l ∈ links, l.weight < UInt64.size) :
    ∀ l ∈ g'.network.linkList, l.weight < UInt64.size := by
  intro l hl
  rw [hlinks] at hl
  rcases List.mem_append.1 hl with hl | hl
  · have hlength : (operandLinks n operands 0).length = operands.length := by
      rw [← List.length_map, map_source_operandLinks]
    calc l.weight
        < 0 + operands.length := weight_lt_of_mem_operandLinks (List.mem_reverse.1 hl)
      _ ≤ g'.network.linkList.length := by
          rw [hlinks, List.length_append, List.length_reverse, hlength]
          omega
      _ ≤ UInt64.size := Nat.le_trans g'.network.length_linkList_le haddressable.links_le
  · exact hold l hl

end Dataflow

/-! ## Edits -/

theorem AnyCall.Encodable.op_writable {c : AnyCall} (h : c.Encodable) {op : NodeOp}
    (hop : c.op? = some op) : op.Writable := by
  rintro name index rfl
  cases c with
  | operation op operands output =>
      cases hop
      exact h
  | input name output => cases hop
  | constant payload output => cases hop
  | lookup table operand output => cases hop
  | output n => cases hop

/-- The number that an edit gives for the position of an input is a word. -/
def Edit.Encodable : Edit → Prop
  | .call c => c.Encodable
  | .remove _ => True

namespace Dataflow

variable {g g' : Dataflow}

/-- A call keeps a graph writable. -/
theorem CallEffect.writable {c : AnyCall} (heffect : CallEffect c g g') (h : g.Writable)
    (hc : c.Encodable) (haddressable : g'.Addressable) : g'.Writable := by
  cases heffect with
  | fails hfails => exact hfails ▸ h
  | lists hn hlists =>
      subst hlists
      have hnew := haddressable.lt_of_hasNode hn
      exact ⟨h.network, h.inputs_lt,
        List.forall_mem_append.2 ⟨h.outputs_lt, List.forall_mem_singleton.2 hnew⟩⟩
  | @grows node operands hgrows hlinks _ hinputs houtputs =>
      have hweights := weight_lt_of_linkList_eq haddressable hlinks h.weight_lt
      have houtputs : ∀ n ∈ g'.outputs, n < UInt32.size := houtputs ▸ h.outputs_lt
      rcases hinputs with ⟨hcall, hlisted⟩ | ⟨⟨name, output, rfl⟩, hlisted⟩
      · have hops := hgrows.forall_node (hc.op_writable hcall) h.network.op
        exact haddressable.writable hweights hops (hlisted ▸ h.inputs_lt) houtputs
      · -- The position of a listed input is the number of those before it.
        have hposition : (NodeOp.input name g.inputs.length).Writable := by
          rintro _ _ ⟨⟩
          have hcount := haddressable.inputs_le
          rw [hlisted, List.length_append, List.length_singleton] at hcount
          exact hcount
        have hops := hgrows.forall_node (P := fun node => node.op.Writable) hposition h.network.op
        refine haddressable.writable hweights hops ?_ houtputs
        rw [hlisted]
        have hnew := haddressable.lt_of_hasNode hgrows.hasNode_next
        exact List.forall_mem_append.2 ⟨h.inputs_lt, List.forall_mem_singleton.2 hnew⟩

theorem Writable.removeNode (h : g.Writable) {n : Nat}
    (haddressable : (g.removeNode n).Addressable) : (g.removeNode n).Writable := by
  refine haddressable.writable (fun l hl => ?_) (fun m node hm => ?_) h.inputs_lt h.outputs_lt
  · exact h.weight_lt l (Network.mem_linkList_of_removeNode hl)
  · have hm : (g.network.nodes.remove n).get? m = some node := hm
    rw [Pool.get?_remove] at hm
    split at hm
    · cases hm
    · exact h.network.op m node hm

/-- The graphs that encodable edits make from nothing or from a graph that was read, as long as
there are indices for what they add. -/
inductive Reached : Dataflow → Prop
  | empty : Reached .empty
  | read {text : String} {g : Dataflow} (h : read? text = some g) : Reached g
  | step {g : Dataflow} {e : Edit} (h : Reached g) (he : e.Encodable)
      (haddressable : (g.edit e).Addressable) : Reached (g.edit e)

theorem writable_empty : Writable .empty := by
  have haddressable : Addressable .empty := ⟨Nat.zero_le _, Nat.zero_le _, Nat.zero_le _⟩
  refine haddressable.writable (fun l hl => ?_) (fun n node hn => ?_) (fun n hn => ?_)
    (fun n hn => ?_)
  · cases hl
  · simp [empty, Network.empty, Network.node?, Pool.get?, Pool.empty] at hn
  · cases hn
  · cases hn

theorem Reached.writable (h : g.Reached) : g.Writable := by
  induction h with
  | empty => exact writable_empty
  | read h => exact writable_of_read? h
  | @step g e _ he haddressable ih =>
      cases e with
      | call c => exact (g.callEffect_anyCall c).writable ih he haddressable
      | remove n => exact ih.removeNode haddressable

end Dataflow

/-! ## Runs of edits -/

namespace Pool

variable {α : Type}

theorem size_le_size_add (p : Pool α) (a : α) : p.slots.size ≤ (p.add a).slots.size := by
  rw [size_add]
  exact Nat.le_add_right _ _

@[simp] theorem size_remove (p : Pool α) (i : Nat) : (p.remove i).slots.size = p.slots.size := by
  unfold remove
  split
  · exact Array.size_setIfInBounds
  · rfl

end Pool

namespace Network

variable {ν ω : Type}

theorem size_links_le_addLink (g : Network ν ω) (l : Link ω) :
    g.links.slots.size ≤ (g.addLink l).links.slots.size := by
  unfold addLink
  split
  · exact g.links.size_le_size_add l
  · exact Nat.le_refl _

theorem size_links_removeLinks (g : Network ν ω) (es : List Nat) :
    (g.removeLinks es).links.slots.size = g.links.slots.size := by
  induction es generalizing g with
  | nil => rfl
  | cons e es ih => exact (ih (g.removeLink e)).trans (g.links.size_remove e)

theorem size_links_removeNode (g : Network ν ω) (n : Nat) :
    (g.removeNode n).links.slots.size = g.links.slots.size := by
  show (g.isolate n).links.slots.size = g.links.slots.size
  rw [isolate, size_links_removeLinks, size_links_removeLinks]

end Network

namespace Dataflow

variable {g : Dataflow}

theorem size_links_le_linkOperands (g : Dataflow) (n : Nat) (operands : List Nat) (position : Nat) :
    g.network.links.slots.size
      ≤ (g.linkOperands n operands position).network.links.slots.size := by
  induction operands generalizing g position with
  | nil => exact Nat.le_refl _
  | cons operand rest ih =>
      refine Nat.le_trans (g.network.size_links_le_addLink ⟨operand, n, position⟩) ?_
      exact ih { g with network := g.network.addLink ⟨operand, n, position⟩ } (position + 1)

theorem size_links_le_operation (g : Dataflow) (op : NodeOp) (operands : List Nat)
    (output : Descriptor) : g.network.links.slots.size
      ≤ ((Build.operation op operands output).after g).network.links.slots.size := by
  cases hinputs : operands.mapM g.firstOutput with
  | error e => rw [after_operation_of_error hinputs]
  | ok inputs =>
      rw [after_operation_of_ok op output hinputs]
      exact (g.addNode ⟨op, inputs, [output]⟩).size_links_le_linkOperands _ operands 0

theorem size_links_le_anyCall (g : Dataflow) (c : AnyCall) :
    g.network.links.slots.size ≤ (g.anyCall c).network.links.slots.size := by
  cases c with
  | input name output => exact Nat.le_refl _
  | constant payload output => exact g.size_links_le_operation (.constant payload) [] output
  | operation op operands output => exact g.size_links_le_operation op operands output
  | lookup table operand output => exact g.size_links_le_operation (.lookup table) [operand] output
  | output n =>
      show _ ≤ ((Build.output n).after g).network.links.slots.size
      rw [after_output]
      split <;> exact Nat.le_refl _

/-- No index and no listed input is given up, so what can be counted after an edit could be counted
before. -/
theorem Addressable.of_edit {e : Edit} (h : (g.edit e).Addressable) : g.Addressable := by
  cases e with
  | remove n =>
      refine ⟨?_, ?_, h.inputs_le⟩
      · rw [← g.network.nodes.size_remove n]
        exact h.nodes_le
      · rw [← g.network.size_links_removeNode n]
        exact h.links_le
  | call c =>
      have hlinks := Nat.le_trans (g.size_links_le_anyCall c) h.links_le
      have hnodes := h.nodes_le
      have hinputs := h.inputs_le
      have hedit : g.edit (.call c) = g.anyCall c := rfl
      rw [hedit] at hnodes hinputs
      cases g.callEffect_anyCall c with
      | fails hfails =>
          rw [hfails] at hnodes hinputs
          exact ⟨hnodes, hlinks, hinputs⟩
      | lists _ hlists =>
          rw [hlists] at hnodes hinputs
          exact ⟨hnodes, hlinks, hinputs⟩
      | @grows node _ hgrows _ _ hlisted _ =>
          rw [hgrows.nodes_eq] at hnodes
          refine ⟨Nat.le_trans (g.network.nodes.size_le_size_add node) hnodes, hlinks, ?_⟩
          rcases hlisted with ⟨-, hlisted⟩ | ⟨-, hlisted⟩
          · rwa [hlisted] at hinputs
          · rw [hlisted, List.length_append] at hinputs
            omega

/-- All that edits make is reached, if what they make in the end can be counted. -/
theorem Reached.foldl_edit {edits : List Edit} (h : g.Reached) (hedits : ∀ e ∈ edits, e.Encodable)
    (haddressable : (edits.foldl edit g).Addressable) : (edits.foldl edit g).Reached := by
  have hfirst {edits : List Edit} : ∀ g : Dataflow,
      (edits.foldl edit g).Addressable → g.Addressable := by
    induction edits with
    | nil => exact fun g h => h
    | cons e edits ih => exact fun g h => (ih (g.edit e) h).of_edit
  induction edits generalizing g with
  | nil => exact h
  | cons e edits ih =>
      rw [List.forall_mem_cons] at hedits
      exact ih (h.step hedits.1 (hfirst _ haddressable)) hedits.2 haddressable

end Dataflow

end CipherFlow
