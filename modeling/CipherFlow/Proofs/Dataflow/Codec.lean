import CipherFlow.Dataflow.Codec
import CipherFlow.Proofs.Json.RoundTrip
import CipherFlow.Proofs.Network.Order
import Mathlib.Data.List.Basic

/-!
# Dataflow graphs read back

What is written for a graph is read back as the graph of its slots up to the last node and the last
link, if all numbers that are written are words of the size that the format has for them
(`Dataflow.Writable`). The items and the vacant indices of a pool, listed apart, determine its slots
(`Pool.spread?_vacancies`). Main statement: `Dataflow.read?_write`.
-/

set_option autoImplicit false

namespace CipherFlow

/-! ## Slots -/

namespace Pool

variable {α : Type}

/-- The indices of the empty slots, where the first slot has the index `start`. -/
def vacancies : (start : Nat) → List (Option α) → List Nat
  | _, [] => []
  | start, none :: slots => start :: vacancies (start + 1) slots
  | start, some _ :: slots => vacancies (start + 1) slots

theorem bounds_of_mem_vacancies {start i : Nat} {slots : List (Option α)}
    (h : i ∈ vacancies start slots) : start ≤ i ∧ i < start + slots.length := by
  induction slots generalizing start with
  | nil => cases h
  | cons slot slots ih =>
      rw [List.length_cons]
      cases slot with
      | none =>
          rcases List.mem_cons.1 h with rfl | h
          · omega
          · have := ih h
            omega
      | some a =>
          have := ih h
          omega

theorem filterMap_id_none (slots : List (Option α)) :
    (none :: slots).filterMap id = slots.filterMap id := List.filterMap_cons_none rfl

theorem filterMap_id_some (a : α) (slots : List (Option α)) :
    (some a :: slots).filterMap id = a :: slots.filterMap id := List.filterMap_cons_some rfl

/-- The items and the empty slots are all slots. -/
theorem length_add_length_vacancies (start : Nat) (slots : List (Option α)) :
    (slots.filterMap id).length + (vacancies start slots).length = slots.length := by
  induction slots generalizing start with
  | nil => rfl
  | cons slot slots ih =>
      have := ih (start + 1)
      cases slot with
      | none =>
          rw [filterMap_id_none, vacancies, List.length_cons, List.length_cons]
          omega
      | some a =>
          rw [filterMap_id_some, vacancies, List.length_cons, List.length_cons]
          omega

/-- Items and vacant indices that are listed apart are put together again. -/
theorem spread?_vacancies {total start : Nat} {slots : List (Option α)}
    (h : start + slots.length ≤ total) :
    spread? total start (vacancies start slots) (slots.filterMap id) = some slots := by
  induction slots generalizing start with
  | nil => rfl
  | cons slot slots ih =>
      rw [List.length_cons] at h
      have hrest := @ih (start + 1) (by omega)
      cases slot with
      | none =>
          rw [filterMap_id_none, vacancies, spread?, if_pos (by omega), Nat.sub_self,
            List.drop_zero, hrest]
          rfl
      | some a =>
          rw [filterMap_id_some, vacancies]
          cases hv : vacancies (start + 1) slots with
          | nil =>
              rw [hv, spread?] at hrest
              rw [spread?, List.map_cons, Option.some.inj hrest]
          | cons hole holes =>
              -- The item stands in front of those that fill the indices up to the hole.
              have hbounds := bounds_of_mem_vacancies (hv ▸ List.mem_cons_self)
              have hgap : hole - start = hole - (start + 1) + 1 := by omega
              rw [hv, spread?, if_pos (by omega)] at hrest
              rw [spread?, if_pos (by omega), hgap, List.drop_succ_cons, List.take_succ_cons]
              obtain ⟨tail, htail, hslots⟩ := Option.bind_eq_some_iff.1 hrest
              rw [htail]
              exact congrArg (fun rest => some (some a :: rest)) (Option.some.inj hslots)

/-! ## Pools -/

variable {p : Pool α}

theorem pairwise_indices (p : Pool α) : p.indices.Pairwise (· < ·) :=
  List.pairwise_lt_range.filter _

theorem extent_le_size (p : Pool α) : p.extent ≤ p.slots.size := by
  unfold extent
  cases hlast : p.indices.getLast? with
  | none => exact Nat.zero_le _
  | some i =>
      obtain ⟨a, ha⟩ := contains_iff.1 (mem_indices.1 (List.mem_of_getLast? hlast))
      exact lt_size_of_get? ha

/-- No item lies behind the last. -/
theorem lt_extent_of_get? {i : Nat} {a : α} (h : p.get? i = some a) : i < p.extent := by
  have hi : i ∈ p.indices := mem_indices.2 (contains_iff.2 ⟨a, h⟩)
  obtain ⟨before, last, hsplit⟩ : ∃ before last, p.indices = before ++ [last] :=
    (List.eq_nil_or_concat' p.indices).resolve_left (List.ne_nil_of_mem hi)
  have hle : i ≤ last := by
    have hsorted := p.pairwise_indices
    rw [hsplit] at hi hsorted
    rcases List.mem_append.1 hi with hi | hi
    · exact Nat.le_of_lt ((List.pairwise_append.1 hsorted).2.2 i hi last List.mem_cons_self)
    · exact Nat.le_of_eq (List.mem_singleton.1 hi)
  rw [extent, hsplit, List.getLast?_concat]
  exact Nat.lt_succ_of_le hle

theorem filterMap_range_of_le {f : Nat → Option α} {m n : Nat} (hle : m ≤ n)
    (h : ∀ i, m ≤ i → f i = none) : (List.range n).filterMap f = (List.range m).filterMap f := by
  induction hle with
  | refl => rfl
  | @step n hmn ih =>
      rw [List.range_succ, List.filterMap_append, ih, List.filterMap_cons_none (h n hmn),
        List.filterMap_nil, List.append_nil]

theorem items_eq (p : Pool α) : p.items = p.prefixSlots.filterMap id := by
  have hbehind (i : Nat) (hi : p.extent ≤ i) : p.get? i = none := by
    rw [Option.eq_none_iff_forall_ne_some]
    exact fun a ha => Nat.not_lt.2 hi (lt_extent_of_get? ha)
  calc p.items
      = (List.range p.slots.size).filterMap p.get? := by
        rw [items, indices, List.filterMap_filter]
        refine List.filterMap_congr fun i _ => ?_
        cases hi : p.get? i <;> simp [contains, hi]
    _ = (List.range p.extent).filterMap p.get? := filterMap_range_of_le p.extent_le_size hbehind
    _ = p.prefixSlots.filterMap id := by
        rw [prefixSlots, List.filterMap_map]
        rfl

theorem vacancies_map_range' (f : Nat → Option α) (start n : Nat) :
    vacancies start ((List.range' start n).map f)
      = (List.range' start n).filter fun i => !(f i).isSome := by
  induction n generalizing start with
  | zero => rfl
  | succ n ih =>
      rw [List.range'_succ, List.map_cons]
      cases hf : f start with
      | none => rw [vacancies, ih, List.filter_cons_of_pos (by simp [hf])]
      | some a => rw [vacancies, ih, List.filter_cons_of_neg (by simp [hf])]

theorem holes_eq (p : Pool α) : p.holes = vacancies 0 p.prefixSlots := by
  rw [prefixSlots, holes, List.range_eq_range', vacancies_map_range']
  rfl

/-- The items and the holes of a pool determine its slots up to the last item. -/
theorem spread?_items (p : Pool α) :
    spread? (p.items.length + p.holes.length) 0 p.holes p.items = some p.prefixSlots := by
  rw [items_eq, holes_eq, length_add_length_vacancies]
  exact spread?_vacancies (Nat.le_of_eq (Nat.zero_add _))

end Pool

/-! ## Links -/

theorem nodeOfJson?_natural {n : Nat} (h : n < UInt32.size) :
    nodeOfJson? (.natural n) = some n := Json.below?_natural h

theorem list?_nodeOfJson? {ns : List Nat} (h : ∀ n ∈ ns, n < UInt32.size) :
    Json.list? nodeOfJson? (.ofList .natural ns) = some ns :=
  Json.list?_ofList fun n hn => nodeOfJson?_natural (h n hn)

/-- The numbers in a link are words of the size that the format has for them. -/
structure Link.Writable (l : Link Nat) : Prop where
  source_lt : l.source < UInt32.size
  target_lt : l.target < UInt32.size
  weight_lt : l.weight < UInt64.size

theorem Link.slotOfJson?_slotToJson {slot : Option (Link Nat)}
    (h : ∀ l, slot = some l → l.Writable) : slotOfJson? (slotToJson slot) = some slot := by
  cases slot with
  | none => rfl
  | some l =>
      obtain ⟨hsource, htarget, hweight⟩ := h l rfl
      have hlink : Link.ofJson? l.toJson = some l := by
        simp only [toJson, Link.ofJson?, nodeOfJson?_natural hsource, nodeOfJson?_natural htarget,
          Json.below?_natural hweight, Option.bind_eq_bind, Option.bind_some]
        rfl
      show some <$> Link.ofJson? l.toJson = _
      rw [hlink]
      rfl

/-! ## Networks -/

/-- The networks whose numbers are words of the size that the format has for them. -/
structure Network.Encodable (g : Network Node Nat) : Prop where
  extent_le : g.nodes.extent ≤ UInt32.size
  weight_lt : ∀ e l, g.links.get? e = some l → l.weight < UInt64.size
  position_lt : ∀ n node, g.node? n = some node →
    ∀ name index, node.op = .input name index → index < UInt64.size

/-- The position of an input is a word of the size that the format has for it. -/
def NodeOp.Writable (op : NodeOp) : Prop :=
  ∀ name index, op = .input name index → index < UInt64.size

/-- The networks for which no number is written that is too large to be read. The index of a node is
written only where a link has it for an end. -/
structure Network.Writable (g : Network Node Nat) : Prop where
  hole_lt : ∀ i ∈ g.nodes.holes, i < UInt32.size
  link : ∀ e l, g.links.get? e = some l → l.Writable
  op : ∀ n node, g.node? n = some node → node.op.Writable

namespace Network

variable {g : Network Node Nat}

theorem Encodable.lt_of_hasNode (h : g.Encodable) {n : Nat} (hn : g.hasNode n = true) :
    n < UInt32.size := by
  obtain ⟨node, hnode⟩ := Pool.contains_iff.1 hn
  exact Nat.lt_of_lt_of_le (Pool.lt_extent_of_get? hnode) h.extent_le

theorem Encodable.writable (h : g.Encodable) : g.Writable where
  hole_lt := by
    intro i hi
    have hi := List.mem_range.1 (List.mem_filter.1 hi).1
    exact Nat.lt_of_lt_of_le hi h.extent_le
  link := by
    intro e l he
    obtain ⟨hsource, htarget⟩ := g.ends_present e l he
    exact ⟨h.lt_of_hasNode hsource, h.lt_of_hasNode htarget, h.weight_lt e l he⟩
  op := h.position_lt

theorem list?_nodes (h : g.Writable) :
    Json.list? Node.ofJson? (.ofList Node.toJson g.nodes.items) = some g.nodes.items := by
  refine Json.list?_ofList fun node hnode => Node.ofJson?_toJson ?_
  obtain ⟨n, -, hn⟩ := List.mem_filterMap.1 hnode
  exact h.op n node hn

theorem list?_holes (h : g.Writable) :
    Json.list? nodeOfJson? (.ofList .natural g.nodes.holes) = some g.nodes.holes :=
  list?_nodeOfJson? h.hole_lt

theorem list?_links (h : g.Writable) :
    Json.list? Link.slotOfJson? (.ofList Link.slotToJson g.links.prefixSlots)
      = some g.links.prefixSlots := by
  refine Json.list?_ofList fun slot hslot => Link.slotOfJson?_slotToJson ?_
  rintro l rfl
  obtain ⟨e, -, he⟩ := List.mem_map.1 hslot
  exact h.link e l he

/-- A network is read back as that of its slots up to the last node and the last link. -/
theorem ofJson?_toJson (h : g.Writable) :
    Network.ofJson? g.toJson
      = ofSlots? g.nodes.prefixSlots.toArray g.links.prefixSlots.toArray := by
  have hfields : g.toJson.fields? ["nodes", "node_holes", "edge_property", "edges"]
      = some [some (.ofList Node.toJson g.nodes.items), some (.ofList .natural g.nodes.holes),
          some (.text "directed"), some (.ofList Link.slotToJson g.links.prefixSlots)] := by
    simp [toJson, Json.record, Json.fields?, Json.member?]
  have hdirected : isDirected (.text "directed") = true := by decide
  rw [ofJson?, hfields]
  simp only [list?_nodes h, list?_holes h, list?_links h, hdirected, Pool.spread?_items,
    Option.bind_eq_bind, Option.bind_some]
  rfl

end Network

/-! ## Graphs -/

namespace Dataflow

variable {g : Dataflow}

/-- The graphs whose numbers are words of the size that the format has for them. -/
structure Encodable (g : Dataflow) : Prop where
  network : g.network.Encodable
  inputs_lt : ∀ n ∈ g.inputs, n < UInt32.size
  outputs_lt : ∀ n ∈ g.outputs, n < UInt32.size

/-- The graphs for which no number is written that is too large to be read. -/
structure Writable (g : Dataflow) : Prop where
  network : g.network.Writable
  inputs_lt : ∀ n ∈ g.inputs, n < UInt32.size
  outputs_lt : ∀ n ∈ g.outputs, n < UInt32.size

theorem Encodable.writable (h : g.Encodable) : g.Writable :=
  ⟨h.network.writable, h.inputs_lt, h.outputs_lt⟩

/-- A graph is read back from its text as that of the slots of its network up to the last node and
the last link. -/
theorem read?_write (h : g.Writable) :
    read? g.write
      = (Network.ofSlots? g.network.nodes.prefixSlots.toArray
          g.network.links.prefixSlots.toArray).map fun network =>
          ⟨network, g.inputs, g.outputs⟩ := by
  have hfields : g.toJson.record? ["graph", "inputs", "outputs"]
      = some [g.network.toJson, .ofList .natural g.inputs, .ofList .natural g.outputs] := by
    simp [toJson, Json.record, Json.record?, Json.fields?, Json.member?]
  rw [read?, write, Json.parse_compress, Option.bind_some, ofJson?, hfields]
  simp only [Network.ofJson?_toJson h.network, list?_nodeOfJson? h.inputs_lt,
    list?_nodeOfJson? h.outputs_lt, Option.bind_eq_bind, Option.bind_some]
  rw [Option.map_eq_bind]
  rfl

end Dataflow

/-! ## Without vacancies -/

namespace Pool

variable {α : Type} {p : Pool α}

theorem exists_slot_eq_some (h : p.vacant = []) {i : Nat} (hi : i < p.slots.size) :
    ∃ a, p.slots[i]? = some (some a) := by
  rcases contains_or_mem_vacant hi with hi | hi
  · obtain ⟨a, ha⟩ := contains_iff.1 hi
    exact ⟨a, get?_eq_some_iff.1 ha⟩
  · rw [h] at hi
    cases hi

theorem extent_eq_size (h : p.vacant = []) : p.extent = p.slots.size := by
  refine Nat.le_antisymm p.extent_le_size (Nat.le_of_not_lt fun hlt => ?_)
  obtain ⟨a, ha⟩ := exists_slot_eq_some h hlt
  exact Nat.lt_irrefl _ (lt_extent_of_get? (get?_eq_some_iff.2 ha))

theorem toArray_prefixSlots (h : p.vacant = []) : p.prefixSlots.toArray = p.slots := by
  refine Array.ext_getElem? fun i => ?_
  rw [List.getElem?_toArray, prefixSlots, extent_eq_size h, List.getElem?_map]
  by_cases hi : i < p.slots.size
  · obtain ⟨a, ha⟩ := exists_slot_eq_some h hi
    rw [List.getElem?_range hi, Option.map_some, get?, ha]
    rfl
  · rw [List.getElem?_eq_none (by simpa using hi), Array.getElem?_eq_none (by simpa using hi)]
    rfl

theorem ofSlots_slots (h : p.vacant = []) : ofSlots p.slots = p := by
  have hnone : ((List.range p.slots.size).filter fun i => p.slots[i]?.any Option.isNone) = [] := by
    refine List.filter_eq_nil_iff.2 fun i hi => ?_
    obtain ⟨a, ha⟩ := exists_slot_eq_some h (List.mem_range.1 hi)
    simp [ha]
  exact Pool.ext rfl ((congrArg List.reverse hnone).trans h.symm)

theorem indices_eq_range (h : p.vacant = []) : p.indices = List.range p.slots.size := by
  refine List.filter_eq_self.2 fun i hi => ?_
  obtain ⟨a, ha⟩ := exists_slot_eq_some h (List.mem_range.1 hi)
  exact contains_iff.2 ⟨a, get?_eq_some_iff.2 ha⟩

end Pool

/-- The networks in which no index is vacant and the links were added in the order of their
indices. -/
structure Network.Compact {ν ω : Type} (g : Network ν ω) : Prop where
  nodes_vacant : g.nodes.vacant = []
  links_vacant : g.links.vacant = []
  recent_eq : g.recent = (List.range g.links.slots.size).reverse

/-- Such a network is determined by its slots. -/
theorem Network.Compact.ofSlots?_slots {ν ω : Type} {g : Network ν ω} (h : g.Compact) :
    ofSlots? g.nodes.slots g.links.slots = some g := by
  have hends : ∀ l ∈ g.links.slots.toList.filterMap id,
      (Pool.ofSlots g.nodes.slots).contains l.source = true ∧
        (Pool.ofSlots g.nodes.slots).contains l.target = true := by
    intro l hl
    rw [Pool.ofSlots_slots h.nodes_vacant]
    obtain ⟨slot, hslot, rfl⟩ := List.mem_filterMap.1 hl
    obtain ⟨e, he⟩ := List.mem_iff_getElem?.1 hslot
    rw [Array.getElem?_toList] at he
    exact g.ends_present e l (Pool.get?_eq_some_iff.2 he)
  rw [ofSlots?, dif_pos hends]
  refine congrArg some (Network.ext ?_ ?_ ?_)
  · exact Pool.ofSlots_slots h.nodes_vacant
  · exact Pool.ofSlots_slots h.links_vacant
  · show (Pool.ofSlots g.links.slots).indices.reverse = g.recent
    rw [Pool.ofSlots_slots h.links_vacant, Pool.indices_eq_range h.links_vacant, h.recent_eq]

/-- A graph without vacancies is read back as it is. -/
theorem Dataflow.read?_write_of_compact {g : Dataflow} (h : g.Encodable)
    (hcompact : g.network.Compact) : read? g.write = some g := by
  rw [read?_write h.writable, Pool.toArray_prefixSlots hcompact.nodes_vacant,
    Pool.toArray_prefixSlots hcompact.links_vacant, hcompact.ofSlots?_slots]
  rfl

end CipherFlow
