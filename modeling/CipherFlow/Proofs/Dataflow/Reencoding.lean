import CipherFlow.Proofs.Dataflow.Writable

/-!
# Graphs written again

A graph that is read back from its own text has its nodes and links under the same indices, but the
vacant indices behind the last node and the last link are lost, and so are the orders in which links
were added and in which vacant indices are to be reused. Main statement: none of what is lost is
written or tells operands apart, so the graph that is read back has the same contents and the same
text (`Dataflow.Reached.exists_read?_write_eq`).
-/

set_option autoImplicit false

namespace CipherFlow

/-! ## Pools with the same items -/

namespace Pool

variable {α : Type} {p q : Pool α}

/-- The slots up to the last item hold all items. -/
theorem get?_ofSlots_prefixSlots (p : Pool α) (i : Nat) :
    (ofSlots p.prefixSlots.toArray).get? i = p.get? i := by
  rw [get?_ofSlots, List.getElem?_toArray, prefixSlots, List.getElem?_map]
  by_cases hi : i < p.extent
  · rw [List.getElem?_range hi]
    rfl
  · have hnone : p.get? i = none := by
      rw [Option.eq_none_iff_forall_ne_some]
      exact fun a ha => hi (lt_extent_of_get? ha)
    rw [List.getElem?_eq_none (by simpa using hi), hnone]
    rfl

theorem contains_eq_of_get?_eq (h : ∀ i, p.get? i = q.get? i) (i : Nat) :
    p.contains i = q.contains i := by
  rw [contains, contains, h]

theorem indices_eq_of_get?_eq (h : ∀ i, p.get? i = q.get? i) : p.indices = q.indices := by
  have hmem (i : Nat) : i ∈ p.indices ↔ i ∈ q.indices := by
    rw [mem_indices, mem_indices, contains_eq_of_get?_eq h]
  have hperm : p.indices.Perm q.indices :=
    (List.perm_ext_iff_of_nodup p.nodup_indices q.nodup_indices).2 hmem
  refine hperm.eq_of_pairwise (fun i j _ _ hij hji => ?_) p.pairwise_indices q.pairwise_indices
  omega

theorem extent_eq_of_get?_eq (h : ∀ i, p.get? i = q.get? i) : p.extent = q.extent := by
  rw [extent, extent, indices_eq_of_get?_eq h]

theorem items_eq_of_get?_eq (h : ∀ i, p.get? i = q.get? i) : p.items = q.items := by
  have hget : p.get? = q.get? := funext h
  rw [items, items, indices_eq_of_get?_eq h, hget]

theorem holes_eq_of_get?_eq (h : ∀ i, p.get? i = q.get? i) : p.holes = q.holes := by
  have hcontains : p.contains = q.contains := funext (contains_eq_of_get?_eq h)
  rw [holes, holes, extent_eq_of_get?_eq h, hcontains]

theorem prefixSlots_eq_of_get?_eq (h : ∀ i, p.get? i = q.get? i) :
    p.prefixSlots = q.prefixSlots := by
  have hget : p.get? = q.get? := funext h
  rw [prefixSlots, prefixSlots, extent_eq_of_get?_eq h, hget]

end Pool

/-! ## Networks with the same links -/

namespace Network

variable {ν ω : Type} {g g' : Network ν ω}

/-- The same links are listed, if in another order. -/
theorem linkList_perm (h : ∀ e, g.links.get? e = g'.links.get? e) :
    g.linkList.Perm g'.linkList := by
  have hget : g.links.get? = g'.links.get? := funext h
  have hrecent : g.recent.Perm g'.recent := by
    refine (List.perm_ext_iff_of_nodup g.nodup_recent g'.nodup_recent).2 fun e => ?_
    rw [g.mem_recent, g'.mem_recent, Pool.contains_eq_of_get?_eq h]
  rw [linkList, linkList, hget]
  exact hrecent.filterMap _

/-- The slots up to the last node and the last link make a network with all nodes and links. -/
theorem exists_ofSlots?_prefixSlots (g : Network ν ω) :
    ∃ g', ofSlots? g.nodes.prefixSlots.toArray g.links.prefixSlots.toArray = some g' ∧
      (∀ n, g.nodes.get? n = g'.nodes.get? n) ∧ ∀ e, g.links.get? e = g'.links.get? e := by
  have hends : ∀ l ∈ g.links.prefixSlots.toArray.toList.filterMap id,
      (Pool.ofSlots g.nodes.prefixSlots.toArray).contains l.source = true ∧
        (Pool.ofSlots g.nodes.prefixSlots.toArray).contains l.target = true := by
    intro l hl
    obtain ⟨slot, hslot, rfl⟩ := List.mem_filterMap.1 hl
    obtain ⟨e, -, he⟩ := List.mem_map.1 hslot
    simp only [Pool.contains_eq_of_get?_eq g.nodes.get?_ofSlots_prefixSlots]
    exact g.ends_present e l he
  refine ⟨_, dif_pos hends, fun n => ?_, fun e => ?_⟩
  · exact (g.nodes.get?_ofSlots_prefixSlots n).symm
  · exact (g.links.get?_ofSlots_prefixSlots e).symm

end Network

/-! ## Graphs with the same contents -/

namespace Dataflow

variable {g g' : Dataflow}

/-- Two graphs have the same nodes and links under the same indices, the same operands of each node,
and the same lists of inputs and outputs. -/
structure SameContents (g g' : Dataflow) : Prop where
  node?_eq : ∀ n, g.network.node? n = g'.network.node? n
  link?_eq : ∀ e, g.network.links.get? e = g'.network.links.get? e
  operands_eq : ∀ n, g.operands n = g'.operands n
  inputs_eq : g.inputs = g'.inputs
  outputs_eq : g.outputs = g'.outputs

/-- The operands of a node do not depend on the order in which links were added. -/
theorem operands_eq_of_link?_eq (h : ∀ e, g.network.links.get? e = g'.network.links.get? e)
    (n : Nat) : g.operands n = g'.operands n :=
  operandsAmong_eq_of_perm (Network.linkList_perm h) n

theorem SameContents.write_eq (h : g.SameContents g') : g.write = g'.write := by
  rw [write, write, toJson, toJson, Network.toJson, Network.toJson,
    Pool.items_eq_of_get?_eq h.node?_eq, Pool.holes_eq_of_get?_eq h.node?_eq,
    Pool.prefixSlots_eq_of_get?_eq h.link?_eq, h.inputs_eq, h.outputs_eq]

theorem Writable.exists_read?_eq_some (h : g.Writable) :
    ∃ g', read? g.write = some g' ∧ g.SameContents g' := by
  obtain ⟨network, hnetwork, hnodes, hlinks⟩ := g.network.exists_ofSlots?_prefixSlots
  refine ⟨⟨network, g.inputs, g.outputs⟩, ?_, hnodes, hlinks, ?_, rfl, rfl⟩
  · rw [read?_write h, hnetwork, Option.map_some]
  · exact operands_eq_of_link?_eq hlinks

/-- A graph that is reached is read back from its text with the same contents, and its text stays
the same when it is written again. -/
theorem Reached.exists_read?_write_eq (h : g.Reached) :
    ∃ g', read? g.write = some g' ∧ g.SameContents g' ∧ g'.write = g.write := by
  obtain ⟨g', hread, hsame⟩ := h.writable.exists_read?_eq_some
  exact ⟨g', hread, hsame, hsame.write_eq.symm⟩

/-- A graph with a hole and a vacant index behind the last node, which is still listed as an output,
and with vacant indices in front of the only link and behind it. -/
theorem Reached.exists_read?_write_vacancies :
    let g := ofEdits
      [.call (.input "x" (.encryptedUnsigned 4)), .call (.constant (.scalar 3) (.clearUnsigned 4)),
        .remove 1, .call (.constant (.scalar (-5)) (.clearSigned 4)),
        .call (.operation .sub [1, 0] (.encryptedUnsigned 4)),
        .call (.operation .add [2, 2] (.encryptedUnsigned 5)), .call (.output 3),
        .call (.output 2), .remove 3, .remove 1]
    g.Reached ∧ g.network.nodes.indices = [0, 2] ∧ g.network.nodes.vacant = [1, 3] ∧
      g.network.links.slots = #[none, some ⟨0, 2, 1⟩, none, none] ∧ g.outputs = [3, 2] ∧
      ∃ g', read? g.write = some g' ∧ g.SameContents g' ∧ g'.write = g.write := by
  intro g
  have haddressable : g.Addressable := ⟨by decide, by decide, by decide⟩
  have hreached : g.Reached := by
    refine Reached.empty.foldl_edit ?_ haddressable
    simp [Edit.Encodable, AnyCall.Encodable]
  exact ⟨hreached, by decide, by decide, by decide, by decide, hreached.exists_read?_write_eq⟩

end Dataflow

end CipherFlow
