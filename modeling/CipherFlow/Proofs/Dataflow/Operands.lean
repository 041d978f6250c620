import CipherFlow.Dataflow.Basic
import Mathlib.Data.List.Basic

/-!
# The operands of a new node

Linking operands to a node adds one link for each, with the positions in order. Main statement: the
operands of a new node are read back in the order in which they were given, and those of the other
nodes stay (`Dataflow.operands_linkOperands`).
-/

set_option autoImplicit false

namespace CipherFlow

namespace Network

variable {ν ω : Type} {g : Network ν ω} {l : Link ω}

theorem nodes_addLink (g : Network ν ω) (l : Link ω) : (g.addLink l).nodes = g.nodes := by
  unfold addLink
  split <;> rfl

/-- A link between nodes that are present comes before the links there were. -/
theorem linkList_addLink (hs : g.hasNode l.source = true) (ht : g.hasNode l.target = true) :
    (g.addLink l).linkList = l :: g.linkList := by
  have hlinks : (g.addLink l).links = g.links.add l ∧
      (g.addLink l).recent = g.links.next :: g.recent := by
    unfold addLink
    rw [dif_pos ⟨hs, ht⟩]
    exact ⟨rfl, rfl⟩
  unfold linkList
  rw [hlinks.1, hlinks.2, List.filterMap_cons, Pool.get?_add, if_pos rfl]
  refine congrArg (l :: ·) (List.filterMap_congr fun e he => ?_)
  rw [Pool.get?_add, if_neg]
  rintro rfl
  rw [g.mem_recent, Pool.contains, g.links.get?_next] at he
  cases he

/-- No link leads to the node that comes next. -/
theorem target_ne_next (g : Network ν ω) : ∀ l ∈ g.linkList, l.target ≠ g.nodes.next := by
  intro l h
  obtain ⟨e, he⟩ := mem_linkList.1 h
  have ht := (g.ends_present e l he).2
  intro htarget
  rw [htarget, Pool.contains, Pool.get?_next] at ht
  cases ht

end Network

namespace Dataflow

variable {g : Dataflow}

theorem mem_operands_iff {n m : Nat} : m ∈ g.operands n ↔ m ∈ g.network.predecessors n := by
  rw [operands, mem_operandsAmong, Network.mem_predecessors]

theorem operands_next (g : Dataflow) : g.operands g.network.nodes.next = [] :=
  operandsAmong_eq_nil g.network.target_ne_next

/-! ## Linking -/

theorem linkOperands_spec {n : Nat} {operands : List Nat} (position : Nat)
    (hn : g.network.hasNode n = true)
    (hoperands : ∀ m ∈ operands, g.network.hasNode m = true) :
    (g.linkOperands n operands position).network.linkList
        = (operandLinks n operands position).reverse ++ g.network.linkList ∧
      (g.linkOperands n operands position).network.nodes = g.network.nodes ∧
      (g.linkOperands n operands position).inputs = g.inputs ∧
      (g.linkOperands n operands position).outputs = g.outputs := by
  induction operands generalizing g position with
  | nil => exact ⟨rfl, rfl, rfl, rfl⟩
  | cons operand rest ih =>
      -- A link changes no node, so what is present stays so for the links that follow.
      have hnodes := g.network.nodes_addLink ⟨operand, n, position⟩
      have hhas (m : Nat) : (g.network.addLink ⟨operand, n, position⟩).hasNode m
          = g.network.hasNode m := by
        rw [Network.hasNode, hnodes, Network.hasNode]
      rw [List.forall_mem_cons] at hoperands
      have hlinks := Network.linkList_addLink (l := ⟨operand, n, position⟩) hoperands.1 hn
      obtain ⟨hlist, hnodes', hinputs, houtputs⟩ :=
        ih (g := { g with network := g.network.addLink ⟨operand, n, position⟩ }) (position + 1)
          (by rw [hhas, hn]) (fun m hm => by rw [hhas, hoperands.2 m hm])
      refine ⟨?_, hnodes'.trans hnodes, hinputs, houtputs⟩
      rw [linkOperands, hlist, hlinks, operandLinks, List.reverse_cons, List.append_assoc]
      rfl

/-- The operands of a new node are the given ones in order, and those of other nodes stay. -/
theorem operands_linkOperands {n : Nat} {operands : List Nat} (hn : g.network.hasNode n = true)
    (hoperands : ∀ m ∈ operands, g.network.hasNode m = true)
    (hnew : ∀ l ∈ g.network.linkList, l.target ≠ n) (m : Nat) :
    (g.linkOperands n operands 0).operands m = if m = n then operands else g.operands m := by
  have hlist := (linkOperands_spec 0 hn hoperands).1
  -- The new links come first, the last of them in front.
  have hperm : (g.linkOperands n operands 0).network.linkList.Perm
      (g.network.linkList ++ operandLinks n operands 0) := by
    rw [hlist]
    exact List.perm_append_comm.trans ((List.reverse_perm _).append_left _)
  rw [Dataflow.operands, operandsAmong_eq_of_perm hperm, operandsAmong_append hnew]
  rfl

/-- The links from a node among those from operands lead to the new node, one for each time that the
node is an operand. -/
theorem map_target_filter_operandLinks (n : Nat) (operands : List Nat) (position m : Nat) :
    ((operandLinks n operands position).filter fun l => l.source == m).map (·.target)
      = List.replicate (operands.count m) n := by
  induction operands generalizing position with
  | nil => rfl
  | cons operand rest ih =>
      rw [operandLinks, List.filter_cons, List.count_cons]
      by_cases hm : operand = m
      · simp [hm, ih, List.replicate_succ]
      · simp [hm, ih]

/-- An operand has the new node before the successors it had, once for each time that it is an
operand. -/
theorem successors_linkOperands {n : Nat} {operands : List Nat} (hn : g.network.hasNode n = true)
    (hoperands : ∀ m ∈ operands, g.network.hasNode m = true) (m : Nat) :
    (g.linkOperands n operands 0).network.successors m
      = List.replicate (operands.count m) n ++ g.network.successors m := by
  have hlist := (linkOperands_spec 0 hn hoperands).1
  rw [Network.successors, Network.linksFrom, hlist, List.filter_append, List.map_append,
    List.filter_reverse, List.map_reverse, map_target_filter_operandLinks, List.reverse_replicate]
  rfl

end Dataflow

end CipherFlow
