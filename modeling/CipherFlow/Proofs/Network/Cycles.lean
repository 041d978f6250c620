import CipherFlow.Proofs.Network.Order
import Mathlib.Data.Fintype.Card
import Mathlib.Data.Set.Finite.Basic
import Mathlib.Logic.Relation

/-!
# Cycles

A node is on a cycle if some way along links leads from it back to it, and behind a cycle if it is
on one or some way leads to it from one. Main statement: in a network, which has finitely many
nodes, a way back is endless only where it comes from a cycle (`grounded_iff_not_behindCycle`).
-/

set_option autoImplicit false

namespace CipherFlow

open Relation

namespace Network

variable {ν ω : Type} {g : Network ν ω} {m n : Nat}

/-- A link leads from the first node to the second. -/
def LeadsTo (g : Network ν ω) (m n : Nat) : Prop := m ∈ g.predecessors n

/-- Some way along links leads from the node back to it. -/
def OnCycle (g : Network ν ω) (n : Nat) : Prop := TransGen g.LeadsTo n n

/-- The node is on a cycle, or some way along links leads to it from one. -/
def BehindCycle (g : Network ν ω) (n : Nat) : Prop :=
  ∃ c, g.OnCycle c ∧ ReflTransGen g.LeadsTo c n

theorem OnCycle.behindCycle (h : g.OnCycle n) : g.BehindCycle n := ⟨n, h, .refl⟩

theorem hasNode_of_leadsTo (h : g.LeadsTo m n) : g.hasNode m = true ∧ g.hasNode n = true :=
  hasNode_of_mem_successors (mem_predecessors_iff_mem_successors.1 h)

/-- A node behind a cycle is entered by a link. -/
theorem BehindCycle.hasNode (h : g.BehindCycle n) : g.hasNode n = true := by
  obtain ⟨c, hc, hcn⟩ := h
  have hway : TransGen g.LeadsTo c n := hc.trans_left hcn
  cases hway with
  | single hlast => exact (hasNode_of_leadsTo hlast).2
  | tail _ hlast => exact (hasNode_of_leadsTo hlast).2

/-! ## Nodes with endless ways back -/

theorem Grounded.not_onCycle (h : g.Grounded n) : ¬ g.OnCycle n := by
  have hacc : Acc (TransGen g.LeadsTo) n := Acc.transGen h
  induction hacc with
  | intro n _ ih =>
      intro hn
      exact ih n hn h hn

theorem Grounded.of_reflTransGen (h : g.Grounded n) (hmn : ReflTransGen g.LeadsTo m n) :
    g.Grounded m := by
  induction hmn with
  | refl => exact h
  | tail _ hlast ih => exact ih (Acc.inv h hlast)

/-- The nodes on the ways back from a node are finitely many. -/
theorem finite_waysBack (g : Network ν ω) (n : Nat) :
    {m | ReflTransGen g.LeadsTo m n}.Finite := by
  refine ((insert n g.nodes.indices.toFinset).finite_toSet).subset ?_
  intro m hm
  show m ∈ insert n g.nodes.indices.toFinset
  rcases ReflTransGen.cases_head hm with rfl | ⟨k, hmk, -⟩
  · exact Finset.mem_insert_self _ _
  · have hpresent : m ∈ g.nodes.indices := mem_indices_iff_hasNode.2 (hasNode_of_leadsTo hmk).1
    exact Finset.mem_insert_of_mem (List.mem_toFinset.2 hpresent)

/-- Where no way back comes from a cycle, the nodes on the ways back are strictly ordered, and a
strict order on finitely many nodes is well-founded. -/
theorem wellFounded_waysBack (h : ¬ g.BehindCycle n) :
    WellFounded fun a b : {m // ReflTransGen g.LeadsTo m n} => TransGen g.LeadsTo a.1 b.1 := by
  have hfinite : Finite {m // ReflTransGen g.LeadsTo m n} := (g.finite_waysBack n).to_subtype
  have htrans : IsTrans {m // ReflTransGen g.LeadsTo m n} fun a b =>
      TransGen g.LeadsTo a.1 b.1 := ⟨fun _ _ _ hab hbc => hab.trans hbc⟩
  have hirrefl : Std.Irrefl fun a b : {m // ReflTransGen g.LeadsTo m n} =>
      TransGen g.LeadsTo a.1 b.1 := ⟨fun a ha => h ⟨a.1, ha, a.2⟩⟩
  exact Finite.wellFounded_of_trans_of_irrefl _

/-- No way back is endless exactly where none comes from a cycle. -/
theorem grounded_iff_not_behindCycle : g.Grounded n ↔ ¬ g.BehindCycle n := by
  constructor
  · rintro h ⟨c, hc, hcn⟩
    exact (h.of_reflTransGen hcn).not_onCycle hc
  · intro h
    have hall : ∀ a : {m // ReflTransGen g.LeadsTo m n}, g.Grounded a.1 := by
      intro a
      induction a using (wellFounded_waysBack h).induction with
      | _ a ih => exact Acc.intro _ fun m hm => ih ⟨m, .head hm a.2⟩ (.single hm)
    exact hall ⟨n, .refl⟩

end Network

end CipherFlow
