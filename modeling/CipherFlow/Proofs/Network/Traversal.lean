import CipherFlow.Proofs.Network.Cycles
import CipherFlow.Proofs.Sequencing

/-!
# Walks with a visitor that may fail

`Traverses` is the loop of a walk without a bound on its steps: it goes on as long as some node is
ready and no visit fails. Main statement: the loop ends, its result is that of `walk`, and it visits
the nodes of one topological order up to the first whose visit fails (`exists_topologicalOrder`).
-/

set_option autoImplicit false

namespace CipherFlow

namespace Network

variable {ν ω : Type} {g : Network ν ω}

/-- The list has each node that is not behind a cycle once, and after its predecessors. -/
structure IsTopologicalOrder (g : Network ν ω) (order : List Nat) : Prop where
  nodup : order.Nodup
  mem_iff : ∀ n, n ∈ order ↔ g.hasNode n = true ∧ ¬ g.BehindCycle n
  mem_before : ∀ before n after, order = before ++ n :: after →
    ∀ m ∈ g.predecessors n, m ∈ before

theorem isTopologicalOrder_order (g : Network ν ω) : g.IsTopologicalOrder g.order where
  nodup := g.nodup_order
  mem_iff := by
    intro n
    rw [mem_order_iff, grounded_iff_not_behindCycle]
  mem_before := fun _ _ _ => mem_before_of_order_eq

section

variable {ε σ : Type} {visit : Nat → EStateM ε σ Unit}

/-- The loop of a walk from a frontier and a state: the nodes that are visited, in order, and how
the loop ends. -/
inductive Traverses (g : Network ν ω) (visit : Nat → EStateM ε σ Unit) :
    Frontier → σ → List Nat → EStateM.Result ε σ Unit → Prop
  | finish {f : Frontier} {s : σ} (hready : f.ready = []) : Traverses g visit f s [] (.ok () s)
  | next {f f' : Frontier} {n : Nat} {s s' : σ} {visits : List Nat} {r : EStateM.Result ε σ Unit}
      (hstep : g.step? f = some (n, f')) (hvisit : visit n s = .ok () s')
      (hrest : Traverses g visit f' s' visits r) : Traverses g visit f s (n :: visits) r
  | fail {f f' : Frontier} {n : Nat} {s s' : σ} {e : ε} (hstep : g.step? f = some (n, f'))
      (hvisit : visit n s = .error e s') : Traverses g visit f s [n] (.error e s')

/-- The visits over an order: all nodes of it, or those up to the first whose visit fails. -/
inductive VisitsOver (visit : Nat → EStateM ε σ Unit) (s : σ) (order : List Nat) :
    List Nat → EStateM.Result ε σ Unit → Prop
  | all {s' : σ} (hall : order.forM visit s = .ok () s') :
      VisitsOver visit s order order (.ok () s')
  | upTo {before after : List Nat} {n : Nat} {s₁ s₂ : σ} {e : ε}
      (hsplit : order = before ++ n :: after) (hbefore : before.forM visit s = .ok () s₁)
      (hvisit : visit n s₁ = .error e s₂) : VisitsOver visit s order (before ++ [n]) (.error e s₂)

theorem step?_eq_none_iff {f : Frontier} : g.step? f = none ↔ f.ready = [] := by
  unfold step?
  cases f.ready with
  | nil => simp
  | cons n rest => simp

/-- The loop can go in one way only. -/
theorem Traverses.unique {f : Frontier} {s : σ} {visits visits' : List Nat}
    {r r' : EStateM.Result ε σ Unit} (h : g.Traverses visit f s visits r)
    (h' : g.Traverses visit f s visits' r') : visits = visits' ∧ r = r' := by
  -- At each state the step and the visit are determined, so the second run goes on as the first.
  induction h generalizing visits' with
  | finish hready =>
      have hstop : g.step? _ = none := step?_eq_none_iff.2 hready
      cases h' with
      | finish => exact ⟨rfl, rfl⟩
      | next hstep => simp [hstop] at hstep
      | fail hstep => simp [hstop] at hstep
  | next hstep hvisit _ ih =>
      cases h' with
      | finish hready => simp [step?_eq_none_iff.2 hready] at hstep
      | next hstep' hvisit' hrest' =>
          rw [hstep] at hstep'
          cases hstep'
          rw [hvisit] at hvisit'
          cases hvisit'
          obtain ⟨rfl, rfl⟩ := ih hrest'
          exact ⟨rfl, rfl⟩
      | fail hstep' hvisit' =>
          rw [hstep] at hstep'
          cases hstep'
          rw [hvisit] at hvisit'
          cases hvisit'
  | fail hstep hvisit =>
      cases h' with
      | finish hready => simp [step?_eq_none_iff.2 hready] at hstep
      | next hstep' hvisit' =>
          rw [hstep] at hstep'
          cases hstep'
          rw [hvisit] at hvisit'
          cases hvisit'
      | fail hstep' hvisit' =>
          rw [hstep] at hstep'
          cases hstep'
          rw [hvisit] at hvisit'
          cases hvisit'
          exact ⟨rfl, rfl⟩

theorem VisitsOver.cons {n : Nat} {order visits : List Nat} {s s' : σ}
    {r : EStateM.Result ε σ Unit} (hvisit : visit n s = .ok () s')
    (h : VisitsOver visit s' order visits r) :
    VisitsOver visit s (n :: order) (n :: visits) r := by
  have hcons (nodes : List Nat) : (n :: nodes).forM visit s = nodes.forM visit s' :=
    EStateM.bind_of_eq_ok hvisit
  cases h with
  | all hall => exact .all ((hcons _).trans hall)
  | upTo hsplit hbefore hfail =>
      subst hsplit
      exact .upTo (List.cons_append).symm ((hcons _).trans hbefore) hfail

/-- Where a walk has come, as many steps as there are nodes left are enough for the loop to end. The
bound on the nodes visited and ready is that of `Sound`. -/
theorem Sound.exists_traverses {f : Frontier} (hf : g.Sound f) (k : Nat) (s : σ)
    (hk : g.nodes.slots.size ≤ f.visited.length + k) :
    ∃ visits, g.Traverses visit f s visits (g.walkFrom visit k f s) ∧
      VisitsOver visit s (g.orderFrom k f) visits (g.walkFrom visit k f s) := by
  induction k generalizing f s with
  | zero =>
      have hlen := hf.length_le
      have hready : f.ready = [] := List.length_eq_zero_iff.1 (by omega)
      exact ⟨[], .finish hready, .all rfl⟩
  | succ k ih =>
      unfold walkFrom orderFrom
      cases hstep : g.step? f with
      | none => exact ⟨[], .finish (step?_eq_none_iff.1 hstep), .all rfl⟩
      | some next =>
          obtain ⟨n, f'⟩ := next
          obtain ⟨hf', hvisited⟩ := hf.step hstep
          cases hvisit : visit n s with
          | error e s' =>
              simp only [EStateM.bind_of_eq_error hvisit]
              have hover : VisitsOver visit s (n :: g.orderFrom k f') ([] ++ [n]) (.error e s') :=
                .upTo rfl rfl hvisit
              exact ⟨[n], .fail hstep hvisit, hover⟩
          | ok u s' =>
              -- The step has visited one node more, so one step less is enough.
              have hk' : g.nodes.slots.size ≤ f'.visited.length + k := by
                rw [hvisited, List.length_cons]
                omega
              obtain ⟨visits, hloop, hover⟩ := ih hf' s' hk'
              simp only [EStateM.bind_of_eq_ok hvisit]
              exact ⟨n :: visits, .next hstep hvisit hloop, hover.cons hvisit⟩

end

/-- A walk visits in a topological order that does not depend on the visitor. Its loop ends, in one
way only, and it visits all nodes of the order, or those up to the first whose visit fails. -/
theorem exists_topologicalOrder (g : Network ν ω) :
    ∃ order, g.IsTopologicalOrder order ∧
      ∀ {ε σ : Type} (visit : Nat → EStateM ε σ Unit) (s : σ), ∃ visits,
        (∀ visits' r, g.Traverses visit g.start s visits' r ↔
          visits' = visits ∧ r = g.walk visit s) ∧
        VisitsOver visit s order visits (g.walk visit s) := by
  refine ⟨g.order, g.isTopologicalOrder_order, ?_⟩
  intro ε σ visit s
  have hbound : g.nodes.slots.size ≤ g.start.visited.length + g.nodes.slots.size :=
    Nat.le_add_left _ _
  obtain ⟨visits, hloop, hover⟩ : ∃ visits, g.Traverses visit g.start s visits (g.walk visit s) ∧
      VisitsOver visit s g.order visits (g.walk visit s) :=
    g.sound_start.exists_traverses g.nodes.slots.size s hbound
  refine ⟨visits, fun visits' r => ⟨fun h => h.unique hloop, ?_⟩, hover⟩
  rintro ⟨rfl, rfl⟩
  exact hloop

end Network

end CipherFlow
