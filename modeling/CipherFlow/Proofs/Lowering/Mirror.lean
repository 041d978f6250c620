import CipherFlow.Proofs.Dataflow.Mirror
import CipherFlow.Proofs.Lowering.Acceptance
import Mathlib

/-!
# Lowering with exchanged operands

A primitive that takes an encrypted and a clear operand takes them in one order, whichever order the
node has. So a node with exchanged operands has the same plan, and whole programs with exchanged
operands the same routine. Main statement: `Dataflow.lower_ignores_exchanges`.
-/

set_option autoImplicit false

namespace CipherFlow

/-! ## Rules and plans -/

/-- The other arrangement. -/
def Arrangement.flip : Arrangement → Arrangement
  | asGiven => swapped
  | swapped => asGiven

theorem Arrangement.flip_apply {α : Type} (order : Arrangement) (a b : α) :
    order.flip.apply b a = order.apply a b := by
  cases order <;> rfl

/-- Unless both operands are encrypted scalars, the rule for exchanged operands is the same, with
the other arrangement. -/
theorem Rule.find?_comm {op : NodeOp} {k₁ k₂ : Kind} (hop : op.Commutes)
    (hmixed : ¬ (k₁ = .encryptedScalar ∧ k₂ = .encryptedScalar)) :
    Rule.find? op.tag k₂ k₁
      = (Rule.find? op.tag k₁ k₂).map fun rule => { rule with order := rule.order.flip } := by
  revert hmixed
  rcases hop with rfl | rfl | rfl <;> cases k₁ <;> cases k₂ <;> decide

/-- The second error is the first, but the operands it names may be exchanged. -/
inductive LowerError.Mirrors : LowerError → LowerError → Prop
  | same {e : LowerError} : Mirrors e e
  | unsupportedOperands {op : Tag} {left right : Descriptor} :
      Mirrors (.unsupportedOperands op left right) (.unsupportedOperands op right left)
  | signedOperands {op : Tag} {left right : Descriptor} :
      Mirrors (.signedOperands op left right) (.signedOperands op right left)

namespace Node

variable {options : Options}

theorem planBinary_mirrors {op : NodeOp} {left right output : Descriptor} {a b : Nat}
    (hop : op.Commutes) (hmixed : left.isEncrypted ≠ right.isEncrypted) :
    planBinary op.tag left right output a b = planBinary op.tag right left output b a ∨
      ∃ e e', planBinary op.tag left right output a b = .error e ∧
        planBinary op.tag right left output b a = .error e' ∧ e.Mirrors e' := by
  have hkinds : ¬ (left.kind = .encryptedScalar ∧ right.kind = .encryptedScalar) := by
    rintro ⟨hleft, hright⟩
    obtain ⟨w, rfl⟩ := Descriptor.kind_eq_encryptedScalar_iff.1 hleft
    obtain ⟨w', rfl⟩ := Descriptor.kind_eq_encryptedScalar_iff.1 hright
    exact hmixed rfl
  rw [planBinary_eq, planBinary_eq, Rule.find?_comm hop hkinds,
    Bool.or_comm right.isSignedCiphertext]
  by_cases hsigned : (left.isSignedCiphertext || right.isSignedCiphertext) = true
  · simp only [if_pos hsigned]
    exact .inr ⟨_, _, rfl, rfl, .signedOperands⟩
  · simp only [if_neg hsigned]
    by_cases houtput : output.kind = .encryptedScalar
    · simp only [if_neg (not_not_intro houtput)]
      cases Rule.find? op.tag left.kind right.kind with
      | none => exact .inr ⟨_, _, rfl, rfl, .unsupportedOperands⟩
      | some rule =>
          refine .inl ?_
          simp only [Option.map_some, Arrangement.flip_apply]
    · refine .inl ?_
      simp only [if_pos houtput]

theorem plan_binary {op : NodeOp} (hop : op.Commutes) (left right output : Descriptor)
    (a b : Nat) : (Node.binary op left right output).plan options [a, b]
      = planBinary op.tag left right output a b := by
  rcases hop with rfl | rfl | rfl <;> rfl

variable {node node' : Node} {operands operands' : List Nat}

/-- A node and its mirror image have the same plan, or are refused alike. -/
theorem Mirrors.plan (h : node.Mirrors operands node' operands') (options : Options) :
    node.plan options operands = node'.plan options operands' ∨
      ∃ e e', node.plan options operands = .error e ∧ node'.plan options operands' = .error e' ∧
        e.Mirrors e' := by
  cases h with
  | same => exact .inl rfl
  | exchanged hop hmixed =>
      rw [plan_binary hop, plan_binary hop]
      exact planBinary_mirrors hop hmixed

theorem Mirrors.lower_ok (h : node.Mirrors operands node' operands') {v : Nat} {p p' : Progress}
    (hstep : node.lower options operands p = .ok v p') :
    node'.lower options operands' p = .ok v p' := by
  obtain ⟨plan, hplan, hemit⟩ := lower_eq_ok_iff.1 hstep
  rcases h.plan options with heq | ⟨e, e', he, -⟩
  · exact lower_eq_ok_iff.2 ⟨plan, heq ▸ hplan, hemit⟩
  · rw [hplan] at he
    cases he

theorem Mirrors.lower_error (h : node.Mirrors operands node' operands') {e : LowerError}
    {p p' : Progress} (hstep : node.lower options operands p = .error e p') :
    ∃ e', node'.lower options operands' p = .error e' p' ∧ e.Mirrors e' := by
  rcases h.plan options with heq | ⟨e₁, e₂, he₁, he₂, hmirrors⟩
  · rw [lower_eq_error_iff, heq, ← lower_eq_error_iff] at hstep
    exact ⟨e, hstep, .same⟩
  · rcases lower_eq_error_iff.1 hstep with ⟨he, rfl⟩ | ⟨plan, hplan, -⟩
    · rw [he₁] at he
      cases he
      exact ⟨e₂, lower_eq_error_iff.2 (.inl ⟨he₂, rfl⟩), hmirrors⟩
    · rw [he₁] at hplan
      cases hplan

theorem Mirrors.argumentTy_eq (h : node.Mirrors operands node' operands') :
    node.argumentTy = node'.argumentTy := by
  rw [argumentTy, argumentTy, h.op_eq, h.outputs_eq]

end Node

namespace Dataflow

variable {g g' : Dataflow} {options : Options}

/-! ## Steps -/

theorem Mirrors.lowerInput_eq (h : g.Mirrors g') : g.lowerInput = g'.lowerInput := by
  funext n
  cases hnode : g.network.node? n with
  | none =>
      have hnode' := h.node?_eq_none hnode
      have hget : g.nodeToLower n = g'.nodeToLower n := by
        rw [nodeToLower, nodeToLower, Dataflow.node, Dataflow.node, hnode, hnode']
      rw [lowerInput, lowerInput, hget]
  | some m =>
      obtain ⟨m', hnode', hmirrors⟩ := h.node n m hnode
      funext p
      have hget : g.nodeToLower n p = .ok m p := nodeToLower_eq_ok_iff.2 ⟨hnode, rfl⟩
      have hget' : g'.nodeToLower n p = .ok m' p := nodeToLower_eq_ok_iff.2 ⟨hnode', rfl⟩
      unfold lowerInput
      rw [EStateM.bind_of_eq_ok hget, EStateM.bind_of_eq_ok hget', hmirrors.argumentTy_eq]

/-- A node that is refused when it is lowered itself is refused by the walk. -/
theorem lowerVisited_of_lower_eq_error {n : Nat} {node : Node} {p p' : Progress} {e : LowerError}
    (hnode : g.network.node? n = some node) (hnew : p.registry.find? n = none)
    (h : node.lower options (g.operands n) p = .error e p') :
    g.lowerVisited options n p = .error e p' := by
  have hget : g.nodeToLower n p = .ok node p := nodeToLower_eq_ok_iff.2 ⟨hnode, rfl⟩
  rw [lowerVisited_of_not_contains hnew, EStateM.bind_of_eq_ok hget]
  exact EStateM.bind_of_eq_error h

theorem Mirrors.lowerVisited_ok (h : g.Mirrors g') {n : Nat} {p p' : Progress}
    (hstep : g.lowerVisited options n p = .ok () p') :
    g'.lowerVisited options n p = .ok () p' := by
  cases hnew : p.registry.find? n with
  | some v =>
      rw [lowerVisited_of_find?_eq_some hnew] at hstep ⊢
      exact hstep
  | none =>
      obtain ⟨node, v, p₁, hnode, hlower, rfl⟩ := (lowerVisited_eq_ok_iff hnew).1 hstep
      obtain ⟨node', hnode', hmirrors⟩ := h.node n node hnode
      exact (lowerVisited_eq_ok_iff hnew).2 ⟨node', v, p₁, hnode', hmirrors.lower_ok hlower, rfl⟩

theorem Mirrors.lowerVisited_error (h : g.Mirrors g') {n : Nat} {p p' : Progress} {e : LowerError}
    (hn : g.network.hasNode n = true) (hstep : g.lowerVisited options n p = .error e p') :
    ∃ e', g'.lowerVisited options n p = .error e' p' ∧ e.Mirrors e' := by
  cases hnew : p.registry.find? n with
  | some v =>
      rw [lowerVisited_of_find?_eq_some hnew] at hstep
      cases hstep
  | none =>
      obtain ⟨node, hnode⟩ := Pool.contains_iff.1 hn
      obtain ⟨node', hnode', hmirrors⟩ := h.node n node hnode
      obtain ⟨e', hlower, he⟩ :=
        hmirrors.lower_error (lower_of_lowerVisited_eq_error hnode hnew hstep)
      exact ⟨e', lowerVisited_of_lower_eq_error hnode' hnew hlower, he⟩

/-! ## Programs -/

theorem Mirrors.lower_ok (h : g.Mirrors g') {f : Routine} (hlower : g.lower options = .ok f) :
    g'.lower options = .ok f := by
  obtain ⟨p₁, p₂, results, hinputs, hwalk, hsize, hresults, hcheck, rfl⟩ := lower_eq_ok_iff.1 hlower
  rw [h.inputs_eq, h.lowerInput_eq] at hinputs
  rw [h.shape.order_eq] at hwalk
  have hwalk := EStateM.forM_eq_ok_of_imp (fun _ _ _ => h.lowerVisited_ok) hwalk
  rw [Pool.count, h.shape.indices_eq] at hsize
  rw [h.outputs_eq] at hresults
  exact lower_eq_ok_iff.2 ⟨p₁, p₂, results, hinputs, hwalk, hsize, hresults, hcheck, rfl⟩

theorem Mirrors.refusedAt (h : g.Mirrors g') {n : Nat} {e : LowerError}
    (hrefused : g.RefusedAt options n e) : ∃ e', g'.RefusedAt options n e' ∧ e.Mirrors e' := by
  cases hrefused with
  | input hsplit hbefore hstep =>
      rw [h.inputs_eq] at hsplit
      rw [h.lowerInput_eq] at hbefore hstep
      exact ⟨e, .input hsplit hbefore hstep, .same⟩
  | visit hinputs hsplit hbefore hstep =>
      have hn : n ∈ g.network.order := by simp [hsplit]
      obtain ⟨e', hstep', he⟩ := h.lowerVisited_error (Network.mem_order_iff.1 hn).1 hstep
      rw [h.inputs_eq, h.lowerInput_eq] at hinputs
      rw [h.shape.order_eq] at hsplit
      have hbefore := EStateM.forM_eq_ok_of_imp (fun _ _ _ => h.lowerVisited_ok) hbefore
      exact ⟨e', .visit hinputs hsplit hbefore hstep', he⟩

/-- Whether the operands of a sum, a product or a dot product of an encrypted and a clear value are
exchanged, in any of the calls that make a program, does not matter: the two programs are lowered to
the same routine, or are refused at the same node with the same error, except that it may name the
two operands in the other order. -/
theorem lower_ignores_exchanges {calls calls' : List AnyCall}
    (h : Dataflow.empty.Exchanges calls calls') (options : Options) :
    (∃ f, (ofAnyCalls calls).lower options = .ok f ∧ (ofAnyCalls calls').lower options = .ok f) ∨
      ∃ n e e', (ofAnyCalls calls).lower options = .error e ∧
        (ofAnyCalls calls').lower options = .error e' ∧
        (ofAnyCalls calls).RefusedAt options n e ∧ (ofAnyCalls calls').RefusedAt options n e' ∧
        e.Mirrors e' := by
  have hmirrors := h.mirrors
  have hg := layered_ofAnyCalls calls
  cases hlower : (ofAnyCalls calls).lower options with
  | ok f => exact .inl ⟨f, rfl, hmirrors.lower_ok hlower⟩
  | error e =>
      obtain ⟨n, hn⟩ := exists_refusedAt (fun n _ => grounded_of_operands_lt hg.operands_lt n)
        hg.outputs_present hlower
      obtain ⟨e', hn', he⟩ := hmirrors.refusedAt hn
      exact .inr ⟨n, e, e', rfl, hn'.lower_eq, hn, hn', he⟩

/-! ## A small example -/

/-- Calls for the sum of an input and a constant, and for the product of that sum and the constant,
with the operands of both in some order. -/
def sumAndProduct (sum product : List Nat) : List AnyCall :=
  [.input "x" (.encryptedUnsigned 4), .constant (.scalar 3) (.clearUnsigned 2),
    .operation .add sum (.encryptedUnsigned 4), .operation .mul product (.encryptedUnsigned 4),
    .output 2, .output 3]

theorem exchanges_sumAndProduct :
    Dataflow.empty.Exchanges (sumAndProduct [0, 1] [2, 1]) (sumAndProduct [1, 0] [1, 2]) := by
  have hsum : (ofAnyCalls ((sumAndProduct [0, 1] [2, 1]).take 2)).IsMixed 0 1 :=
    ⟨.encryptedUnsigned 4, .clearUnsigned 2, rfl, rfl, by decide⟩
  have hproduct : (ofAnyCalls ((sumAndProduct [0, 1] [2, 1]).take 3)).IsMixed 2 1 :=
    ⟨.encryptedUnsigned 4, .clearUnsigned 2, rfl, rfl, by decide⟩
  exact .keep (.keep (.exchange (.inl rfl) hsum (.exchange (.inr (.inl rfl)) hproduct
    (.keep (.keep .nil)))))

theorem lower_sumAndProduct :
    Dataflow.empty.Exchanges (sumAndProduct [0, 1] [2, 1]) (sumAndProduct [1, 0] [1, 2]) ∧
      ∃ f, (ofAnyCalls (sumAndProduct [0, 1] [2, 1])).lower {} = .ok f ∧
        (ofAnyCalls (sumAndProduct [1, 0] [1, 2])).lower {} = .ok f := by
  refine ⟨exchanges_sumAndProduct, ?_⟩
  obtain ⟨f, hf⟩ : ∃ f, (ofAnyCalls (sumAndProduct [0, 1] [2, 1])).lower {} = .ok f :=
    Except.exists_eq_ok (by cbv)
  rcases lower_ignores_exchanges exchanges_sumAndProduct {} with h | ⟨n, e, e', he, -⟩
  · exact h
  · rw [hf] at he
    cases he

end Dataflow

end CipherFlow
