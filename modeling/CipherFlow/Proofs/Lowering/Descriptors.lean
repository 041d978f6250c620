import CipherFlow.Proofs.Lowering.Criterion

/-!
# What lowered graphs describe

No value of a lowered graph is a floating-point number or an encrypted signed integer. The kind of a
descriptor tells signed elements only for an encrypted scalar, so this rests on the checks around
the choice of an instruction as well. Main statement: `Dataflow.permitted_of_lower`, for any graph,
well made or not.
-/

set_option autoImplicit false

namespace CipherFlow

/-! ## Descriptors -/

/-- The descriptors that get through: of integers, which are unsigned if they are encrypted. -/
structure Descriptor.Permitted (d : Descriptor) : Prop where
  element_ne_float : ∀ width, d.element ≠ .float width
  isSignedCiphertext_eq : d.isSignedCiphertext = false

namespace Descriptor

variable {d : Descriptor}

theorem permitted_iff : d.Permitted ↔ d.kind ≠ .nonInteger ∧ d.isSignedCiphertext = false := by
  rw [ne_eq, kind_eq_nonInteger_iff, not_exists]
  exact ⟨fun h => ⟨h.1, h.2⟩, fun h => ⟨h.1, h.2⟩⟩

theorem permitted_unsigned (secret : Bool) (shape : Shape) (width : UInt32) :
    (tensor secret shape (.integer width false)).Permitted :=
  ⟨fun _ => nofun, Bool.and_false secret⟩

theorem permitted_of_kind_eq_encryptedScalar (h : d.kind = .encryptedScalar) : d.Permitted := by
  obtain ⟨width, rfl⟩ := kind_eq_encryptedScalar_iff.1 h
  exact permitted_unsigned true [] width

end Descriptor

theorem Rule.kind_ne_nonInteger {op : Tag} {k₁ k₂ : Kind} {rule : Rule}
    (h : Rule.find? op k₁ k₂ = some rule) : k₁ ≠ .nonInteger ∧ k₂ ≠ .nonInteger := by
  constructor
  · rintro rfl
    cases op <;> cases h
  · rintro rfl
    cases op <;> cases k₁ <;> cases h

theorem permitted_of_argumentTy {name : String} {output : Descriptor} {ty : Ty}
    (h : argumentTy name output = .ok ty) : output.Permitted := by
  rw [Descriptor.permitted_iff]
  unfold argumentTy at h
  split at h
  · cases h
  · next hsigned =>
      refine ⟨fun hkind => ?_, Bool.eq_false_of_not_eq_true hsigned⟩
      rw [hkind] at h
      cases h

/-! ## Nodes -/

namespace Node

variable {options : Options} {node : Node} {operands : List Nat} {plan : Plan}

theorem PlansTo.permitted (h : node.PlansTo options operands plan) :
    ∀ d ∈ node.inputs ++ node.outputs, d.Permitted := by
  cases h with
  | constant hliteral =>
      refine List.forall_mem_singleton.2 ?_
      obtain ⟨hsuits, -⟩ := payloadLiteral_eq_ok_iff.1 hliteral
      cases hsuits with
      | scalar => exact Descriptor.permitted_unsigned false [] _
      | tensor => exact Descriptor.permitted_unsigned false _ _
  | binary hleft hright houtput hrule =>
      obtain ⟨hl, hr⟩ := Rule.kind_ne_nonInteger hrule
      refine List.forall_mem_cons.2 ⟨Descriptor.permitted_iff.2 ⟨hl, hleft⟩, ?_⟩
      refine List.forall_mem_cons.2 ⟨Descriptor.permitted_iff.2 ⟨hr, hright⟩, ?_⟩
      exact List.forall_mem_singleton.2 (Descriptor.permitted_of_kind_eq_encryptedScalar houtput)
  | lookup hinput houtput hcomplete =>
      refine List.forall_mem_cons.2
        ⟨Descriptor.permitted_of_kind_eq_encryptedScalar hinput, ?_⟩
      exact List.forall_mem_singleton.2 (Descriptor.permitted_of_kind_eq_encryptedScalar houtput)

/-- A node with a plan gives one value: a clear unsigned one if it is a constant, and otherwise an
encrypted unsigned scalar. -/
theorem PlansTo.outputs_eq (h : node.PlansTo options operands plan) :
    (∃ shape width, node.tag = .constant ∧
        node.outputs = [.tensor false shape (.integer width false)]) ∨
      ∃ width, node.tag ≠ .constant ∧ node.tag ≠ .input ∧
        node.outputs = [.encryptedUnsigned width] := by
  cases h with
  | constant hliteral =>
      obtain ⟨hsuits, -⟩ := payloadLiteral_eq_ok_iff.1 hliteral
      cases hsuits with
      | scalar => exact Or.inl ⟨[], _, rfl, rfl⟩
      | tensor => exact Or.inl ⟨_, _, rfl, rfl⟩
  | binary hleft hright houtput hrule =>
      obtain ⟨width, rfl⟩ := Descriptor.kind_eq_encryptedScalar_iff.1 houtput
      rcases Rule.binary_of_find? hrule with rfl | rfl | rfl | rfl <;>
        exact Or.inr ⟨width, nofun, nofun, rfl⟩
  | lookup hinput houtput hcomplete =>
      obtain ⟨width, rfl⟩ := Descriptor.kind_eq_encryptedScalar_iff.1 houtput
      exact Or.inr ⟨width, nofun, nofun, rfl⟩

end Node

/-! ## Graphs -/

namespace Dataflow

variable {g : Dataflow} {options : Options}

/-- An input of a graph that is lowered is an input node, and its first value gets through. -/
theorem Accepted.exists_permitted (h : g.Accepted options) {n : Nat} (hn : n ∈ g.inputs) :
    ∃ node d, g.network.node? n = some node ∧ node.tag = .input ∧ g.firstOutput n = .ok d ∧
      d.Permitted := by
  cases h.accepts n (h.inputs_present n hn) with
  | @input node ty _ hnode hty =>
      obtain ⟨name, index, output, rest, hop, houtputs, hty⟩ := Node.argumentTy_eq_ok_iff.1 hty
      have hfirst : g.firstOutput n = .ok output := by
        rw [firstOutput, hnode, Option.bind_some, houtputs]
        rfl
      exact ⟨node, output, hnode, by rw [Node.tag, hop]; rfl, hfirst, permitted_of_argumentTy hty⟩
  | plan hnot => exact absurd hn hnot

/-- Any other node has a plan. -/
theorem Accepted.exists_plansTo (h : g.Accepted options) {n : Nat} {node : Node}
    (hnode : g.network.node? n = some node) (hn : n ∉ g.inputs) :
    ∃ plan, node.PlansTo options (g.operands n) plan := by
  cases h.accepts n (Pool.contains_iff.2 ⟨node, hnode⟩) with
  | input hmem => exact absurd hmem hn
  | plan _ _ hnode' hplan =>
      obtain rfl := Option.some.inj (hnode'.symm.trans hnode)
      exact ⟨_, Node.plan_eq_ok_iff.1 hplan⟩

/-- In a graph that is lowered no node gives or takes a floating-point number or an encrypted signed
integer: not the first value of an input, and no value that any other node describes. The inputs are
the nodes that say so; a constant is clear and unsigned, and every other node gives one encrypted
unsigned scalar. -/
theorem permitted_of_lower {f : Routine} (h : g.lower options = .ok f) :
    (∀ n ∈ g.inputs, ∃ d, g.firstOutput n = .ok d ∧ d.Permitted) ∧
      ∀ n node, g.network.node? n = some node →
        (node.tag = .input ↔ n ∈ g.inputs) ∧
        (n ∉ g.inputs → ∀ d ∈ node.inputs ++ node.outputs, d.Permitted) ∧
        (node.tag = .constant →
          ∃ shape width, node.outputs = [.tensor false shape (.integer width false)]) ∧
        (node.tag ≠ .constant → node.tag ≠ .input →
          ∃ width, node.outputs = [.encryptedUnsigned width]) := by
  have haccepted := accepted_of_lower h
  refine ⟨fun n hn => ?_, fun n node hnode => ?_⟩
  · obtain ⟨-, d, -, -, hfirst, hd⟩ := haccepted.exists_permitted hn
    exact ⟨d, hfirst, hd⟩
  · by_cases hn : n ∈ g.inputs
    · obtain ⟨node', d, hnode', htag, -, -⟩ := haccepted.exists_permitted hn
      obtain rfl := Option.some.inj (hnode.symm.trans hnode')
      refine ⟨iff_of_true htag hn, fun hnot => absurd hn hnot, fun hconstant => ?_,
        fun _ hne => absurd htag hne⟩
      rw [htag] at hconstant
      cases hconstant
    -- A node that is no input has a plan, and its output is that of the plan.
    · obtain ⟨plan, hplan⟩ := haccepted.exists_plansTo hnode hn
      refine ⟨?_, fun _ => hplan.permitted, ?_⟩
      · refine iff_of_false (fun htag => ?_) hn
        rcases hplan.outputs_eq with ⟨-, -, hconstant, -⟩ | ⟨-, -, hne, -⟩
        · rw [htag] at hconstant
          cases hconstant
        · exact hne htag
      · rcases hplan.outputs_eq with ⟨shape, width, hconstant, ho⟩ | ⟨width, hne, -, ho⟩
        · exact ⟨fun _ => ⟨shape, width, ho⟩, fun hne => absurd hconstant hne⟩
        · exact ⟨fun hconstant => absurd hconstant hne, fun _ _ => ⟨width, ho⟩⟩

theorem permitted_sample :
    ∃ f, sample.lower {} = .ok f ∧
      (∀ n ∈ sample.inputs, ∃ d, sample.firstOutput n = .ok d ∧ d.Permitted) ∧
      ∀ n node, sample.network.node? n = some node →
        n ∉ sample.inputs → ∀ d ∈ node.inputs ++ node.outputs, d.Permitted := by
  obtain ⟨f, hf⟩ := exists_lower_sample
  obtain ⟨hinputs, hnodes⟩ := permitted_of_lower hf
  exact ⟨f, hf, hinputs, fun n node hnode => (hnodes n node hnode).2.1⟩

end Dataflow

end CipherFlow
