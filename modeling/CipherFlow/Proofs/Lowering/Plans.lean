import CipherFlow.Lowering.Plan
import CipherFlow.Proofs.Lowering.Literals

/-!
# Which nodes have a plan

The plans of nodes as a relation, with one rule for each form of a node. Main statement: `Node.plan`
answers with a plan exactly if the relation has it (`Node.plan_eq_ok_iff`).
-/

set_option autoImplicit false

namespace CipherFlow

/-- Only operations on two values have rules. -/
theorem Rule.binary_of_find? {op : NodeOp} {k₁ k₂ : Kind} {rule : Rule}
    (h : Rule.find? op.tag k₁ k₂ = some rule) : op = .add ∨ op = .sub ∨ op = .mul ∨ op = .dot := by
  cases op with
  | add | sub | mul | dot => simp
  | input name index => cases h
  | constant payload => cases h
  | lookup table => cases h

/-- Whatever both operands have in the order of the instruction, they have in that of the node. -/
theorem Arrangement.exists_apply_eq {α β : Type} {r : α → β → Prop} (order : Arrangement)
    {a b : α} {first second : β} (hfirst : r (order.apply a b).1 first)
    (hsecond : r (order.apply a b).2 second) :
    ∃ x y, r a x ∧ r b y ∧ first = (order.apply x y).1 ∧ second = (order.apply x y).2 := by
  cases order with
  | asGiven => exact ⟨first, second, hfirst, hsecond, rfl, rfl⟩
  | swapped => exact ⟨second, first, hsecond, hfirst, rfl, rfl⟩

namespace Node

/-- The plan that a node has with given operands. -/
inductive PlansTo (options : Options) : Node → List Nat → Plan → Prop
  | constant {payload : Payload} {output : Descriptor} {literal : Literal}
      (hliteral : payloadLiteral payload output = .ok literal) :
      PlansTo options (.constant payload output) [] (.constant literal)
  | binary {op : NodeOp} {left right output : Descriptor} {l r : Nat} {rule : Rule}
      (hleft : left.isSignedCiphertext = false) (hright : right.isSignedCiphertext = false)
      (houtput : output.kind = .encryptedScalar)
      (hrule : Rule.find? op.tag left.kind right.kind = some rule) :
      PlansTo options (.binary op left right output) [l, r]
        (.primitive rule.primitive output.width (rule.order.apply l r).1 (rule.order.apply l r).2)
  | lookup {table : Table} {input output : Descriptor} {operand : Nat}
      (hinput : input.kind = .encryptedScalar) (houtput : output.kind = .encryptedScalar)
      (hcomplete : options.checksTables = true → table.isComplete input.width = true) :
      PlansTo options (.lookup table input output) [operand]
        (.lookup table output.width operand)

/-- The checks of an operation on two values, in their order. -/
theorem planBinary_eq (op : Tag) (left right output : Descriptor) (l r : Nat) :
    planBinary op left right output l r
      = if left.isSignedCiphertext || right.isSignedCiphertext then
          .error (.signedOperands op left right)
        else if output.kind ≠ .encryptedScalar then .error (.unsupportedOutput op output)
        else
          match Rule.find? op left.kind right.kind with
          | none => .error (.unsupportedOperands op left right)
          | some rule =>
              .ok (.primitive rule.primitive output.width (rule.order.apply l r).1
                (rule.order.apply l r).2) := by
  unfold planBinary
  cases left.isSignedCiphertext || right.isSignedCiphertext with
  | true => rfl
  | false =>
      by_cases hout : output.kind = .encryptedScalar
      · simp only [hout, ne_eq, not_true_eq_false, if_false]
        cases Rule.find? op left.kind right.kind <;> rfl
      · simp only [hout, ne_eq, not_false_eq_true, if_true]
        rfl

theorem planBinary_eq_ok_iff {op : Tag} {left right output : Descriptor} {l r : Nat}
    {plan : Plan} :
    planBinary op left right output l r = .ok plan ↔
      left.isSignedCiphertext = false ∧ right.isSignedCiphertext = false ∧
        output.kind = .encryptedScalar ∧ ∃ rule, Rule.find? op left.kind right.kind = some rule ∧
          plan = .primitive rule.primitive output.width (rule.order.apply l r).1
            (rule.order.apply l r).2 := by
  rw [planBinary_eq]
  cases left.isSignedCiphertext with
  | true => simp
  | false =>
      cases right.isSignedCiphertext with
      | true => simp
      | false =>
          by_cases hout : output.kind = .encryptedScalar
          · cases Rule.find? op left.kind right.kind with
            | none => simp [hout]
            | some rule =>
                simp only [hout, Bool.or_self, Bool.false_eq_true, ne_eq, not_true_eq_false,
                  if_false, Except.ok.injEq, true_and, Option.some.injEq, exists_eq_left']
                exact eq_comm
          · simp [hout]

/-- The checks of a lookup, in their order. -/
theorem planLookup_eq (options : Options) (table : Table) (input output : Descriptor)
    (operand : Nat) :
    planLookup options table input output operand
      = if input.kind ≠ .encryptedScalar then .error (.unsupportedLookupInput input)
        else if output.kind ≠ .encryptedScalar then .error (.unsupportedLookupOutput output)
        else if options.checksTables = true ∧ table.isComplete input.width = false then
          .error (.tableDomain input.width table.size)
        else .ok (.lookup table output.width operand) := by
  unfold planLookup
  by_cases hin : input.kind = .encryptedScalar
  · by_cases hout : output.kind = .encryptedScalar
    · simp only [hin, hout, ne_eq, not_true_eq_false, if_false, checkTable]
      cases options.checksTables with
      | false => rfl
      | true => cases table.isComplete input.width <;> rfl
    · simp only [hin, hout, ne_eq, not_true_eq_false, not_false_eq_true, if_false, if_true]
      rfl
  · simp only [hin, ne_eq, not_false_eq_true, if_true]
    rfl

theorem planLookup_eq_ok_iff {options : Options} {table : Table} {input output : Descriptor}
    {operand : Nat} {plan : Plan} :
    planLookup options table input output operand = .ok plan ↔
      input.kind = .encryptedScalar ∧ output.kind = .encryptedScalar ∧
        (options.checksTables = true → table.isComplete input.width = true) ∧
        plan = .lookup table output.width operand := by
  rw [planLookup_eq]
  by_cases hin : input.kind = .encryptedScalar
  · by_cases hout : output.kind = .encryptedScalar
    · by_cases hc : options.checksTables = true ∧ table.isComplete input.width = false
      · simp [hin, hout, hc]
      · have hcomplete : options.checksTables = true → table.isComplete input.width = true :=
          fun hchecks => eq_true_of_ne_false fun hfalse => hc ⟨hchecks, hfalse⟩
        rw [if_neg (not_not_intro hin), if_neg (not_not_intro hout), if_neg hc, Except.ok.injEq]
        exact ⟨fun h => ⟨hin, hout, hcomplete, h.symm⟩, fun h => h.2.2.2.symm⟩
    · simp [hin, hout]
  · simp [hin]

/-- A node has a plan exactly if one of the rules gives it. -/
theorem plan_eq_ok_iff {options : Options} {node : Node} {operands : List Nat} {plan : Plan} :
    node.plan options operands = .ok plan ↔ node.PlansTo options operands plan := by
  constructor
  · intro h
    obtain ⟨op, inputs, outputs⟩ := node
    -- The four operations on two values are planned alike.
    have binary (hop : op = .add ∨ op = .sub ∨ op = .mul ∨ op = .dot) :
        PlansTo options ⟨op, inputs, outputs⟩ operands plan := by
      have : ∃ left right output l r, inputs = [left, right] ∧ outputs = [output] ∧
          operands = [l, r] ∧ planBinary op.tag left right output l r = .ok plan := by
        rcases hop with rfl | rfl | rfl | rfl <;>
          · simp only [Node.plan] at h
            split at h
            · exact ⟨_, _, _, _, _, rfl, rfl, rfl, h⟩
            · cases h
      obtain ⟨left, right, output, l, r, rfl, rfl, rfl, hplan⟩ := this
      obtain ⟨hl, hr, hout, rule, hrule, rfl⟩ := planBinary_eq_ok_iff.1 hplan
      exact .binary hl hr hout hrule
    cases op with
    | input name index => cases h
    | add => exact binary (by simp)
    | sub => exact binary (by simp)
    | mul => exact binary (by simp)
    | dot => exact binary (by simp)
    | constant payload =>
        simp only [Node.plan] at h
        split at h
        · next output =>
            cases hl : payloadLiteral payload output with
            | error e =>
                rw [hl] at h
                cases h
            | ok literal =>
                rw [hl] at h
                cases h
                exact .constant hl
        · cases h
    | lookup table =>
        simp only [Node.plan] at h
        split at h
        · next input output operand =>
            obtain ⟨hin, hout, hcomplete, rfl⟩ := planLookup_eq_ok_iff.1 h
            exact .lookup hin hout hcomplete
        · cases h
  · intro h
    cases h with
    | constant hliteral => simp [Node.constant, Node.plan, hliteral]
    | @binary op left right output l r rule hl hr hout hrule =>
        have hplan : planBinary op.tag left right output l r = .ok _ :=
          planBinary_eq_ok_iff.2 ⟨hl, hr, hout, rule, hrule, rfl⟩
        rcases Rule.binary_of_find? hrule with rfl | rfl | rfl | rfl <;> exact hplan
    | lookup hin hout hcomplete => exact planLookup_eq_ok_iff.2 ⟨hin, hout, hcomplete, rfl⟩

end Node

end CipherFlow
