import CipherFlow.Proofs.Lowering.Plans
import CipherFlow.Proofs.Lowering.Steps
import Mathlib

/-!
# Supported nodes

Which nodes can be lowered, from the node alone (`Node.Supported`). Main statements: where the
operands of a node have values of the types that its inputs describe, the node is lowered if it is
supported (`Node.Supported.exists_lower`), and only then (`Node.supported_of_lower`), and its value
has the type that its output describes.
-/

set_option autoImplicit false

namespace CipherFlow

open Descriptor

/-! ## Inputs -/

/-- Inputs have types unless they are encrypted and signed, or no integers. -/
theorem argumentTy_eq_ok_iff {name : String} {output : Descriptor} {ty : Ty} :
    argumentTy name output = .ok ty ↔
      (∃ width signed, output.element = .integer width signed) ∧
        ¬ (output.isEncrypted = true ∧ output.isSigned = true) ∧ ty = output.ty := by
  obtain ⟨secret, shape, element⟩ := output
  cases element with
  | float width =>
      cases secret <;> simp [argumentTy, isSignedCiphertext, isSigned, kind]
  | integer width signed =>
      cases secret <;> cases shape <;> cases signed <;>
        simp [argumentTy, isSignedCiphertext, isSigned, kind, isScalar, Descriptor.ty, elementTy,
          Descriptor.width, Element.width, eq_comm]

/-! ## Operations on two values -/

/-- The operands that an operation takes, with the rule for them. -/
inductive Rule.Applies : NodeOp → Descriptor → Descriptor → Rule → Prop
  | add {a b : UInt32} :
      Applies .add (encryptedUnsigned a) (encryptedUnsigned b) ⟨.add, .asGiven⟩
  | addClear {a b : UInt32} {signed : Bool} :
      Applies .add (encryptedUnsigned a) (scalar false (.integer b signed)) ⟨.addClear, .asGiven⟩
  | clearAdd {a b : UInt32} {signed : Bool} :
      Applies .add (scalar false (.integer a signed)) (encryptedUnsigned b) ⟨.addClear, .swapped⟩
  | clearSub {a b : UInt32} {signed : Bool} :
      Applies .sub (scalar false (.integer a signed)) (encryptedUnsigned b)
        ⟨.subFromClear, .asGiven⟩
  | mulClear {a b : UInt32} {signed : Bool} :
      Applies .mul (encryptedUnsigned a) (scalar false (.integer b signed)) ⟨.mulClear, .asGiven⟩
  | clearMul {a b : UInt32} {signed : Bool} :
      Applies .mul (scalar false (.integer a signed)) (encryptedUnsigned b) ⟨.mulClear, .swapped⟩
  | dotClear {left right : Shape} {a b : UInt32} {signed : Bool} (hleft : left ≠ [])
      (hright : right ≠ []) :
      Applies .dot (tensor true left (.integer a false)) (tensor false right (.integer b signed))
        ⟨.dotClear, .asGiven⟩
  | clearDot {left right : Shape} {a b : UInt32} {signed : Bool} (hleft : left ≠ [])
      (hright : right ≠ []) :
      Applies .dot (tensor false left (.integer a signed)) (tensor true right (.integer b false))
        ⟨.dotClear, .swapped⟩

theorem Rule.applies_iff {op : NodeOp} {left right : Descriptor} {rule : Rule} :
    Rule.Applies op left right rule ↔
      left.isSignedCiphertext = false ∧ right.isSignedCiphertext = false ∧
        Rule.find? op.tag left.kind right.kind = some rule := by
  constructor
  · intro h
    cases h with
    | add | addClear | clearAdd | clearSub | mulClear | clearMul => exact ⟨rfl, rfl, rfl⟩
    | @dotClear left right =>
        cases left with
        | nil => contradiction
        | cons d left =>
            cases right with
            | nil => contradiction
            | cons e right => exact ⟨rfl, rfl, rfl⟩
    | @clearDot left right =>
        cases left with
        | nil => contradiction
        | cons d left =>
            cases right with
            | nil => contradiction
            | cons e right => exact ⟨rfl, rfl, rfl⟩
  · -- Of all operations and kinds of operands, eight combinations have a rule.
    rintro ⟨hleft, hright, hrule⟩
    rcases Rule.binary_of_find? hrule with rfl | rfl | rfl | rfl <;> cases hl : left.kind <;>
      cases hr : right.kind <;> rw [hl, hr] at hrule <;> cases hrule
    · obtain ⟨a, s, rfl⟩ := kind_eq_clearScalar_iff.1 hl
      obtain ⟨b, rfl⟩ := kind_eq_encryptedScalar_iff.1 hr
      exact .clearAdd
    · obtain ⟨a, rfl⟩ := kind_eq_encryptedScalar_iff.1 hl
      obtain ⟨b, s, rfl⟩ := kind_eq_clearScalar_iff.1 hr
      exact .addClear
    · obtain ⟨a, rfl⟩ := kind_eq_encryptedScalar_iff.1 hl
      obtain ⟨b, rfl⟩ := kind_eq_encryptedScalar_iff.1 hr
      exact .add
    · obtain ⟨a, s, rfl⟩ := kind_eq_clearScalar_iff.1 hl
      obtain ⟨b, rfl⟩ := kind_eq_encryptedScalar_iff.1 hr
      exact .clearSub
    · obtain ⟨a, s, rfl⟩ := kind_eq_clearScalar_iff.1 hl
      obtain ⟨b, rfl⟩ := kind_eq_encryptedScalar_iff.1 hr
      exact .clearMul
    · obtain ⟨a, rfl⟩ := kind_eq_encryptedScalar_iff.1 hl
      obtain ⟨b, s, rfl⟩ := kind_eq_clearScalar_iff.1 hr
      exact .mulClear
    · obtain ⟨shape, a, s, hs, rfl⟩ := kind_eq_clearTensor_iff.1 hl
      obtain ⟨shape', b, s', hs', rfl⟩ := kind_eq_encryptedTensor_iff.1 hr
      obtain rfl : s' = false := hright
      exact .clearDot hs hs'
    · obtain ⟨shape, a, s, hs, rfl⟩ := kind_eq_encryptedTensor_iff.1 hl
      obtain ⟨shape', b, s', hs', rfl⟩ := kind_eq_clearTensor_iff.1 hr
      obtain rfl : s = false := hleft
      exact .dotClear hs hs'

/-! ## Types of operands -/

/-- A dot product demands two vectors of one length: the shapes are compared first. -/
theorem Primitive.checkTypes_dotClear {left right : Shape} {a b w : UInt32} :
    dotClear.checkTypes (.encrypted w) (.tensor left (.encrypted a)) (.tensor right (.clear b))
      = if left ≠ right then .error (.shapeMismatch .dotClear left right)
        else if left.length ≠ 1 then
          .error (.operandType .dotClear 0 .encryptedVector (.tensor left (.encrypted a)))
        else .ok () := by
  by_cases h : left = right
  · subst h
    simp only [checkTypes, Routine.checkShapes, Ty.shape?, if_true, ne_eq, not_true_eq_false,
      if_false, Except.ok_bind]
    rcases left with _ | ⟨d, _ | ⟨e, rest⟩⟩
    · rfl
    · rfl
    · rw [if_pos (by simp)]
      rfl
  · simp [checkTypes, Routine.checkShapes, Ty.shape?, h]

theorem Primitive.checkTypes_dotClear_eq_ok_iff {left right : Shape} {a b w : UInt32} :
    dotClear.checkTypes (.encrypted w) (.tensor left (.encrypted a)) (.tensor right (.clear b))
        = .ok () ↔ ∃ length, left = [length] ∧ right = [length] := by
  rw [checkTypes_dotClear]
  constructor
  · intro h
    split at h
    · cases h
    · next heq =>
        split at h
        · cases h
        · next hlength =>
            obtain ⟨length, rfl⟩ := List.length_eq_one_iff.1 (not_not.1 hlength)
            exact ⟨length, rfl, (not_not.1 heq).symm⟩
  · rintro ⟨length, rfl, rfl⟩
    simp

/-- The primitive of a rule takes operands of the types that the descriptors describe, except that a
dot product demands vectors of one length. -/
theorem Rule.Applies.checkTypes_eq_ok_iff {op : NodeOp} {left right : Descriptor} {rule : Rule}
    {w : UInt32} (h : Rule.Applies op left right rule) :
    rule.primitive.checkTypes (.encrypted w) (rule.order.apply left.ty right.ty).1
        (rule.order.apply left.ty right.ty).2 = .ok () ↔
      (op = .dot → ∃ length, left.shape = [length] ∧ right.shape = [length]) := by
  cases h with
  | add | addClear | clearAdd | clearSub | mulClear | clearMul =>
      refine ⟨fun _ hop => ?_, fun _ => rfl⟩
      cases hop
  | dotClear hleft hright =>
      rw [ty_tensor hleft, ty_tensor hright, forall_prop_of_true rfl]
      exact Primitive.checkTypes_dotClear_eq_ok_iff
  | clearDot hleft hright =>
      rw [ty_tensor hleft, ty_tensor hright, forall_prop_of_true rfl]
      refine Primitive.checkTypes_dotClear_eq_ok_iff.trans (exists_congr fun length => ?_)
      exact and_comm

/-! ## Supported nodes -/

namespace Node

/-- The nodes that can be lowered. -/
inductive Supported (options : Options) : Node → Prop
  /-- An input is an integer or a tensor of integers, and not encrypted and signed. -/
  | input {name : String} {index : Nat} {inputs : List Descriptor} {output : Descriptor}
      (hinteger : ∃ width signed, output.element = .integer width signed)
      (hsigned : ¬ (output.isEncrypted = true ∧ output.isSigned = true)) :
      Supported options ⟨.input name index, inputs, [output]⟩
  | constant {payload : Payload} {output : Descriptor} (hsuits : payload.Suits output) :
      Supported options (.constant payload output)
  /-- The operands of a dot product are vectors of one length. -/
  | binary {op : NodeOp} {left right : Descriptor} {rule : Rule} {width : UInt32}
      (happlies : Rule.Applies op left right rule)
      (hdot : op = .dot → ∃ length, left.shape = [length] ∧ right.shape = [length]) :
      Supported options (.binary op left right (encryptedUnsigned width))
  | lookup {table : Table} {index width : UInt32}
      (hcomplete : options.checksTables = true → table.size = 2 ^ index.toNat) :
      Supported options (.lookup table (encryptedUnsigned index) (encryptedUnsigned width))

end Node

/-- The routine is open, and the operands have values of the types that the descriptors describe. -/
structure Progress.Ready (p : Progress) (operands : List Nat) (inputs : List Descriptor) :
    Prop where
  is_open : p.routine.returned = none
  operands_typed : List.Forall₂
    (fun m d => ∃ v, p.registry.find? m = some v ∧ p.routine.type? v = some d.ty) operands inputs

/-! ## Lowering a supported node -/

/-- In the state that rules demand, the primitive of a rule is checked by the descriptors. -/
theorem Progress.Ready.checkPrimitive_eq {p : Progress} {l r : Nat} {left right : Descriptor}
    {rule : Rule} {w : UInt32} {first second : Nat} (h : p.Ready [l, r] [left, right])
    (hfirst : p.registry.find? (rule.order.apply l r).1 = some first)
    (hsecond : p.registry.find? (rule.order.apply l r).2 = some second) :
    p.routine.checkPrimitive rule.primitive (.encrypted w) first second
      = rule.primitive.checkTypes (.encrypted w) (rule.order.apply left.ty right.ty).1
          (rule.order.apply left.ty right.ty).2 := by
  obtain ⟨hopen, htyped⟩ := h
  obtain ⟨⟨vl, hvl, hl⟩, htyped⟩ := List.forall₂_cons.1 htyped
  obtain ⟨⟨vr, hvr, hr⟩, -⟩ := List.forall₂_cons.1 htyped
  -- The instruction may take the operands the other way round, and then their types as well.
  cases horder : rule.order with
  | asGiven =>
      simp only [horder, Arrangement.apply] at hfirst hsecond
      rw [hvl] at hfirst
      rw [hvr] at hsecond
      cases hfirst
      cases hsecond
      exact Routine.checkPrimitive_eq_checkTypes hopen hl hr
  | swapped =>
      simp only [horder, Arrangement.apply] at hfirst hsecond
      rw [hvr] at hfirst
      rw [hvl] at hsecond
      cases hfirst
      cases hsecond
      exact Routine.checkPrimitive_eq_checkTypes hopen hr hl

theorem Progress.Ready.exists_values {p : Progress} {l r : Nat} {left right : Descriptor}
    (order : Arrangement) (h : p.Ready [l, r] [left, right]) :
    ∃ first second, p.registry.find? (order.apply l r).1 = some first ∧
      p.registry.find? (order.apply l r).2 = some second := by
  obtain ⟨⟨vl, hvl, -⟩, htyped⟩ := List.forall₂_cons.1 h.operands_typed
  obtain ⟨⟨vr, hvr, -⟩, -⟩ := List.forall₂_cons.1 htyped
  cases order with
  | asGiven => exact ⟨vl, vr, hvl, hvr⟩
  | swapped => exact ⟨vr, vl, hvr, hvl⟩

theorem Table.isComplete_iff_size_eq {table : Table} {width : UInt32} :
    table.isComplete width = true ↔ table.size = 2 ^ width.toNat := by
  rw [Table.isComplete_iff, Nat.one_shiftLeft]

namespace Node

variable {options : Options} {node : Node} {operands : List Nat} {p : Progress}

/-- A node that is lowered is supported, and its value is of the type of its output. -/
theorem supported_of_lower {v : Nat} {p' : Progress} (hready : p.Ready operands node.inputs)
    (h : node.lower options operands p = .ok v p') :
    node.Supported options ∧ ∀ output ∈ node.outputs, p'.routine.type? v = some output.ty := by
  obtain ⟨plan, hplan, hemit⟩ := Node.lower_eq_ok_iff.1 h
  cases Node.plan_eq_ok_iff.1 hplan with
  | constant hliteral =>
      obtain ⟨hsuits, hwritten⟩ := payloadLiteral_eq_ok_iff.1 hliteral
      obtain ⟨-, rfl, rfl⟩ := Lowering.emit_constant_eq_ok_iff.1 hemit
      refine ⟨.constant hsuits, fun d hd => ?_⟩
      rw [List.mem_singleton.1 hd, ← Payload.ty_eq_of_writtenAs hsuits hwritten]
      exact Routine.type?_of_instruction? (Routine.instruction?_push_size _ _)
  | binary hleft hright houtput hrule =>
      obtain ⟨first, second, hfirst, hsecond, hcheck, rfl, rfl⟩ :=
        Plan.emit_primitive_eq_ok_iff.1 hemit
      rw [hready.checkPrimitive_eq hfirst hsecond] at hcheck
      have happlies := Rule.applies_iff.2 ⟨hleft, hright, hrule⟩
      obtain ⟨width, rfl⟩ := kind_eq_encryptedScalar_iff.1 houtput
      refine ⟨.binary happlies (happlies.checkTypes_eq_ok_iff.1 hcheck), fun d hd => ?_⟩
      rw [List.mem_singleton.1 hd]
      exact Routine.type?_of_instruction? (Routine.instruction?_push_size _ _)
  | lookup hinput houtput hcomplete =>
      obtain ⟨index, w, -, -, -, rfl, rfl⟩ := Plan.emit_lookup_eq_ok_iff.1 hemit
      obtain ⟨i, rfl⟩ := kind_eq_encryptedScalar_iff.1 hinput
      obtain ⟨width, rfl⟩ := kind_eq_encryptedScalar_iff.1 houtput
      refine ⟨.lookup fun hchecks => Table.isComplete_iff_size_eq.1 (hcomplete hchecks),
        fun d hd => ?_⟩
      rw [List.mem_singleton.1 hd, ← Routine.size_push p.routine]
      exact Routine.type?_of_instruction? (Routine.instruction?_push_size _ _)

/-- A supported node is lowered, unless it is an input. -/
theorem Supported.exists_lower (h : node.Supported options) (htag : node.tag ≠ .input)
    (hready : p.Ready operands node.inputs) :
    ∃ v p', node.lower options operands p = .ok v p' := by
  cases h with
  | input => exact absurd rfl htag
  | constant hsuits =>
      obtain ⟨literal, hwritten⟩ := hsuits.exists_writtenAs
      obtain rfl := List.forall₂_nil_right_iff.1 hready.operands_typed
      exact ⟨_, _, Node.lower_eq_ok_iff.2
        ⟨_, Node.plan_eq_ok_iff.2 (.constant (payloadLiteral_eq_ok_iff.2 ⟨hsuits, hwritten⟩)),
          Lowering.emit_constant_eq_ok_iff.2 ⟨hready.is_open, rfl, rfl⟩⟩⟩
  | @binary op left right rule width happlies hdot =>
      obtain ⟨l, r, rfl⟩ : ∃ l r, operands = [l, r] :=
        List.length_eq_two.1 hready.operands_typed.length_eq
      obtain ⟨hleft, hright, hrule⟩ := Rule.applies_iff.1 happlies
      obtain ⟨first, second, hfirst, hsecond⟩ := hready.exists_values rule.order
      have hcheck := hready.checkPrimitive_eq (w := width) hfirst hsecond
      rw [happlies.checkTypes_eq_ok_iff.2 hdot] at hcheck
      exact ⟨_, _, Node.lower_eq_ok_iff.2
        ⟨_, Node.plan_eq_ok_iff.2 (.binary hleft hright rfl hrule),
          Plan.emit_primitive_eq_ok_iff.2 ⟨first, second, hfirst, hsecond, hcheck, rfl, rfl⟩⟩⟩
  | @lookup table index width hcomplete =>
      obtain ⟨operand, rfl⟩ : ∃ operand, operands = [operand] :=
        List.length_eq_one_iff.1 hready.operands_typed.length_eq
      obtain ⟨⟨v, hv, htype⟩, -⟩ := List.forall₂_cons.1 hready.operands_typed
      exact ⟨_, _, Node.lower_eq_ok_iff.2
        ⟨_, Node.plan_eq_ok_iff.2
            (.lookup rfl rfl fun hchecks => Table.isComplete_iff_size_eq.2 (hcomplete hchecks)),
          Plan.emit_lookup_eq_ok_iff.2 ⟨v, index, hv, htype, hready.is_open, rfl, rfl⟩⟩⟩

end Node

end CipherFlow
