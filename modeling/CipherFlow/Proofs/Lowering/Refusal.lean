import CipherFlow.Proofs.Lowering.Support

/-!
# Refused nodes

The errors that lowering a node can end in, sorted by the layer that raises them. Main statement:
where the operands of a node have values of the types that its inputs describe, the error of a node
with one output is about its descriptors or payload, or it is one of the refusals of the backend
that `Node.BackendRefusal` lists (`Node.refusedWith_of_lower`).
-/

set_option autoImplicit false

namespace CipherFlow

/-- The layers that raise errors. -/
inductive Layer
  /-- The checks of a node by itself. -/
  | frontend
  /-- The construction of literals and instructions. -/
  | backend
  /-- The bookkeeping of a lowering. -/
  | internal
  deriving DecidableEq, Repr

/-- The layer that raises an error. -/
def LowerError.layer : LowerError → Layer
  | arity _ .inputs _ _ => .frontend
  | arity _ .outputs _ _ => .internal
  | arity _ .predecessors _ _ => .internal
  | unsupportedOperands _ _ _ => .frontend
  | signedOperands _ _ _ => .frontend
  | unsupportedOutput _ _ => .frontend
  | signedConstant _ => .frontend
  | signedConstantTensor _ => .frontend
  | unsupportedConstant _ => .frontend
  | unsupportedLookupInput _ => .frontend
  | unsupportedLookupOutput _ => .frontend
  | unsupportedInput _ _ => .frontend
  | unrepresentable _ => .frontend
  | payloadMismatch _ _ => .frontend
  | tableDomain _ _ => .frontend
  | missingOperand _ => .internal
  | alreadyLowered _ => .internal
  | unknownNode _ => .internal
  | noConversion _ => .internal
  | cyclic => .internal
  | literal _ => .backend
  | emit _ => .backend

/-- The refusals of the backend: constants whose width is zero or whose values do not fit, and dot
products of tensors that differ in shape or are no vectors. -/
inductive Node.BackendRefusal : Node → LowerError → Prop
  | literal {payload : Payload} {inputs outputs : List Descriptor} {error : LiteralError}
      (hparts : error.isAboutParts = true) :
      BackendRefusal ⟨.constant payload, inputs, outputs⟩ (.literal error)
  | shapes {left right output : Descriptor} {first second : Shape}
      (hshapes : left.shape ≠ right.shape) :
      BackendRefusal (.binary .dot left right output)
        (.emit (.shapeMismatch .dotClear first second))
  | vectors {left right output : Descriptor} {position : Nat} {expected : TyClass} {found : Ty}
      (hshapes : left.shape = right.shape) (hlength : left.shape.length ≠ 1) :
      BackendRefusal (.binary .dot left right output)
        (.emit (.operandType .dotClear position expected found))

/-- The errors that a node may be refused with. -/
def Node.RefusedWith (node : Node) (e : LowerError) : Prop :=
  e.layer = .frontend ∨ node.BackendRefusal e

theorem layer_of_argumentTy {name : String} {output : Descriptor} {e : LowerError}
    (h : argumentTy name output = .error e) : e.layer = .frontend := by
  unfold argumentTy at h
  split at h
  · cases h
    rfl
  · split at h <;> cases h <;> rfl

/-! ## Literals -/

/-- The errors of a payload that has no literal. -/
def LowerError.IsAboutPayload (e : LowerError) : Prop :=
  e.layer = .frontend ∨ ∃ error : LiteralError, e = .literal error ∧ error.isAboutParts = true

theorem layer_of_toWord {value : Int} {e : LowerError} (h : toWord value = .error e) :
    e.layer = .frontend := by
  unfold toWord at h
  split at h
  · cases h
  · cases h
    rfl

theorem isAboutPayload_of_literalOfInt {value : Int} {width : UInt32} {e : LowerError}
    (h : literalOfInt value width = .error e) : e.IsAboutPayload := by
  unfold literalOfInt at h
  rcases Except.bind_eq_error_iff.1 h with h | ⟨word, -, h⟩
  · exact Or.inl (layer_of_toWord h)
  · obtain ⟨error, herror, rfl⟩ := Except.mapError_eq_error_iff.1 h
    exact Or.inr ⟨error, rfl, Literal.isAboutParts_of_ofInteger_clear herror⟩

theorem isAboutPayload_of_literalOfInts {values : List Int} {shape : Shape} {width : UInt32}
    {e : LowerError} (h : literalOfInts values shape width = .error e) : e.IsAboutPayload := by
  unfold literalOfInts at h
  rcases Except.bind_eq_error_iff.1 h with h | ⟨words, -, h⟩
  · obtain ⟨value, -, hvalue⟩ := Except.exists_of_mapM_eq_error h
    exact Or.inl (layer_of_toWord hvalue)
  · obtain ⟨error, herror, rfl⟩ := Except.mapError_eq_error_iff.1 h
    have htakes := DenseBuilder.takes_forWidth width
    exact Or.inr ⟨error, rfl, DenseBuilder.isAboutParts_of_build htakes herror⟩

theorem isAboutPayload_of_payloadLiteral {payload : Payload} {output : Descriptor} {e : LowerError}
    (h : payloadLiteral payload output = .error e) : e.IsAboutPayload := by
  unfold payloadLiteral at h
  split at h
  · split at h
    · cases h
      exact Or.inl rfl
    · split at h
      · exact isAboutPayload_of_literalOfInt h
      · cases h
        exact Or.inl rfl
  · split at h
    · cases h
      exact Or.inl rfl
    · split at h
      · exact isAboutPayload_of_literalOfInts h
      · cases h
        exact Or.inl rfl
  · cases h
    exact Or.inl rfl

/-! ## Plans -/

namespace Node

theorem layer_of_planBinary {op : Tag} {left right output : Descriptor} {l r : Nat}
    {e : LowerError} (h : planBinary op left right output l r = .error e) :
    e.layer = .frontend := by
  rw [planBinary_eq] at h
  split at h
  · cases h
    rfl
  · split at h
    · cases h
      rfl
    · split at h
      · cases h
        rfl
      · cases h

theorem layer_of_planLookup {options : Options} {table : Table} {input output : Descriptor}
    {operand : Nat} {e : LowerError}
    (h : planLookup options table input output operand = .error e) : e.layer = .frontend := by
  rw [planLookup_eq] at h
  split at h
  · cases h
    rfl
  · split at h
    · cases h
      rfl
    · split at h
      · cases h
        rfl
      · cases h

/-- A node of one output with as many operands as inputs can only have too many or too few. -/
theorem layer_of_arityError {node : Node} {operands : List Nat} {count : Nat}
    (h : node.inputs.length ≠ count) : (node.arityError operands count).layer = .frontend := by
  unfold arityError
  rw [if_pos h]
  rfl

theorem refusedWith_of_plan {options : Options} {node : Node} {operands : List Nat}
    {output : Descriptor} {e : LowerError} (hlength : operands.length = node.inputs.length)
    (houtput : node.outputs = [output]) (htag : node.tag ≠ .input)
    (h : node.plan options operands = .error e) : node.RefusedWith e := by
  obtain ⟨op, inputs, outputs⟩ := node
  obtain rfl : outputs = [output] := houtput
  -- With one output and as many operands as inputs, only the number of inputs can be wrong.
  have binary (hop : op = .add ∨ op = .sub ∨ op = .mul ∨ op = .dot) :
      RefusedWith ⟨op, inputs, [output]⟩ e := by
    by_cases hcount : inputs.length = 2
    · obtain ⟨left, right, rfl⟩ := List.length_eq_two.1 hcount
      obtain ⟨l, r, rfl⟩ := List.length_eq_two.1 hlength
      rcases hop with rfl | rfl | rfl | rfl <;> exact Or.inl (layer_of_planBinary h)
    · have harity : plan options ⟨op, inputs, [output]⟩ operands
          = .error (arityError ⟨op, inputs, [output]⟩ operands 2) := by
        rcases hop with rfl | rfl | rfl | rfl <;>
          · simp only [plan]
            split
            · exact absurd rfl hcount
            · rfl
      rw [harity] at h
      cases h
      exact Or.inl (layer_of_arityError hcount)
  cases op with
  | input name index => exact absurd rfl htag
  | add => exact binary (by simp)
  | sub => exact binary (by simp)
  | mul => exact binary (by simp)
  | dot => exact binary (by simp)
  | constant payload =>
      simp only [plan] at h
      split at h
      · next output heq =>
          cases hliteral : payloadLiteral payload output with
          | ok literal =>
              rw [hliteral] at h
              cases h
          | error error =>
              rw [hliteral] at h
              cases h
              rcases isAboutPayload_of_payloadLiteral hliteral with hlayer | ⟨error, rfl, hparts⟩
              · exact Or.inl hlayer
              · exact Or.inr (.literal hparts)
      · next hne =>
          cases h
          refine Or.inl (layer_of_arityError fun hcount => ?_)
          obtain rfl := List.length_eq_zero_iff.1 hcount
          obtain rfl := List.length_eq_zero_iff.1 hlength
          exact hne output rfl rfl rfl
  | lookup table =>
      simp only [plan] at h
      split at h
      · exact Or.inl (layer_of_planLookup h)
      · next hne =>
          cases h
          refine Or.inl (layer_of_arityError fun hcount => ?_)
          obtain ⟨input, rfl⟩ := List.length_eq_one_iff.1 hcount
          obtain ⟨operand, rfl⟩ := List.length_eq_one_iff.1 hlength
          exact hne input output operand rfl rfl rfl

/-! ## Nodes -/

theorem eq_of_checkTypes_dotClear {left right : Shape} {a b w : UInt32} {error : EmitError}
    (h : Primitive.dotClear.checkTypes (.encrypted w) (.tensor left (.encrypted a))
      (.tensor right (.clear b)) = .error error) :
    (left ≠ right ∧ error = .shapeMismatch .dotClear left right) ∨
      (left = right ∧ left.length ≠ 1 ∧
        error = .operandType .dotClear 0 .encryptedVector (.tensor left (.encrypted a))) := by
  rw [Primitive.checkTypes_dotClear] at h
  split at h
  · next hshapes =>
      cases h
      exact Or.inl ⟨hshapes, rfl⟩
  · next hshapes =>
      split at h
      · next hlength =>
          cases h
          exact Or.inr ⟨not_not.1 hshapes, hlength, rfl⟩
      · cases h

/-- The operands of a rule have types that its primitive takes, except for two tensors. -/
theorem backendRefusal_of_checkTypes {op : NodeOp} {left right output : Descriptor} {rule : Rule}
    {w : UInt32} {error : EmitError} (happlies : Rule.Applies op left right rule)
    (h : rule.primitive.checkTypes (.encrypted w) (rule.order.apply left.ty right.ty).1
      (rule.order.apply left.ty right.ty).2 = .error error) :
    (Node.binary op left right output).BackendRefusal (.emit error) := by
  cases happlies with
  | add | addClear | clearAdd | clearSub | mulClear | clearMul => cases h
  | dotClear hleft hright =>
      rw [Descriptor.ty_tensor hleft, Descriptor.ty_tensor hright] at h
      rcases eq_of_checkTypes_dotClear h with ⟨hshapes, rfl⟩ | ⟨hshapes, hlength, rfl⟩
      · exact .shapes hshapes
      · exact .vectors hshapes hlength
  | clearDot hleft hright =>
      rw [Descriptor.ty_tensor hleft, Descriptor.ty_tensor hright] at h
      rcases eq_of_checkTypes_dotClear h with ⟨hshapes, rfl⟩ | ⟨hshapes, hlength, rfl⟩
      · exact .shapes hshapes.symm
      · exact .vectors hshapes.symm (hshapes ▸ hlength)

/-- A node of one output whose operands have values is refused for what it is itself. -/
theorem refusedWith_of_lower {options : Options} {node : Node} {operands : List Nat}
    {output : Descriptor} {p p' : Progress} {e : LowerError}
    (hready : p.Ready operands node.inputs) (houtput : node.outputs = [output])
    (htag : node.tag ≠ .input) (h : node.lower options operands p = .error e p') :
    node.RefusedWith e := by
  rcases Node.lower_eq_error_iff.1 h with ⟨hplan, rfl⟩ | ⟨plan, hplan, hemit⟩
  · exact refusedWith_of_plan hready.operands_typed.length_eq houtput htag hplan
  · cases Node.plan_eq_ok_iff.1 hplan with
    | @constant payload output literal =>
        -- An open routine takes every literal.
        have hok : (Plan.constant literal).emit p = .ok _ _ :=
          Lowering.emit_constant_eq_ok_iff.2 ⟨hready.is_open, rfl, rfl⟩
        rw [hok] at hemit
        cases hemit
    | @binary op left right output l r rule hleft hright _ hrule =>
        obtain ⟨first, second, hfirst, hsecond⟩ := hready.exists_values rule.order
        obtain ⟨error, hcheck, rfl⟩ :=
          Plan.exists_of_emit_primitive_eq_error hfirst hsecond hemit
        rw [hready.checkPrimitive_eq hfirst hsecond] at hcheck
        have happlies := Rule.applies_iff.2 ⟨hleft, hright, hrule⟩
        exact Or.inr (backendRefusal_of_checkTypes happlies hcheck)
    | @lookup table input output operand hinput =>
        -- The operand is encrypted, and nothing else of a lookup is refused.
        obtain ⟨⟨v, hv, htype⟩, -⟩ := List.forall₂_cons.1 hready.operands_typed
        obtain ⟨width, rfl⟩ := Descriptor.kind_eq_encryptedScalar_iff.1 hinput
        have hok : (Plan.lookup table output.width operand).emit p = .ok _ _ :=
          Plan.emit_lookup_eq_ok_iff.2 ⟨v, width, hv, htype, hready.is_open, rfl, rfl⟩
        rw [hok] at hemit
        cases hemit

end Node

end CipherFlow
