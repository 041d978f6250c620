import CipherFlow.Proofs.Routine.Growth

/-!
# Well-typed instructions

`Primitive.Takes` says which types of operands and result a primitive takes, and `Routine.Admits`
which instructions are well typed over the values of a routine, with one rule for each operation.
Main statements: the check of types accepts exactly what a primitive takes
(`Primitive.checkTypes_eq_ok_iff`), and an instruction stays admitted while the routine grows
(`Routine.Admits.mono`).
-/

set_option autoImplicit false

namespace CipherFlow

/-! ## What a primitive takes -/

/-- The types of operands and result that a primitive takes. -/
structure Primitive.Takes (p : Primitive) (left right result : Ty) : Prop where
  left_mem : p.operandClasses.1.contains left = true
  right_mem : p.operandClasses.2.contains right = true
  /-- The two vectors of a dot product are of one length. -/
  shape_eq : p = .dotClear → left.shape? = right.shape?
  result_mem : result.isEncrypted = true

theorem Ty.exists_shape_of_isVectorWith {p : Ty → Bool} {t : Ty} (h : t.isVectorWith p = true) :
    ∃ d, t.shape? = some [d] := by
  unfold isVectorWith at h
  split at h
  · exact ⟨_, rfl⟩
  · cases h

namespace Routine

theorem checkShapes_eq_ok_iff {p : Primitive} {left right : Ty} {l r : Shape} {u : Unit}
    (hl : left.shape? = some l) (hr : right.shape? = some r) :
    checkShapes p left right = .ok u ↔ l = r := by
  unfold checkShapes
  rw [hl, hr]
  simp

theorem checkResult_eq_ok_iff {p : Primitive} {result : Ty} {u : Unit} :
    checkResult p result = .ok u ↔ result.isEncrypted = true := by
  unfold checkResult
  split <;> simp_all

end Routine

theorem Primitive.checkTypes_eq_ok_iff {p : Primitive} {result left right : Ty} {u : Unit} :
    p.checkTypes result left right = .ok u ↔ p.Takes left right result := by
  have hclasses : (Routine.checkOperand p 0 p.operandClasses.1 left >>= fun _ =>
      Routine.checkOperand p 1 p.operandClasses.2 right >>= fun _ => Routine.checkResult p result)
        = .ok u ↔ p.operandClasses.1.contains left = true ∧
          p.operandClasses.2.contains right = true ∧ result.isEncrypted = true := by
    simp only [Except.bind_eq_ok_iff, Routine.checkOperand_eq_ok_iff, Routine.checkResult_eq_ok_iff]
    simp
  unfold checkTypes
  -- Only a dot product compares shapes, and its classes are of types that have one.
  by_cases hp : p = .dotClear
  · subst hp
    rw [if_pos rfl, Except.bind_eq_ok_iff]
    simp only [hclasses]
    constructor
    · rintro ⟨⟨⟩, hshapes, hl, hr, hresult⟩
      obtain ⟨m, hm⟩ := Ty.exists_shape_of_isVectorWith hl
      obtain ⟨n, hn⟩ := Ty.exists_shape_of_isVectorWith hr
      have hmn := (Routine.checkShapes_eq_ok_iff hm hn).1 hshapes
      exact ⟨hl, hr, fun _ => by rw [hm, hn, hmn], hresult⟩
    · intro h
      obtain ⟨m, hm⟩ := Ty.exists_shape_of_isVectorWith h.left_mem
      have hn := (h.shape_eq rfl).symm.trans hm
      exact ⟨(), (Routine.checkShapes_eq_ok_iff hm hn).2 rfl, h.left_mem, h.right_mem,
        h.result_mem⟩
  · rw [if_neg hp]
    show (Routine.checkOperand p 0 p.operandClasses.1 left >>= fun _ =>
      Routine.checkOperand p 1 p.operandClasses.2 right >>= fun _ => Routine.checkResult p result)
        = .ok u ↔ _
    rw [hclasses]
    constructor
    · rintro ⟨hl, hr, hresult⟩
      exact ⟨hl, hr, fun h => absurd h hp, hresult⟩
    · intro h
      exact ⟨h.left_mem, h.right_mem, h.result_mem⟩

/-! ## What a routine admits -/

/-- The instructions that are well typed over the values of a routine. -/
inductive Routine.Admits (r : Routine) : Instruction → Prop
  | argument {position : Nat} {ty : Ty} : Admits r ⟨.argument position, [], some ty⟩
  | constant {literal : Literal} : Admits r ⟨.constant literal, [], some literal.ty⟩
  | primitive {p : Primitive} {left right : Nat} {leftTy rightTy result : Ty}
      (hleft : r.type? left = some leftTy) (hright : r.type? right = some rightTy)
      (htakes : p.Takes leftTy rightTy result) :
      Admits r ⟨.primitive p, [left, right], some result⟩
  | ret {values : List Nat} (hvalues : ∀ v ∈ values, ∃ t, r.type? v = some t) :
      Admits r ⟨.ret, values, none⟩

namespace Routine

variable {r r' : Routine} {i : Instruction}

/-- What a routine admits is admitted in a longer one. -/
theorem Admits.mono (h : r.Admits i) (hr : r.ExtendedBy r') : r'.Admits i := by
  cases h with
  | argument => exact .argument
  | constant => exact .constant
  | primitive hleft hright htakes => exact .primitive (hr.type? hleft) (hr.type? hright) htakes
  | ret hvalues =>
      refine .ret fun v hv => ?_
      obtain ⟨t, ht⟩ := hvalues v hv
      exact ⟨t, hr.type? ht⟩

/-- The operands of an instruction have types. -/
theorem Admits.exists_type (h : r.Admits i) {a : Nat} (ha : a ∈ i.operands) :
    ∃ t, r.type? a = some t := by
  cases h with
  | argument => cases ha
  | constant => cases ha
  | primitive hleft hright htakes =>
      rcases List.mem_pair.1 ha with rfl | rfl
      · exact ⟨_, hleft⟩
      · exact ⟨_, hright⟩
  | ret hvalues => exact hvalues a ha

end Routine

end CipherFlow
