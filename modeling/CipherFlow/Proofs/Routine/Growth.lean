import CipherFlow.Proofs.Sequencing
import CipherFlow.Routine.Emit

/-!
# Growth of routines

A routine only grows: an instruction that is there stays under its index. What a primitive demands
of the types of its operands is `Primitive.checkTypes`, which says the same as the check of the
routine once the operands are known to have types (`Routine.checkPrimitive_eq_checkTypes`).
-/

set_option autoImplicit false

namespace CipherFlow

namespace Routine

/-! ## Extension -/

/-- The instructions of a routine are those of another under the same indices. -/
def ExtendedBy (r r' : Routine) : Prop :=
  ∀ v i, r.instruction? v = some i → r'.instruction? v = some i

theorem ExtendedBy.trans {r₁ r₂ r₃ : Routine} (h : r₁.ExtendedBy r₂) (h' : r₂.ExtendedBy r₃) :
    r₁.ExtendedBy r₃ := fun v i hi => h' v i (h v i hi)

theorem lt_size_of_instruction? {r : Routine} {v : Nat} {i : Instruction}
    (h : r.instruction? v = some i) : v < r.size := by
  obtain ⟨entry, hentry, -⟩ := Option.map_eq_some_iff.1 h
  exact (Array.getElem?_eq_some_iff.1 hentry).1

theorem extendedBy_push (r : Routine) (i : Instruction) : r.ExtendedBy (r.push i) := by
  intro v j h
  rw [instruction?_push, if_neg (Nat.ne_of_lt (lt_size_of_instruction? h)), h]

theorem instruction?_push_size (r : Routine) (i : Instruction) :
    (r.push i).instruction? r.size = some i := by
  rw [instruction?_push, if_pos rfl]

/-- What is found in a routine with one more instruction is that instruction or was there. -/
theorem instruction?_push_eq_some {r : Routine} {i j : Instruction} {v : Nat}
    (h : (r.push i).instruction? v = some j) :
    (v = r.size ∧ j = i) ∨ r.instruction? v = some j := by
  rw [instruction?_push] at h
  split at h
  · next hv =>
      cases h
      exact Or.inl ⟨hv, rfl⟩
  · exact Or.inr h

theorem ExtendedBy.type? {r r' : Routine} (h : r.ExtendedBy r') {v : Nat} {t : Ty}
    (ht : r.type? v = some t) : r'.type? v = some t := by
  rw [type?_eq_bind] at ht
  obtain ⟨i, hi, hres⟩ := Option.bind_eq_some_iff.1 ht
  rw [type?_eq_bind, h v i hi, Option.bind_some, hres]

theorem type?_of_instruction? {r : Routine} {v : Nat} {i : Instruction}
    (h : r.instruction? v = some i) : r.type? v = i.result := by
  rw [type?_eq_bind, h, Option.bind_some]

/-! ## Order -/

/-- Every operand of an instruction is the value of an earlier one. -/
def Ordered (r : Routine) : Prop :=
  ∀ v i, r.instruction? v = some i → ∀ a ∈ i.operands, a < v

theorem ordered_empty (name : String) : (Routine.empty name).Ordered := by
  intro v i h
  cases h

theorem Ordered.push {r : Routine} (h : r.Ordered) {i : Instruction}
    (hi : ∀ a ∈ i.operands, a < r.size) : (r.push i).Ordered := by
  intro v j hj
  rcases instruction?_push_eq_some hj with ⟨rfl, rfl⟩ | hj
  · exact hi
  · exact h v j hj

end Routine

/-! ## What a primitive demands -/

theorem Ty.isClear_iff {t : Ty} : t.isClear = true ↔ ∃ w, t = .clear w := by
  cases t <;> simp [isClear]

theorem Ty.isEncrypted_iff {t : Ty} : t.isEncrypted = true ↔ ∃ w, t = .encrypted w := by
  cases t <;> simp [isEncrypted]

/-- Refuses operands and a result whose types are wrong for a primitive. -/
def Primitive.checkTypes (p : Primitive) (result left right : Ty) : Except EmitError Unit := do
  if p = .dotClear then
    Routine.checkShapes p left right
  Routine.checkOperand p 0 p.operandClasses.1 left
  Routine.checkOperand p 1 p.operandClasses.2 right
  Routine.checkResult p result

namespace Routine

theorem checkOperand_eq_ok_iff {p : Primitive} {position : Nat} {expected : TyClass} {found : Ty}
    {u : Unit} :
    checkOperand p position expected found = .ok u ↔ expected.contains found = true := by
  unfold checkOperand
  split <;> simp_all

/-- In an open routine a primitive on defined values is checked by their types alone. -/
theorem checkPrimitive_eq_checkTypes {r : Routine} {p : Primitive} {result leftTy rightTy : Ty}
    {left right : Nat} (hopen : r.returned = none) (hl : r.type? left = some leftTy)
    (hr : r.type? right = some rightTy) :
    r.checkPrimitive p result left right = p.checkTypes result leftTy rightTy := by
  have hopen : r.checkOpen = .ok () := checkOpen_eq_ok_iff.2 hopen
  have hl := typeOf_eq_ok_iff.2 hl
  have hr := typeOf_eq_ok_iff.2 hr
  unfold checkPrimitive Primitive.checkTypes
  simp only [hopen, hl, hr, Except.ok_bind]

/-- A primitive that is accepted is added to an open routine, on values that are defined. -/
theorem types_of_checkPrimitive {r : Routine} {p : Primitive} {result : Ty} {left right : Nat}
    {u : Unit} (h : r.checkPrimitive p result left right = .ok u) :
    r.returned = none ∧ ∃ leftTy rightTy, r.type? left = some leftTy ∧
      r.type? right = some rightTy ∧ p.checkTypes result leftTy rightTy = .ok () := by
  have hrest : ∃ u : Unit, r.checkOpen = .ok u ∧ ∃ leftTy, r.typeOf left = .ok leftTy ∧
      ∃ rightTy, r.typeOf right = .ok rightTy := by
    unfold checkPrimitive at h
    split at h
    · simp only [Except.bind_eq_ok_iff] at h
      obtain ⟨leftTy, hl, rightTy, hr, -, -, u, hopen, -⟩ := h
      exact ⟨u, hopen, leftTy, hl, rightTy, hr⟩
    · simp only [Except.bind_eq_ok_iff] at h
      obtain ⟨u, hopen, leftTy, hl, rightTy, hr, -⟩ := h
      exact ⟨u, hopen, leftTy, hl, rightTy, hr⟩
  obtain ⟨_, hopen, leftTy, hl, rightTy, hr⟩ := hrest
  have hopen := checkOpen_eq_ok_iff.1 hopen
  have hl := typeOf_eq_ok_iff.1 hl
  have hr := typeOf_eq_ok_iff.1 hr
  rw [checkPrimitive_eq_checkTypes hopen hl hr] at h
  exact ⟨hopen, leftTy, rightTy, hl, hr, h⟩

theorem checkReturn_eq_ok_iff {r : Routine} {values : List Nat} {u : Unit} :
    r.checkReturn values = .ok u ↔
      r.returned = none ∧ ∀ v ∈ values, ∃ t, r.type? v = some t := by
  have hvalue (v : Nat) : discard (r.typeOf v) = .ok () ↔ ∃ t, r.type? v = some t := by
    simp only [← typeOf_eq_ok_iff]
    cases r.typeOf v <;> simp [discard, Functor.mapConst, Except.map]
  unfold checkReturn
  simp only [Except.bind_eq_ok_iff, checkOpen_eq_ok_iff, Except.forM_eq_ok_iff, hvalue]
  simp

end Routine

end CipherFlow
