import CipherFlow.Dataflow.Descriptor

/-!
# The kinds of descriptors

Which descriptors are of a kind, and the type that a descriptor describes.
-/

set_option autoImplicit false

namespace CipherFlow

namespace Descriptor

variable {d : Descriptor}

theorem kind_eq_clearScalar_iff :
    d.kind = .clearScalar ↔ ∃ width signed, d = scalar false (.integer width signed) := by
  obtain ⟨secret, shape, element⟩ := d
  cases element with
  | float width => simp [kind, scalar]
  | integer width signed =>
      cases secret <;> cases shape <;> cases signed <;> simp [kind, isScalar, scalar]

theorem kind_eq_clearTensor_iff :
    d.kind = .clearTensor ↔
      ∃ shape width signed, shape ≠ [] ∧ d = tensor false shape (.integer width signed) := by
  obtain ⟨secret, shape, element⟩ := d
  cases element with
  | float width => simp [kind, tensor]
  | integer width signed =>
      cases secret <;> cases shape <;> cases signed <;> simp [kind, isScalar, tensor]

theorem kind_eq_encryptedScalar_iff :
    d.kind = .encryptedScalar ↔ ∃ width, d = encryptedUnsigned width := by
  obtain ⟨secret, shape, element⟩ := d
  cases element with
  | float width => simp [kind, encryptedUnsigned, scalar]
  | integer width signed =>
      cases secret <;> cases shape <;> cases signed <;>
        simp [kind, isScalar, encryptedUnsigned, scalar]

theorem kind_eq_encryptedTensor_iff :
    d.kind = .encryptedTensor ↔
      ∃ shape width signed, shape ≠ [] ∧ d = tensor true shape (.integer width signed) := by
  obtain ⟨secret, shape, element⟩ := d
  cases element with
  | float width => simp [kind, tensor]
  | integer width signed =>
      cases secret <;> cases shape <;> cases signed <;> simp [kind, isScalar, tensor]

theorem kind_eq_nonInteger_iff : d.kind = .nonInteger ↔ ∃ width, d.element = .float width := by
  obtain ⟨secret, shape, element⟩ := d
  cases element with
  | float width => simp [kind]
  | integer width signed =>
      cases secret <;> cases shape <;> cases signed <;> simp [kind, isScalar]

/-- The type of the integers that a descriptor describes, encrypted or not. -/
def elementTy (d : Descriptor) : Ty := if d.isEncrypted then .encrypted d.width else .clear d.width

/-- The type of the value that a descriptor describes. -/
def ty (d : Descriptor) : Ty := if d.isScalar then d.elementTy else .tensor d.shape d.elementTy

theorem ty_tensor {secret : Bool} {shape : Shape} {element : Element} (h : shape ≠ []) :
    (tensor secret shape element).ty = .tensor shape (scalar secret element).ty := by
  cases shape with
  | nil => exact absurd rfl h
  | cons d rest => rfl

end Descriptor

end CipherFlow
