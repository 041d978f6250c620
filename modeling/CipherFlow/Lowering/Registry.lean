import CipherFlow.Lowering.Error

/-!
# The registry of values

The registry holds the value that each lowered node has in the routine. An entry is written once.
-/

set_option autoImplicit false

namespace CipherFlow

/-- The nodes that have a value, each with its value, the last entry first. -/
structure Registry where
  entries : List (Nat × Nat)
  deriving DecidableEq, Repr

namespace Registry

def empty : Registry := ⟨[]⟩

def find? (r : Registry) (n : Nat) : Option Nat := r.entries.lookup n

def contains (r : Registry) (n : Nat) : Bool := (r.find? n).isSome

def size (r : Registry) : Nat := r.entries.length

def get (r : Registry) (n : Nat) : Except LowerError Nat :=
  match r.find? n with
  | some v => .ok v
  | none => .error (.missingOperand n)

def insert (r : Registry) (n v : Nat) : Except LowerError Registry :=
  if r.contains n then .error (.alreadyLowered n) else .ok ⟨(n, v) :: r.entries⟩

theorem get_eq_ok_iff {r : Registry} {n v : Nat} : r.get n = .ok v ↔ r.find? n = some v := by
  unfold get
  split <;> simp_all

theorem insert_eq_error_iff {r : Registry} {n v : Nat} {e : LowerError} :
    r.insert n v = .error e ↔ r.contains n = true ∧ e = .alreadyLowered n := by
  unfold insert
  split
  · next h =>
      simp only [Except.error.injEq, h, true_and]
      exact eq_comm
  · next h => simp [h]

end Registry

end CipherFlow
