import CipherFlow.Routine.Basic

/-!
# Adding instructions

Every way to add an instruction is one guarded step (`Emission.guarded`): it refuses and changes
nothing, or it appends one instruction and answers with its index. The checks have a fixed order,
which decides the error of an instruction with several faults.
-/

set_option autoImplicit false

namespace CipherFlow

abbrev Emission (α : Type) := EStateM EmitError Routine α

namespace Routine

/-! ## Checks -/

def isTerminated (r : Routine) : Bool := r.returned.isSome

def checkOpen (r : Routine) : Except EmitError Unit :=
  if r.isTerminated then .error (.alreadyTerminated r.name) else .ok ()

def checkOperand (p : Primitive) (position : Nat) (expected : TyClass) (found : Ty) :
    Except EmitError Unit :=
  if expected.contains found then .ok () else .error (.operandType p position expected found)

def checkShapes (p : Primitive) (left right : Ty) : Except EmitError Unit :=
  match left.shape?, right.shape? with
  | some l, some r => if l = r then .ok () else .error (.shapeMismatch p l r)
  | _, _ => .ok ()

def checkResult (p : Primitive) (result : Ty) : Except EmitError Unit :=
  if result.isEncrypted then .ok () else .error (.resultType p result)

/-- Refuses a primitive that is not well typed. The shapes of a dot product are compared before all
else; then the routine must be open, the operands defined and of their classes, and the result an
encrypted integer. -/
def checkPrimitive (r : Routine) (p : Primitive) (result : Ty) (left right : Nat) :
    Except EmitError Unit := do
  -- The shapes are compared even where the routine has returned.
  if p = .dotClear then
    let leftTy ← r.typeOf left
    let rightTy ← r.typeOf right
    checkShapes p leftTy rightTy
  r.checkOpen
  let leftTy ← r.typeOf left
  let rightTy ← r.typeOf right
  checkOperand p 0 p.operandClasses.1 leftTy
  checkOperand p 1 p.operandClasses.2 rightTy
  checkResult p result

def checkReturn (r : Routine) (values : List Nat) : Except EmitError Unit := do
  r.checkOpen
  values.forM fun v => discard (r.typeOf v)

theorem checkOpen_eq_ok_iff {r : Routine} {u : Unit} :
    r.checkOpen = .ok u ↔ r.returned = none := by
  unfold checkOpen isTerminated
  cases r.returned <;> simp

end Routine

/-! ## Steps -/

namespace Emission

/-- The step that extends the routine if the check passes, and answers with the index of the
instruction it adds. -/
def guarded (check : Routine → Except EmitError Unit) (extend : Routine → Routine) :
    Emission Nat := fun r =>
  match check r with
  | .error e => .error e r
  | .ok () => .ok r.size (extend r)

def argument (ty : Ty) : Emission Nat :=
  guarded Routine.checkOpen fun r =>
    { r.push ⟨.argument r.arguments.length, [], some ty⟩ with
      arguments := r.arguments ++ [r.size] }

def constant (literal : Literal) : Emission Nat :=
  guarded Routine.checkOpen fun r => r.push ⟨.constant literal, [], some literal.ty⟩

def primitive (p : Primitive) (result : Ty) (left right : Nat) : Emission Nat :=
  guarded (·.checkPrimitive p result left right) fun r =>
    r.push ⟨.primitive p, [left, right], some result⟩

def ret (values : List Nat) : Emission Nat :=
  guarded (·.checkReturn values) fun r =>
    { r.push ⟨.ret, values, none⟩ with returned := some values }

/-! ## What a step changes -/

theorem guarded_eq_ok_iff {check : Routine → Except EmitError Unit} {extend : Routine → Routine}
    {r r' : Routine} {v : Nat} :
    guarded check extend r = .ok v r' ↔ check r = .ok () ∧ v = r.size ∧ r' = extend r := by
  unfold guarded
  split <;> simp_all [eq_comm]

/-- A step that fails leaves the routine as it was, and fails with the error of its check. -/
theorem guarded_eq_error_iff {check : Routine → Except EmitError Unit}
    {extend : Routine → Routine} {r r' : Routine} {e : EmitError} :
    guarded check extend r = .error e r' ↔ check r = .error e ∧ r' = r := by
  unfold guarded
  split <;> simp_all [eq_comm]

end Emission

end CipherFlow
