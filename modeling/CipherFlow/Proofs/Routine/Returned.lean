import CipherFlow.Proofs.Routine.Calls

/-!
# Routines that have returned

A routine that has returned refuses every call and stays as it is. The reason it gives is that it
has returned, whatever else is wrong with the call. A dot product is the exception: it looks at its
operands before all else, and a complaint about them comes first (`Routine.Forestalls`). Main
statement: `Routine.answers_of_isTerminated`, about any number of calls behind the return.
-/

set_option autoImplicit false

namespace CipherFlow.Routine

variable {r : Routine} {c : Emission.Call} {p : Primitive} {result : Ty} {left right : Nat}

/-! ## Complaints that come first -/

/-- The complaints of a call about its operands that come before the one that the routine has
returned. -/
inductive Forestalls (r : Routine) : Emission.Call → EmitError → Prop
  | unknownLeft {result : Ty} {left right : Nat} (hleft : r.type? left = none) :
      Forestalls r (.primitive .dotClear result left right) (.unknownValue left)
  | unknownRight {result leftTy : Ty} {left right : Nat} (hleft : r.type? left = some leftTy)
      (hright : r.type? right = none) :
      Forestalls r (.primitive .dotClear result left right) (.unknownValue right)
  | shapes {result leftTy rightTy : Ty} {left right : Nat} {m n : Shape}
      (hleft : r.type? left = some leftTy) (hright : r.type? right = some rightTy)
      (hm : leftTy.shape? = some m) (hn : rightTy.shape? = some n) (hne : m ≠ n) :
      Forestalls r (.primitive .dotClear result left right) (.shapeMismatch .dotClear m n)

theorem typeOf_eq_error_iff {v : Nat} {e : EmitError} :
    r.typeOf v = .error e ↔ r.type? v = none ∧ e = .unknownValue v := by
  unfold typeOf
  cases r.type? v <;> simp [eq_comm]

/-- Shapes are compared only where both types have one. -/
theorem checkShapes_eq_error_iff {leftTy rightTy : Ty} {e : EmitError} :
    checkShapes p leftTy rightTy = .error e ↔
      ∃ m n, leftTy.shape? = some m ∧ rightTy.shape? = some n ∧ m ≠ n ∧
        e = .shapeMismatch p m n := by
  unfold checkShapes
  cases hm : leftTy.shape? with
  | none => simp
  | some m =>
      cases hn : rightTy.shape? with
      | none => simp
      | some n =>
          by_cases hmn : m = n
          · simp [hmn]
          · simp [hmn, eq_comm]

/-- What a dot product asks of its operands before it asks whether the routine has returned. -/
def checkDotOperands (r : Routine) (left right : Nat) : Except EmitError Unit := do
  let leftTy ← r.typeOf left
  let rightTy ← r.typeOf right
  checkShapes .dotClear leftTy rightTy

theorem checkDotOperands_eq_error_iff {e : EmitError} :
    r.checkDotOperands left right = .error e ↔
      r.Forestalls (.primitive .dotClear result left right) e := by
  unfold checkDotOperands
  simp only [Except.bind_eq_error_iff, typeOf_eq_error_iff, typeOf_eq_ok_iff,
    checkShapes_eq_error_iff]
  constructor
  · rintro (⟨hleft, rfl⟩ |
      ⟨leftTy, hleft, ⟨hright, rfl⟩ | ⟨rightTy, hright, m, n, hm, hn, hne, rfl⟩⟩)
    · exact .unknownLeft hleft
    · exact .unknownRight hleft hright
    · exact .shapes hleft hright hm hn hne
  · intro h
    cases h with
    | unknownLeft hleft => exact Or.inl ⟨hleft, rfl⟩
    | unknownRight hleft hright => exact Or.inr ⟨_, hleft, Or.inl ⟨hright, rfl⟩⟩
    | shapes hleft hright hm hn hne =>
        exact Or.inr ⟨_, hleft, Or.inr ⟨_, hright, _, _, hm, hn, hne, rfl⟩⟩

/-! ## What is refused -/

theorem checkOpen_of_isTerminated (h : r.isTerminated = true) :
    r.checkOpen = .error (.alreadyTerminated r.name) := by
  unfold checkOpen
  rw [if_pos h]

theorem checkPrimitive_dotClear :
    r.checkPrimitive .dotClear result left right = (do
      r.checkDotOperands left right
      r.checkOpen
      let leftTy ← r.typeOf left
      let rightTy ← r.typeOf right
      checkOperand .dotClear 0 Primitive.dotClear.operandClasses.1 leftTy
      checkOperand .dotClear 1 Primitive.dotClear.operandClasses.2 rightTy
      checkResult .dotClear result) := by
  unfold checkPrimitive checkDotOperands
  cases r.typeOf left with
  | error e => rfl
  | ok leftTy =>
      cases r.typeOf right with
      | error e => rfl
      | ok rightTy => rfl

theorem check_of_forestalls {e : EmitError} (he : r.Forestalls c e) : c.check r = .error e := by
  have hdot : ∃ result left right, c = .primitive .dotClear result left right := by
    cases he <;> exact ⟨_, _, _, rfl⟩
  obtain ⟨result, left, right, rfl⟩ := hdot
  have hoperands : r.checkDotOperands left right = .error e :=
    checkDotOperands_eq_error_iff.2 he
  rw [Emission.Call.check, checkPrimitive_dotClear, hoperands, Except.error_bind]

/-- Where no complaint about operands comes first, a call is refused because of the return. -/
theorem check_of_isTerminated (h : r.isTerminated = true) (hnone : ∀ e, ¬ r.Forestalls c e) :
    c.check r = .error (.alreadyTerminated r.name) := by
  have hclosed := checkOpen_of_isTerminated h
  cases c with
  | argument ty => exact hclosed
  | constant literal => exact hclosed
  | ret values =>
      show r.checkReturn values = _
      rw [checkReturn, hclosed, Except.error_bind]
  | primitive p result left right =>
      show r.checkPrimitive p result left right = _
      by_cases hp : p = .dotClear
      · subst hp
        have hoperands : r.checkDotOperands left right = .ok () := by
          cases hcheck : r.checkDotOperands left right with
          | ok u => rfl
          | error e => exact absurd (checkDotOperands_eq_error_iff.1 hcheck) (hnone e)
        rw [checkPrimitive_dotClear, hoperands, Except.ok_bind, hclosed, Except.error_bind]
      · unfold checkPrimitive
        rw [if_neg hp, hclosed]
        rfl

/-- How a routine that has returned answers a call: with the complaint that comes first if there is
one, and otherwise by saying that it has returned. -/
def Refuses (r : Routine) (c : Emission.Call) (answer : Except EmitError Nat) : Prop :=
  (∀ e, r.Forestalls c e → answer = .error e) ∧
    ((∀ e, ¬ r.Forestalls c e) → answer = .error (.alreadyTerminated r.name))

/-- A routine that has returned refuses a call and stays as it is. -/
theorem call_of_isTerminated (h : r.isTerminated = true) (c : Emission.Call) :
    r.call c = r ∧ r.Refuses c (c.perform.answer r) := by
  rcases r.call_cases c with ⟨hcheck, -, -⟩ | ⟨e, hcheck, hanswer, hcall⟩
  · -- A call that is accepted would have found the routine open.
    have hopen : r.returned = none := ((Emission.Call.check_eq_ok_iff 0).1 hcheck).1
    rw [isTerminated, hopen] at h
    cases h
  · have hanswer_eq {e' : EmitError} (he' : c.check r = .error e') :
        c.perform.answer r = .error e' := by
      have heq : e = e' := Except.error.inj (hcheck.symm.trans he')
      rw [hanswer, heq]
    refine ⟨hcall, ?_, ?_⟩
    · intro e' he'
      exact hanswer_eq (check_of_forestalls he')
    · intro hnone
      exact hanswer_eq (check_of_isTerminated h hnone)

/-- However many calls are made behind the return, each of them is refused and the routine stays as
it is. -/
theorem answers_of_isTerminated (h : r.isTerminated = true) (calls : List Emission.Call) :
    calls.foldl call r = r ∧ List.Forall₂ r.Refuses calls (r.answers calls) := by
  induction calls with
  | nil => exact ⟨rfl, .nil⟩
  | cons c calls ih =>
      obtain ⟨hcall, hrefused⟩ := call_of_isTerminated h c
      rw [List.foldl_cons, answers, hcall]
      exact ⟨ih.1, .cons hrefused ih.2⟩

/-- Calls behind a return, of which the first two have unknown operands. -/
theorem answers_returnedArgument :
    let r := ofCalls "f" [.argument (.encrypted 4), .ret [0]]
    let calls : List Emission.Call :=
      [.ret [7], .primitive .lookup (.clear 0) 7 8, .primitive .dotClear (.encrypted 4) 0 0]
    r.isTerminated = true ∧ calls.foldl call r = r ∧
      List.Forall₂ r.Refuses calls (r.answers calls) := by
  intro r calls
  have hreturned : r.isTerminated = true := rfl
  exact ⟨hreturned, answers_of_isTerminated hreturned calls⟩

/-- Behind the return, a dot product is refused for an operand that is unknown, and another for its
shapes. Neither says that the routine has returned. -/
theorem answers_returnedVectors :
    let r := ofCalls "f"
      [.argument (.tensor [2] (.encrypted 4)), .argument (.tensor [3] (.clear 4)), .ret []]
    let answers := r.answers
      [.primitive .dotClear (.encrypted 4) 0 7, .primitive .dotClear (.encrypted 4) 0 1]
    r.isTerminated = true ∧
      answers = [.error (.unknownValue 7), .error (.shapeMismatch .dotClear [2] [3])] ∧
      ∀ answer ∈ answers, answer ≠ .error (.alreadyTerminated "f") := by
  intro r answers
  have hanswers : answers
      = [.error (.unknownValue 7), .error (.shapeMismatch .dotClear [2] [3])] := rfl
  refine ⟨rfl, hanswers, ?_⟩
  rw [hanswers]
  simp

end CipherFlow.Routine
