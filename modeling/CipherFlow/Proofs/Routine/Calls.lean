import CipherFlow.Proofs.Routine.Typing

/-!
# Routines made by calls

A routine is made by any sequence of calls, of which those that are refused change nothing. A call
is one guarded step (`Emission.Call.perform_eq`), and an open routine accepts exactly the calls
whose instruction it admits (`Emission.Call.check_eq_ok_iff`). Main statements: the accepted calls
of a run answer with the indices of a row without gaps (`Routine.range_append_filterMap_answers`),
and the instruction that a call asked for stands under the index that it answered with
(`Routine.forall₂_answers`).
-/

set_option autoImplicit false

namespace CipherFlow

/-! ## Calls -/

/-- A call that adds an instruction to a routine. -/
inductive Emission.Call
  | argument (ty : Ty)
  | constant (literal : Literal)
  | primitive (p : Primitive) (result : Ty) (left right : Nat)
  | ret (values : List Nat)

namespace Emission.Call

/-- The step that a call makes. -/
def perform : Call → Emission Nat
  | argument ty => Emission.argument ty
  | constant literal => Emission.constant literal
  | primitive p result left right => Emission.primitive p result left right
  | ret values => Emission.ret values

/-- The instruction that a call asks for, where an argument would take the given position. -/
def instruction (position : Nat) : Call → Instruction
  | argument ty => ⟨.argument position, [], some ty⟩
  | constant literal => ⟨.constant literal, [], some literal.ty⟩
  | primitive p result left right => ⟨.primitive p, [left, right], some result⟩
  | ret values => ⟨.ret, values, none⟩

/-- What a call is checked for. -/
def check : Call → Routine → Except EmitError Unit
  | argument _, r => r.checkOpen
  | constant _, r => r.checkOpen
  | primitive p result left right, r => r.checkPrimitive p result left right
  | ret values, r => r.checkReturn values

/-- The routine behind a call that is accepted. -/
def extend (c : Call) (r : Routine) : Routine :=
  let longer := r.push (c.instruction r.arguments.length)
  match c with
  | argument _ => { longer with arguments := r.arguments ++ [r.size] }
  | ret values => { longer with returned := some values }
  | constant _ => longer
  | primitive _ _ _ _ => longer

variable {c : Call} {r r' : Routine} {v : Nat} {e : EmitError}

theorem perform_eq (c : Call) : c.perform = guarded c.check c.extend := by
  cases c <;> rfl

theorem perform_eq_ok_iff :
    c.perform r = .ok v r' ↔ c.check r = .ok () ∧ v = r.size ∧ r' = c.extend r := by
  rw [perform_eq, guarded_eq_ok_iff]

theorem perform_eq_error_iff :
    c.perform r = .error e r' ↔ c.check r = .error e ∧ r' = r := by
  rw [perform_eq, guarded_eq_error_iff]

/-- An open routine accepts the calls whose instruction it admits, and a routine that has returned
accepts none. -/
theorem check_eq_ok_iff (position : Nat) {u : Unit} :
    c.check r = .ok u ↔ r.returned = none ∧ r.Admits (c.instruction position) := by
  cases c with
  | argument ty =>
      rw [check, Routine.checkOpen_eq_ok_iff]
      exact ⟨fun h => ⟨h, .argument⟩, fun h => h.1⟩
  | constant literal =>
      rw [check, Routine.checkOpen_eq_ok_iff]
      exact ⟨fun h => ⟨h, .constant⟩, fun h => h.1⟩
  | primitive p result left right =>
      rw [check]
      constructor
      · intro h
        obtain ⟨hopen, leftTy, rightTy, hl, hr, htypes⟩ := Routine.types_of_checkPrimitive h
        exact ⟨hopen, .primitive hl hr (Primitive.checkTypes_eq_ok_iff.1 htypes)⟩
      · rintro ⟨hopen, hadmits⟩
        cases hadmits with
        | primitive hl hr htakes =>
            rw [Routine.checkPrimitive_eq_checkTypes hopen hl hr]
            exact Primitive.checkTypes_eq_ok_iff.2 htakes
  | ret values =>
      rw [check, Routine.checkReturn_eq_ok_iff]
      constructor
      · rintro ⟨hopen, hvalues⟩
        exact ⟨hopen, .ret hvalues⟩
      · rintro ⟨hopen, hadmits⟩
        cases hadmits with
        | ret hvalues => exact ⟨hopen, hvalues⟩

@[simp] theorem size_extend (c : Call) (r : Routine) : (c.extend r).size = r.size + 1 := by
  cases c <;> exact Routine.size_push r _

theorem instruction?_extend (c : Call) (r : Routine) (v : Nat) :
    (c.extend r).instruction? v
      = (r.push (c.instruction r.arguments.length)).instruction? v := by
  cases c <;> rfl

theorem operands_extend (c : Call) (r : Routine) (v : Nat) :
    (c.extend r).operands v = (r.push (c.instruction r.arguments.length)).operands v := by
  cases c <;> rfl

theorem links_extend (c : Call) (r : Routine) :
    (c.extend r).links
      = r.links ++ operandLinks r.size (c.instruction r.arguments.length).operands 0 := by
  cases c <;> rfl

theorem extendedBy_extend (c : Call) (r : Routine) : r.ExtendedBy (c.extend r) := by
  intro v i h
  rw [instruction?_extend]
  exact Routine.extendedBy_push r _ v i h

end Emission.Call

/-! ## Runs -/

namespace Emission

/-- What a step answers. -/
def answer {α : Type} (step : Emission α) (r : Routine) : Except EmitError α :=
  match step r with
  | .ok a _ => .ok a
  | .error e _ => .error e

/-- The routine after a step, which may have failed. -/
def after {α : Type} (step : Emission α) (r : Routine) : Routine :=
  match step r with
  | .ok _ r' => r'
  | .error _ r' => r'

end Emission

namespace Routine

/-- The routine after a call, which may have been refused. -/
def call (r : Routine) (c : Emission.Call) : Routine := c.perform.after r

/-- What calls answer that are made one after another. -/
def answers (r : Routine) : List Emission.Call → List (Except EmitError Nat)
  | [] => []
  | c :: calls => c.perform.answer r :: (r.call c).answers calls

/-- The routine that calls make from nothing. -/
def ofCalls (name : String) (calls : List Emission.Call) : Routine := calls.foldl call (.empty name)

/-- A call is accepted and adds its instruction, or it is refused and changes nothing. -/
theorem call_cases (r : Routine) (c : Emission.Call) :
    (c.check r = .ok () ∧ c.perform.answer r = .ok r.size ∧ r.call c = c.extend r) ∨
      ∃ e, c.check r = .error e ∧ c.perform.answer r = .error e ∧ r.call c = r := by
  unfold call Emission.after Emission.answer
  rcases hcheck : c.check r with e | u
  · have h : c.perform r = .error e r := Emission.Call.perform_eq_error_iff.2 ⟨hcheck, rfl⟩
    exact Or.inr ⟨e, rfl, by rw [h], by rw [h]⟩
  · have h : c.perform r = .ok r.size (c.extend r) :=
      Emission.Call.perform_eq_ok_iff.2 ⟨hcheck, rfl, rfl⟩
    exact Or.inl ⟨rfl, by rw [h], by rw [h]⟩

theorem extendedBy_call (r : Routine) (c : Emission.Call) : r.ExtendedBy (r.call c) := by
  rcases r.call_cases c with ⟨-, -, h⟩ | ⟨e, -, -, h⟩
  · rw [h]
    exact c.extendedBy_extend r
  · rw [h]
    exact fun _ _ hi => hi

/-- A run only adds instructions. -/
theorem extendedBy_foldl_call (r : Routine) (calls : List Emission.Call) :
    r.ExtendedBy (calls.foldl call r) := by
  induction calls generalizing r with
  | nil => exact fun _ _ hi => hi
  | cons c calls ih => exact (r.extendedBy_call c).trans (ih (r.call c))

/-- The calls of a run that are accepted answer with the indices that follow those there are. -/
theorem range_append_filterMap_answers (r : Routine) (calls : List Emission.Call) :
    List.range r.size ++ (r.answers calls).filterMap Except.toOption
      = List.range (calls.foldl call r).size := by
  induction calls generalizing r with
  | nil => simp [answers]
  | cons c calls ih =>
      rw [List.foldl_cons, ← ih (r.call c)]
      rcases r.call_cases c with ⟨-, hanswer, hcall⟩ | ⟨e, -, hanswer, hcall⟩
      · calc List.range r.size ++ (r.answers (c :: calls)).filterMap Except.toOption
            = List.range r.size ++ ([r.size] ++
                ((r.call c).answers calls).filterMap Except.toOption) := by
              rw [answers, hanswer]
              rfl
          _ = List.range (r.call c).size ++
                ((r.call c).answers calls).filterMap Except.toOption := by
              rw [hcall, Emission.Call.size_extend, List.range_succ, List.append_assoc]
      · rw [answers, hanswer, hcall]
        rfl

/-- Under the index that a call of a run answered with stands the instruction that it asked for. -/
theorem forall₂_answers (r : Routine) (calls : List Emission.Call) :
    List.Forall₂ (fun c answer => ∀ v, answer = .ok v →
        ∃ position, (calls.foldl call r).instruction? v = some (c.instruction position))
      calls (r.answers calls) := by
  induction calls generalizing r with
  | nil => exact .nil
  | cons c calls ih =>
      refine .cons (fun v hv => ?_) (ih (r.call c))
      rcases r.call_cases c with ⟨-, hanswer, hcall⟩ | ⟨e, -, hanswer, hcall⟩
      · obtain rfl : r.size = v := by
          rw [hanswer] at hv
          exact Except.ok.inj hv
        -- The instruction is there right after the call, and stays.
        refine ⟨r.arguments.length, (r.call c).extendedBy_foldl_call calls _ _ ?_⟩
        rw [hcall, Emission.Call.instruction?_extend, instruction?_push_size]
      · rw [hanswer] at hv
        cases hv

end Routine

end CipherFlow
