import CipherFlow.Proofs.Routine.Calls

/-!
# Single assignment

What holds of every routine that calls make, whatever values and types they name and however many of
them are refused: each instruction is well typed over values before it and linked to them by
position, the arguments are listed by their positions, and a return stands at the end exactly when
the routine has returned (`Routine.SingleAssignment`). An accepted call keeps this
(`Routine.SingleAssignment.extend`), and so does a run. Main statement:
`Routine.singleAssignment_ofCalls`.
-/

set_option autoImplicit false

namespace CipherFlow.Routine

/-- What holds of a routine in which each value is assigned once, before it is used. -/
structure SingleAssignment (r : Routine) : Prop where
  /-- Every operand is the value of an earlier instruction. -/
  operands_defined : ∀ v i, r.instruction? v = some i →
    ∀ a ∈ i.operands, a < v ∧ ∃ t, r.type? a = some t
  /-- The links to an instruction are one from each of its operands, at positions from `0` on. -/
  links_eq : r.links = (List.range r.size).flatMap fun v => operandLinks v (r.operands v) 0
  admits : ∀ v i, r.instruction? v = some i → r.Admits i
  /-- The arguments are the instructions that stand for one, each listed at its position. -/
  arguments_iff : ∀ position v, r.arguments[position]? = some v ↔
    ∃ i, r.instruction? v = some i ∧ i.op = .argument position
  isTerminated_iff : r.isTerminated = true ↔ ∃ v i, r.instruction? v = some i ∧ i.op = .ret
  /-- Only the last instruction can return, and its operands are the results. -/
  ret_last : ∀ v i, r.instruction? v = some i → i.op = .ret →
    v + 1 = r.size ∧ i.operands = r.results

variable {r : Routine} {c : Emission.Call}

theorem isTerminated_eq_false_iff : r.isTerminated = false ↔ r.returned = none := by
  unfold isTerminated
  cases r.returned <;> simp

/-- An instruction with a property is one that was there or the one that is added. -/
theorem exists_instruction?_extend {P : Instruction → Prop} {v : Nat} :
    (∃ i, (c.extend r).instruction? v = some i ∧ P i) ↔
      (∃ i, r.instruction? v = some i ∧ P i) ∨
        v = r.size ∧ P (c.instruction r.arguments.length) := by
  rw [Emission.Call.instruction?_extend]
  constructor
  · rintro ⟨i, hi, hP⟩
    rcases instruction?_push_eq_some hi with ⟨rfl, rfl⟩ | hi
    · exact Or.inr ⟨rfl, hP⟩
    · exact Or.inl ⟨i, hi, hP⟩
  · rintro (⟨i, hi, hP⟩ | ⟨rfl, hP⟩)
    · exact ⟨i, extendedBy_push r _ v i hi, hP⟩
    · exact ⟨_, instruction?_push_size r _, hP⟩

/-- Only the call of an argument adds to the list of arguments. -/
theorem getElem?_arguments_extend {position v : Nat} :
    (c.extend r).arguments[position]? = some v ↔
      r.arguments[position]? = some v ∨
        v = r.size ∧ (c.instruction r.arguments.length).op = .argument position := by
  cases c with
  | argument ty =>
      show (r.arguments ++ [r.size])[position]? = some v ↔ _
      simp only [Emission.Call.instruction, Op.argument.injEq]
      rcases Nat.lt_trichotomy position r.arguments.length with hlt | rfl | hgt
      · rw [List.getElem?_append_left hlt]
        exact ⟨Or.inl, fun h => h.resolve_right fun h => absurd h.2 (Nat.ne_of_gt hlt)⟩
      · simp [eq_comm]
      · have hnone : r.arguments[position]? = none := List.getElem?_eq_none (Nat.le_of_lt hgt)
        have hend : (r.arguments ++ [r.size])[position]? = none :=
          List.getElem?_eq_none (by rw [List.length_append]; exact hgt)
        rw [hnone, hend]
        simp [Nat.ne_of_lt hgt]
  | constant literal => simp [Emission.Call.extend, Emission.Call.instruction, push]
  | primitive p result left right => simp [Emission.Call.extend, Emission.Call.instruction, push]
  | ret values => simp [Emission.Call.extend, Emission.Call.instruction, push]

/-- Only the call of a return ends a routine. -/
theorem isTerminated_extend (h : r.returned = none) :
    (c.extend r).isTerminated = true ↔ (c.instruction r.arguments.length).op = .ret := by
  cases c <;> simp [Emission.Call.extend, Emission.Call.instruction, isTerminated, push, h]

/-- A return has the results as its operands. -/
theorem results_extend (hop : (c.instruction r.arguments.length).op = .ret) :
    (c.instruction r.arguments.length).operands = (c.extend r).results := by
  cases c with
  | ret values => rfl
  | argument ty => nomatch hop
  | constant literal => nomatch hop
  | primitive p result left right => nomatch hop

namespace SingleAssignment

theorem empty (name : String) : (Routine.empty name).SingleAssignment := by
  have hnone {v : Nat} {i : Instruction} (h : (Routine.empty name).instruction? v = some i) :
      False := by
    cases h
  constructor
  case operands_defined => exact fun v i hi => (hnone hi).elim
  case links_eq => rfl
  case admits => exact fun v i hi => (hnone hi).elim
  case arguments_iff =>
    intro position v
    constructor
    · exact fun h => (List.not_mem_nil (List.mem_of_getElem? h)).elim
    · rintro ⟨i, hi, -⟩
      exact (hnone hi).elim
  case isTerminated_iff =>
    constructor
    · intro h
      cases h
    · rintro ⟨v, i, hi, -⟩
      exact (hnone hi).elim
  case ret_last => exact fun v i hi => (hnone hi).elim

/-- In an open routine nothing returns. -/
theorem op_ne_ret (h : r.SingleAssignment) (hopen : r.returned = none) {v : Nat} {i : Instruction}
    (hi : r.instruction? v = some i) : i.op ≠ .ret := by
  intro hop
  have hterminated := h.isTerminated_iff.2 ⟨v, i, hi, hop⟩
  rw [isTerminated_eq_false_iff.2 hopen] at hterminated
  cases hterminated

/-- An accepted call keeps what holds. -/
theorem extend (h : r.SingleAssignment) (hc : c.check r = .ok ()) :
    (c.extend r).SingleAssignment := by
  obtain ⟨hopen, hadmits⟩ := (Emission.Call.check_eq_ok_iff r.arguments.length).1 hc
  have hext := c.extendedBy_extend r
  -- What stands in the longer routine was there, or it is the instruction of the call.
  have hcases {v : Nat} {i : Instruction} (hi : (c.extend r).instruction? v = some i) :
      r.instruction? v = some i ∨ v = r.size ∧ i = c.instruction r.arguments.length := by
    rw [Emission.Call.instruction?_extend] at hi
    exact (instruction?_push_eq_some hi).symm
  constructor
  case operands_defined =>
    intro v i hi a ha
    rcases hcases hi with hi | ⟨rfl, rfl⟩
    · obtain ⟨hlt, t, ht⟩ := h.operands_defined v i hi a ha
      exact ⟨hlt, t, hext.type? ht⟩
    · obtain ⟨t, ht⟩ := hadmits.exists_type ha
      exact ⟨lt_size_of_type?_eq_some ht, t, hext.type? ht⟩
  case links_eq =>
    have hnew : (c.extend r).operands r.size = (c.instruction r.arguments.length).operands := by
      rw [Emission.Call.operands_extend, operands_push, if_pos rfl]
    have hearlier : ∀ v ∈ List.range r.size,
        operandLinks v ((c.extend r).operands v) 0 = operandLinks v (r.operands v) 0 := by
      intro v hv
      rw [Emission.Call.operands_extend, operands_push,
        if_neg (Nat.ne_of_lt (List.mem_range.1 hv))]
    rw [Emission.Call.links_extend, h.links_eq, Emission.Call.size_extend, List.range_succ,
      List.flatMap_append, List.flatMap_singleton, hnew, List.flatMap_congr hearlier]
  case admits =>
    intro v i hi
    rcases hcases hi with hi | ⟨rfl, rfl⟩
    · exact (h.admits v i hi).mono hext
    · exact hadmits.mono hext
  case arguments_iff =>
    intro position v
    rw [getElem?_arguments_extend, exists_instruction?_extend, h.arguments_iff]
  case isTerminated_iff =>
    rw [isTerminated_extend hopen]
    constructor
    · exact fun hop => ⟨r.size, exists_instruction?_extend.2 (Or.inr ⟨rfl, hop⟩)⟩
    · rintro ⟨v, hv⟩
      rcases exists_instruction?_extend.1 hv with ⟨i, hi, hop⟩ | ⟨-, hop⟩
      · exact absurd hop (h.op_ne_ret hopen hi)
      · exact hop
  case ret_last =>
    intro v i hi hop
    rcases hcases hi with hi | ⟨rfl, rfl⟩
    · exact absurd hop (h.op_ne_ret hopen hi)
    · exact ⟨(c.size_extend r).symm, results_extend hop⟩

theorem call (h : r.SingleAssignment) (c : Emission.Call) : (r.call c).SingleAssignment := by
  rcases r.call_cases c with ⟨hc, -, hcall⟩ | ⟨e, -, -, hcall⟩
  · rw [hcall]
    exact h.extend hc
  · rwa [hcall]

theorem foldl_call (h : r.SingleAssignment) (calls : List Emission.Call) :
    (calls.foldl Routine.call r).SingleAssignment := by
  induction calls generalizing r with
  | nil => exact h
  | cons c calls ih => exact ih (h.call c)

end SingleAssignment

/-- Calls that are made one after another, accepted or refused, leave a routine in single assignment
form. Those that are accepted answer with `0`, `1`, `2` and so on, and the instruction that a call
asked for stands under its answer. -/
theorem singleAssignment_ofCalls (name : String) (calls : List Emission.Call) :
    ((Routine.empty name).answers calls).filterMap Except.toOption
        = List.range (ofCalls name calls).size ∧
      List.Forall₂ (fun c answer => ∀ v, answer = .ok v →
          ∃ position, (ofCalls name calls).instruction? v = some (c.instruction position))
        calls ((Routine.empty name).answers calls) ∧
      (ofCalls name calls).SingleAssignment :=
  ⟨range_append_filterMap_answers (Routine.empty name) calls,
    forall₂_answers (Routine.empty name) calls,
    (SingleAssignment.empty name).foldl_call calls⟩

-- The refused calls take no index: the sum of a value with itself follows the argument.
example :
    (Routine.empty "f").answers
        [.argument (.encrypted 8), .primitive .add (.encrypted 8) 0 1,
          .primitive .add (.encrypted 8) 0 0, .ret [1], .argument (.clear 8)]
      = [.ok 0, .error (.unknownValue 1), .ok 1, .ok 2, .error (.alreadyTerminated "f")] :=
  rfl

end CipherFlow.Routine
