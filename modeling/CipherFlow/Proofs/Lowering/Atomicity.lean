import CipherFlow.Proofs.Lowering.Plans
import CipherFlow.Proofs.Lowering.Steps

/-!
# All or nothing

Lowering a node either fails and changes nothing, or adds instructions at the end of the routine and
changes nothing else. The reason is that all checks of a plan (`Plan.check`) can be made before its
first instruction is added: once the table of a lookup is in, the lookup itself is not refused. The
routine may have returned, and the registry may name values that the routine does not have. Main
statement: `Node.lower_cases`.
-/

set_option autoImplicit false

namespace CipherFlow

open Lowering

/-! ## Instructions at the end -/

namespace Routine

/-- The routine with instructions added one after another at its end. -/
def append (r : Routine) (added : List Instruction) : Routine := added.foldl push r

/-- A routine is another with instructions added at its end. -/
structure GrowsBy (r : Routine) (added : List Instruction) (r' : Routine) : Prop where
  name_eq : r'.name = r.name
  size_eq : r'.size = r.size + added.length
  instruction?_eq : ∀ v, v < r.size → r'.instruction? v = r.instruction? v
  operands_eq : ∀ v, v < r.size → r'.operands v = r.operands v
  instruction?_added : ∀ k, r'.instruction? (r.size + k) = added[k]?
  /-- The links there were stay, and each instruction has one from each of its operands. -/
  links_eq : r'.links
    = r.links ++ (added.zipIdx r.size).flatMap fun (i, v) => operandLinks v i.operands 0
  arguments_eq : r'.arguments = r.arguments
  returned_eq : r'.returned = r.returned

variable {r r' : Routine} {added : List Instruction}

theorem append_singleton (r : Routine) (i : Instruction) : r.append [i] = r.push i := rfl

theorem append_pair (r : Routine) (i j : Instruction) : r.append [i, j] = (r.push i).push j := rfl

theorem growsBy_nil (r : Routine) : r.GrowsBy [] r where
  name_eq := rfl
  size_eq := rfl
  instruction?_eq _ _ := rfl
  operands_eq _ _ := rfl
  instruction?_added k := instruction?_eq_none (Nat.le_add_right r.size k)
  links_eq := (List.append_nil r.links).symm
  arguments_eq := rfl
  returned_eq := rfl

theorem GrowsBy.ne_size (h : r.GrowsBy added r') {v : Nat} (hv : v < r.size) : v ≠ r'.size := by
  rw [h.size_eq]
  omega

theorem GrowsBy.push (h : r.GrowsBy added r') (i : Instruction) :
    r.GrowsBy (added ++ [i]) (r'.push i) where
  name_eq := h.name_eq
  size_eq := by
    rw [size_push, h.size_eq, List.length_append, List.length_singleton, Nat.add_assoc]
  instruction?_eq v hv := by rw [instruction?_push, if_neg (h.ne_size hv), h.instruction?_eq v hv]
  operands_eq v hv := by rw [operands_push, if_neg (h.ne_size hv), h.operands_eq v hv]
  instruction?_added k := by
    rw [instruction?_push, h.size_eq, h.instruction?_added]
    rcases Nat.lt_trichotomy k added.length with hlt | rfl | hgt
    · rw [if_neg (by omega), List.getElem?_append_left hlt]
    · rw [if_pos rfl, List.getElem?_concat_length]
    · have hend : (added ++ [i])[k]? = none :=
        List.getElem?_eq_none (by rw [List.length_append]; exact hgt)
      rw [if_neg (by omega), List.getElem?_eq_none (Nat.le_of_lt hgt), hend]
  links_eq := by
    rw [List.zipIdx_append, List.flatMap_append, ← List.append_assoc, ← h.links_eq,
      ← h.size_eq]
    exact congrArg (r'.links ++ ·) (List.append_nil _).symm
  arguments_eq := h.arguments_eq
  returned_eq := h.returned_eq

theorem growsBy_append (r : Routine) (added : List Instruction) :
    r.GrowsBy added (r.append added) := by
  induction added using List.reverseRecOn with
  | nil => exact growsBy_nil r
  | append_singleton added i ih =>
      rw [append, List.foldl_concat, ← append]
      exact ih.push i

end Routine

/-! ## Plans -/

namespace Plan

/-- The instructions that a plan adds. -/
inductive Adds (p : Progress) : Plan → List Instruction → Prop
  | constant {literal : Literal} :
      Adds p (.constant literal) [⟨.constant literal, [], some literal.ty⟩]
  | primitive {q : Primitive} {width : UInt32} {left right l r : Nat}
      (hleft : p.registry.find? left = some l) (hright : p.registry.find? right = some r) :
      Adds p (.primitive q width left right)
        [⟨.primitive q, [l, r], some (.encrypted width)⟩]
  /-- A lookup adds its table first. -/
  | lookup {table : Table} {width : UInt32} {operand index : Nat}
      (hindex : p.registry.find? operand = some index) :
      Adds p (.lookup table width operand)
        [⟨.constant table.literal, [], some table.literal.ty⟩,
          ⟨.primitive .lookup, [index, p.routine.size], some (.encrypted width)⟩]

/-- The checks of a plan, in their order. -/
def check (p : Progress) : Plan → Except LowerError Unit
  | constant _ => p.routine.checkOpen.mapError .emit
  | primitive q width left right => do
      let l ← p.registry.get left
      let r ← p.registry.get right
      (p.routine.checkPrimitive q (.encrypted width) l r).mapError .emit
  | lookup _ _ operand => do
      let index ← p.registry.get operand
      let indexTy ← (p.routine.typeOf index).mapError .emit
      (Routine.checkOperand .lookup 0 .encryptedInteger indexTy).mapError .emit
      -- This is the check of the table; none is left for the lookup.
      p.routine.checkOpen.mapError .emit

variable {p : Progress} {plan : Plan}

/-- A plan that is refused by a check changes nothing. -/
theorem emit_of_check_eq_error {e : LowerError} (h : plan.check p = .error e) :
    plan.emit p = .error e p := by
  cases plan with
  | constant literal =>
      obtain ⟨error, hopen, rfl⟩ := Except.mapError_eq_error_iff.1 h
      exact emit_guarded_eq_error_iff.2 ⟨error, hopen, rfl, rfl⟩
  | primitive q width left right =>
      rcases Except.bind_eq_error_iff.1 h with hl | ⟨l, hl, h⟩
      · exact bind_liftResult_of_eq_error hl
      · refine (bind_liftResult_of_eq_ok hl).trans ?_
        rcases Except.bind_eq_error_iff.1 h with hr | ⟨r, hr, h⟩
        · exact bind_liftResult_of_eq_error hr
        · refine (bind_liftResult_of_eq_ok hr).trans ?_
          obtain ⟨error, hcheck, rfl⟩ := Except.mapError_eq_error_iff.1 h
          exact emit_guarded_eq_error_iff.2 ⟨error, hcheck, rfl, rfl⟩
  | lookup table width operand =>
      rcases Except.bind_eq_error_iff.1 h with hx | ⟨index, hx, h⟩
      · exact bind_liftResult_of_eq_error hx
      · refine (bind_liftResult_of_eq_ok hx).trans ?_
        rcases Except.bind_eq_error_iff.1 h with hty | ⟨ty, hty, h⟩
        · exact bind_liftResult_of_eq_error hty
        · refine (bind_liftResult_of_eq_ok hty).trans ?_
          rcases Except.bind_eq_error_iff.1 h with hclass | ⟨_, hclass, h⟩
          · exact bind_liftResult_of_eq_error hclass
          · refine (bind_liftResult_of_eq_ok hclass).trans ?_
            refine (bind_liftResult_of_eq_ok (tableLiteral_eq table)).trans ?_
            obtain ⟨error, hopen, rfl⟩ := Except.mapError_eq_error_iff.1 h
            exact EStateM.bind_of_eq_error
              (emit_guarded_eq_error_iff.2 ⟨error, hopen, rfl, rfl⟩)

/-- A plan that passes its checks is carried out, and the value is that of its last instruction. -/
theorem exists_emit_of_check_eq_ok {u : Unit} (h : plan.check p = .ok u) :
    ∃ v added, plan.Adds p added ∧ v + 1 = p.routine.size + added.length ∧
      plan.emit p = .ok v { p with routine := p.routine.append added } := by
  cases plan with
  | constant literal =>
      have hopen := Routine.checkOpen_eq_ok_iff.1 (Except.mapError_eq_ok_iff.1 h)
      refine ⟨p.routine.size, _, .constant, rfl, ?_⟩
      rw [Routine.append_singleton]
      exact Lowering.emit_constant_eq_ok_iff.2 ⟨hopen, rfl, rfl⟩
  | primitive q width left right =>
      obtain ⟨l, hl, h⟩ := Except.bind_eq_ok_iff.1 h
      obtain ⟨r, hr, h⟩ := Except.bind_eq_ok_iff.1 h
      have hl := Registry.get_eq_ok_iff.1 hl
      have hr := Registry.get_eq_ok_iff.1 hr
      have hcheck := Except.mapError_eq_ok_iff.1 h
      refine ⟨p.routine.size, _, .primitive hl hr, rfl, ?_⟩
      rw [Routine.append_singleton]
      exact emit_primitive_eq_ok_iff.2 ⟨l, r, hl, hr, hcheck, rfl, rfl⟩
  | lookup table width operand =>
      obtain ⟨index, hx, h⟩ := Except.bind_eq_ok_iff.1 h
      obtain ⟨ty, hty, h⟩ := Except.bind_eq_ok_iff.1 h
      obtain ⟨_, hclass, h⟩ := Except.bind_eq_ok_iff.1 h
      have hx := Registry.get_eq_ok_iff.1 hx
      have hty := Routine.typeOf_eq_ok_iff.1 (Except.mapError_eq_ok_iff.1 hty)
      have hclass := Routine.checkOperand_eq_ok_iff.1 (Except.mapError_eq_ok_iff.1 hclass)
      have hopen := Routine.checkOpen_eq_ok_iff.1 (Except.mapError_eq_ok_iff.1 h)
      obtain ⟨w, rfl⟩ := Ty.isEncrypted_iff.1 hclass
      refine ⟨p.routine.size + 1, _, .lookup hx, rfl, ?_⟩
      rw [Routine.append_pair]
      exact emit_lookup_eq_ok_iff.2 ⟨index, w, hx, hty, hopen, rfl, rfl⟩

end Plan

/-! ## Nodes -/

namespace Node

variable {options : Options} {node : Node} {operands : List Nat} {p : Progress}

/-- Only a lookup adds two instructions, the first of which is its table. -/
theorem PlansTo.cases_added {plan : Plan} {added : List Instruction}
    (hplan : node.PlansTo options operands plan) (hadds : plan.Adds p added) :
    ((∀ table, node.op ≠ .lookup table) → ∃ i, added = [i]) ∧
      ∀ table, node.op = .lookup table → ∃ operand index width, operands = [operand] ∧
        p.registry.find? operand = some index ∧ added =
          [⟨.constant table.literal, [], some table.literal.ty⟩,
            ⟨.primitive .lookup, [index, p.routine.size], some (.encrypted width)⟩] := by
  cases hplan with
  | constant =>
      cases hadds with
      | constant => exact ⟨fun _ => ⟨_, rfl⟩, nofun⟩
  | @binary op _ _ _ _ _ _ _ _ _ hrule =>
      cases hadds with
      | primitive =>
          refine ⟨fun _ => ⟨_, rfl⟩, fun table hop => ?_⟩
          have hop : op = .lookup table := hop
          simpa [hop] using Rule.binary_of_find? hrule
  | @lookup table _ _ operand =>
      cases hadds with
      | @lookup _ _ _ index hindex =>
          refine ⟨fun hop => absurd rfl (hop table), fun table' hop => ?_⟩
          cases hop
          exact ⟨operand, index, _, rfl, hindex, rfl⟩

/-- Lowering a node fails and changes nothing, or adds one instruction at the end, and two for a
lookup: its table as a constant, and the lookup of the value of its operand. The value of the node
is that of the last instruction. -/
theorem lower_cases (options : Options) (node : Node) (operands : List Nat) (p : Progress) :
    (∃ e, node.lower options operands p = .error e p) ∨
      ∃ v added r, node.lower options operands p = .ok v ⟨r, p.registry⟩ ∧
        p.routine.GrowsBy added r ∧ v + 1 = r.size ∧
        ((∀ table, node.op ≠ .lookup table) → ∃ i, added = [i]) ∧
        ∀ table, node.op = .lookup table → ∃ operand index width, operands = [operand] ∧
          p.registry.find? operand = some index ∧ added =
            [⟨.constant table.literal, [], some table.literal.ty⟩,
              ⟨.primitive .lookup, [index, p.routine.size], some (.encrypted width)⟩] := by
  cases hplan : node.plan options operands with
  | error e => exact Or.inl ⟨e, lower_eq_error_iff.2 (Or.inl ⟨hplan, rfl⟩)⟩
  | ok plan =>
      cases hcheck : plan.check p with
      | error e =>
          have hemit := Plan.emit_of_check_eq_error hcheck
          exact Or.inl ⟨e, lower_eq_error_iff.2 (Or.inr ⟨plan, hplan, hemit⟩)⟩
      | ok u =>
          obtain ⟨v, added, hadds, hlast, hemit⟩ := Plan.exists_emit_of_check_eq_ok hcheck
          have hlower := lower_eq_ok_iff.2 ⟨plan, hplan, hemit⟩
          have hgrows := p.routine.growsBy_append added
          have hlast : v + 1 = (p.routine.append added).size := hlast.trans hgrows.size_eq.symm
          have hadded := (plan_eq_ok_iff.1 hplan).cases_added hadds
          exact Or.inr ⟨v, added, p.routine.append added, hlower, hgrows, hlast, hadded⟩

end Node

end CipherFlow
