import CipherFlow.Lowering.Program
import CipherFlow.Proofs.Lowering.Literals
import CipherFlow.Proofs.Routine.Growth

/-!
# What each step of a lowering does

One equivalence for each step: when it succeeds, and with which value and progress. Proofs about
whole lowerings cite these and do not open the steps.
-/

set_option autoImplicit false

namespace CipherFlow

namespace Registry

/-- The registry with one more entry. -/
def add (r : Registry) (n v : Nat) : Registry := ⟨(n, v) :: r.entries⟩

theorem find?_add (r : Registry) (n v m : Nat) :
    (r.add n v).find? m = if m = n then some v else r.find? m := by
  simp only [add, find?, List.lookup_cons]
  by_cases hm : m = n
  · simp [hm]
  · rw [if_neg hm, beq_false_of_ne hm]

theorem find?_add_self (r : Registry) (n v : Nat) : (r.add n v).find? n = some v := by
  rw [find?_add, if_pos rfl]

/-- An entry for a new node leaves the values of the others as they are. -/
theorem find?_add_of_eq_some {r : Registry} {n m w : Nat} (v : Nat) (hnew : r.find? n = none)
    (hm : r.find? m = some w) : (r.add n v).find? m = some w := by
  have hne : m ≠ n := by
    rintro rfl
    rw [hnew] at hm
    cases hm
  rw [find?_add, if_neg hne, hm]

/-- What has a value with one more entry has the new value, or had one before. -/
theorem eq_or_find?_of_find?_add {r : Registry} {n v m w : Nat} (h : (r.add n v).find? m = some w) :
    (m = n ∧ w = v) ∨ r.find? m = some w := by
  rw [find?_add] at h
  split at h
  · next heq =>
      cases h
      exact Or.inl ⟨heq, rfl⟩
  · exact Or.inr h

theorem isSome_find?_iff {r : Registry} {n : Nat} :
    (r.find? n).isSome = true ↔ n ∈ r.entries.map Prod.fst := by
  rw [← not_iff_not, Option.not_isSome_iff_eq_none, find?, List.lookup_eq_none_iff]
  constructor
  · intro h hmem
    obtain ⟨entry, hentry, rfl⟩ := List.mem_map.1 hmem
    simpa using h entry hentry
  · intro h entry hentry
    rw [bne_iff_ne]
    rintro rfl
    exact h (List.mem_map_of_mem hentry)

theorem contains_eq_false_iff {r : Registry} {n : Nat} :
    r.contains n = false ↔ r.find? n = none := by
  simp [contains]

/-- An entry is added exactly where there is none. -/
theorem insert_eq_ok_iff {r r' : Registry} {n v : Nat} :
    r.insert n v = .ok r' ↔ r.find? n = none ∧ r' = r.add n v := by
  rw [← contains_eq_false_iff]
  unfold insert
  by_cases h : r.contains n = true
  · simp [h]
  · simp [h, eq_comm, add]

end Registry

/-- The routine with a return of values at its end. -/
def Routine.addReturn (r : Routine) (values : List Nat) : Routine :=
  { r.push ⟨.ret, values, none⟩ with returned := some values }

namespace Lowering

/-! ## Single steps -/

theorem liftResult_eq_ok_iff {α : Type} {x : Except LowerError α} {p p' : Progress} {a : α} :
    liftResult x p = .ok a p' ↔ x = .ok a ∧ p' = p := by
  unfold liftResult
  split <;> simp [eq_comm]

theorem liftResult_eq_error_iff {α : Type} {x : Except LowerError α} {p p' : Progress}
    {e : LowerError} : liftResult x p = .error e p' ↔ x = .error e ∧ p' = p := by
  unfold liftResult
  split <;> simp [eq_comm]

theorem bind_liftResult_of_eq_ok {α β : Type} {x : Except LowerError α} {f : α → Lowering β}
    {p : Progress} {a : α} (h : x = .ok a) : (liftResult x >>= f) p = f a p :=
  EStateM.bind_of_eq_ok (liftResult_eq_ok_iff.2 ⟨h, rfl⟩)

theorem bind_liftResult_of_eq_error {α β : Type} {x : Except LowerError α} {f : α → Lowering β}
    {p : Progress} {e : LowerError} (h : x = .error e) : (liftResult x >>= f) p = .error e p :=
  EStateM.bind_of_eq_error (liftResult_eq_error_iff.2 ⟨h, rfl⟩)

theorem valueOf_eq_ok_iff {n v : Nat} {p p' : Progress} :
    valueOf n p = .ok v p' ↔ p.registry.find? n = some v ∧ p' = p := by
  rw [← Registry.get_eq_ok_iff]
  exact liftResult_eq_ok_iff

theorem valueOf_eq_error_iff {n : Nat} {p p' : Progress} {e : LowerError} :
    valueOf n p = .error e p' ↔ p.registry.find? n = none ∧ e = .missingOperand n ∧ p' = p := by
  show liftResult _ p = _ ↔ _
  rw [liftResult_eq_error_iff, Registry.get]
  cases p.registry.find? n <;> simp [eq_comm]

theorem typeOf_eq_ok_iff {v : Nat} {t : Ty} {p p' : Progress} :
    typeOf v p = .ok t p' ↔ p.routine.type? v = some t ∧ p' = p := by
  rw [← Routine.typeOf_eq_ok_iff, ← Except.mapError_eq_ok_iff (f := LowerError.emit)]
  exact liftResult_eq_ok_iff

theorem register_eq_ok_iff {n v : Nat} {p p' : Progress} {u : Unit} :
    register n v p = .ok u p' ↔
      p.registry.find? n = none ∧ p' = { p with registry := p.registry.add n v } := by
  unfold register
  cases h : p.registry.insert n v with
  | ok r =>
      obtain ⟨hnew, rfl⟩ := Registry.insert_eq_ok_iff.1 h
      simp [hnew, eq_comm]
  | error e =>
      have hold : p.registry.find? n ≠ none := by
        intro hnew
        rw [Registry.insert_eq_ok_iff.2 ⟨hnew, rfl⟩] at h
        cases h
      simp [hold]

theorem register_eq_error_iff {n v : Nat} {p p' : Progress} {e : LowerError} :
    register n v p = .error e p' ↔
      p.registry.contains n = true ∧ e = .alreadyLowered n ∧ p' = p := by
  rw [← and_assoc, ← Registry.insert_eq_error_iff (v := v)]
  unfold register
  cases p.registry.insert n v <;> simp [eq_comm]

theorem emit_guarded_eq_ok_iff {check : Routine → Except EmitError Unit}
    {extend : Routine → Routine} {v : Nat} {p p' : Progress} :
    emit (Emission.guarded check extend) p = .ok v p' ↔
      check p.routine = .ok () ∧ v = p.routine.size ∧
        p' = { p with routine := extend p.routine } := by
  unfold emit
  cases h : Emission.guarded check extend p.routine with
  | ok w r =>
      obtain ⟨hcheck, rfl, rfl⟩ := Emission.guarded_eq_ok_iff.1 h
      simp [hcheck, eq_comm]
  | error e r =>
      obtain ⟨hcheck, -⟩ := Emission.guarded_eq_error_iff.1 h
      simp [hcheck]

theorem emit_guarded_eq_error_iff {check : Routine → Except EmitError Unit}
    {extend : Routine → Routine} {e : LowerError} {p p' : Progress} :
    emit (Emission.guarded check extend) p = .error e p' ↔
      ∃ err, check p.routine = .error err ∧ e = .emit err ∧ p' = p := by
  unfold emit
  cases h : Emission.guarded check extend p.routine with
  | ok w r =>
      obtain ⟨hcheck, -, -⟩ := Emission.guarded_eq_ok_iff.1 h
      simp [hcheck]
  | error err r =>
      obtain ⟨hcheck, rfl⟩ := Emission.guarded_eq_error_iff.1 h
      simp only [hcheck, EStateM.Result.error.injEq, Except.error.injEq, exists_eq_left']
      exact and_congr eq_comm eq_comm

theorem emit_argument_eq_ok_iff {ty : Ty} {v : Nat} {p p' : Progress} :
    emit (Emission.argument ty) p = .ok v p' ↔
      p.routine.returned = none ∧ v = p.routine.size ∧
        p' = { p with routine :=
          { p.routine.push ⟨.argument p.routine.arguments.length, [], some ty⟩ with
            arguments := p.routine.arguments ++ [p.routine.size] } } := by
  rw [← Routine.checkOpen_eq_ok_iff (u := ())]
  exact emit_guarded_eq_ok_iff

theorem emit_constant_eq_ok_iff {l : Literal} {v : Nat} {p p' : Progress} :
    emit (Emission.constant l) p = .ok v p' ↔
      p.routine.returned = none ∧ v = p.routine.size ∧
        p' = { p with routine := p.routine.push ⟨.constant l, [], some l.ty⟩ } := by
  rw [← Routine.checkOpen_eq_ok_iff (u := ())]
  exact emit_guarded_eq_ok_iff

theorem emit_primitive_eq_ok_iff {q : Primitive} {result : Ty} {left right v : Nat}
    {p p' : Progress} :
    emit (Emission.primitive q result left right) p = .ok v p' ↔
      p.routine.checkPrimitive q result left right = .ok () ∧ v = p.routine.size ∧
        p' = { p with routine := p.routine.push ⟨.primitive q, [left, right], some result⟩ } :=
  emit_guarded_eq_ok_iff

theorem emit_ret_eq_ok_iff {values : List Nat} {v : Nat} {p p' : Progress} :
    emit (Emission.ret values) p = .ok v p' ↔
      p.routine.checkReturn values = .ok () ∧ v = p.routine.size ∧
        p' = { p with routine := p.routine.addReturn values } :=
  emit_guarded_eq_ok_iff

end Lowering

open Lowering

/-! ## Plans -/

namespace Plan

theorem emit_primitive_eq_ok_iff {q : Primitive} {width : UInt32} {left right v : Nat}
    {p p' : Progress} :
    (Plan.primitive q width left right).emit p = .ok v p' ↔
      ∃ l r, p.registry.find? left = some l ∧ p.registry.find? right = some r ∧
        p.routine.checkPrimitive q (.encrypted width) l r = .ok () ∧ v = p.routine.size ∧
        p' = { p with routine :=
          p.routine.push ⟨.primitive q, [l, r], some (.encrypted width)⟩ } := by
  simp only [Plan.emit, EStateM.bind_eq_ok_iff, valueOf_eq_ok_iff,
    Lowering.emit_primitive_eq_ok_iff]
  constructor
  · rintro ⟨l, p₁, ⟨hl, rfl⟩, r, p₂, ⟨hr, rfl⟩, h⟩
    exact ⟨l, r, hl, hr, h⟩
  · rintro ⟨l, r, hl, hr, h⟩
    exact ⟨l, p, ⟨hl, rfl⟩, r, p, ⟨hr, rfl⟩, h⟩

/-- On values that are found, an operation is refused only by the check of its primitive. -/
theorem exists_of_emit_primitive_eq_error {q : Primitive} {width : UInt32} {left right l r : Nat}
    {e : LowerError} {p p' : Progress} (hl : p.registry.find? left = some l)
    (hr : p.registry.find? right = some r)
    (h : (Plan.primitive q width left right).emit p = .error e p') :
    ∃ error, p.routine.checkPrimitive q (.encrypted width) l r = .error error ∧
      e = .emit error := by
  simp only [Plan.emit, EStateM.bind_eq_error_iff, valueOf_eq_ok_iff, valueOf_eq_error_iff] at h
  rcases h with ⟨hnone, -⟩ | ⟨l', p₁, ⟨hl', rfl⟩, ⟨hnone, -⟩ | ⟨r', p₂, ⟨hr', rfl⟩, h⟩⟩
  · rw [hl] at hnone
    cases hnone
  · rw [hr] at hnone
    cases hnone
  · rw [hl] at hl'
    rw [hr] at hr'
    cases hl'
    cases hr'
    obtain ⟨error, hcheck, rfl, -⟩ := emit_guarded_eq_error_iff.1 h
    exact ⟨error, hcheck, rfl⟩

/-- The routine with the two instructions of a lookup: its table, and the lookup itself. -/
def addLookup (table : Table) (width : UInt32) (index : Nat) (r : Routine) : Routine :=
  (r.push ⟨.constant table.literal, [], some table.literal.ty⟩).push
    ⟨.primitive .lookup, [index, r.size], some (.encrypted width)⟩

theorem size_addLookup (table : Table) (width : UInt32) (index : Nat) (r : Routine) :
    (addLookup table width index r).size = r.size + 1 + 1 := by
  simp [addLookup]

theorem extendedBy_addLookup (table : Table) (width : UInt32) (index : Nat) (r : Routine) :
    r.ExtendedBy (addLookup table width index r) :=
  (r.extendedBy_push _).trans (Routine.extendedBy_push _ _)

/-- Once the operand of a lookup is known to be encrypted, nothing is refused any more. -/
theorem checkPrimitive_lookup {r : Routine} {table : Table} {width w : UInt32} {index : Nat}
    (hopen : r.returned = none) (hindex : r.type? index = some (.encrypted w)) :
    (r.push ⟨.constant table.literal, [], some table.literal.ty⟩).checkPrimitive .lookup
      (.encrypted width) index r.size = .ok () := by
  let i : Instruction := ⟨.constant table.literal, [], some table.literal.ty⟩
  have hopen : (r.push i).returned = none := hopen
  have hindex := (r.extendedBy_push i).type? hindex
  have htable := Routine.type?_of_instruction? (r.instruction?_push_size i)
  rw [Routine.checkPrimitive_eq_checkTypes hopen hindex htable]
  rfl

theorem emit_lookup_eq_ok_iff {table : Table} {width : UInt32} {operand v : Nat}
    {p p' : Progress} :
    (Plan.lookup table width operand).emit p = .ok v p' ↔
      ∃ index w, p.registry.find? operand = some index ∧
        p.routine.type? index = some (.encrypted w) ∧ p.routine.returned = none ∧
        v = p.routine.size + 1 ∧
        p' = { p with routine := addLookup table width index p.routine } := by
  simp only [Plan.emit, EStateM.bind_eq_ok_iff, valueOf_eq_ok_iff, Lowering.typeOf_eq_ok_iff,
    liftResult_eq_ok_iff, Except.mapError_eq_ok_iff, Routine.checkOperand_eq_ok_iff,
    tableLiteral_eq, Except.ok.injEq, Lowering.emit_constant_eq_ok_iff,
    Lowering.emit_primitive_eq_ok_iff]
  constructor
  · rintro ⟨index, p₁, ⟨hx, rfl⟩, ty, p₂, ⟨hty, rfl⟩, _, p₃, ⟨hclass, rfl⟩, l, p₄, ⟨rfl, rfl⟩,
      t, p₅, ⟨hopen, rfl, rfl⟩, -, hv, rfl⟩
    obtain ⟨w, rfl⟩ := Ty.isEncrypted_iff.1 hclass
    exact ⟨index, w, hx, hty, hopen, by simpa using hv, rfl⟩
  · rintro ⟨index, w, hx, hty, hopen, rfl, rfl⟩
    exact ⟨index, p, ⟨hx, rfl⟩, _, p, ⟨hty, rfl⟩, (), p, ⟨rfl, rfl⟩, _, p, ⟨rfl, rfl⟩, _, _,
      ⟨hopen, rfl, rfl⟩, checkPrimitive_lookup hopen hty, by simp, rfl⟩

/-- Carrying out a plan changes the routine only. -/
theorem registry_of_emit {plan : Plan} {v : Nat} {p p' : Progress} (h : plan.emit p = .ok v p') :
    p'.registry = p.registry := by
  cases plan with
  | constant l =>
      obtain ⟨-, -, rfl⟩ := Lowering.emit_constant_eq_ok_iff.1 h
      rfl
  | primitive q width left right =>
      obtain ⟨l, r, -, -, -, -, rfl⟩ := emit_primitive_eq_ok_iff.1 h
      rfl
  | lookup table width operand =>
      obtain ⟨index, w, -, -, -, -, rfl⟩ := emit_lookup_eq_ok_iff.1 h
      rfl

/-- Carrying out a plan leaves the instructions as they are. -/
theorem extendedBy_of_emit {plan : Plan} {v : Nat} {p p' : Progress}
    (h : plan.emit p = .ok v p') : p.routine.ExtendedBy p'.routine := by
  cases plan with
  | constant l =>
      obtain ⟨-, -, rfl⟩ := Lowering.emit_constant_eq_ok_iff.1 h
      exact p.routine.extendedBy_push _
  | primitive q width left right =>
      obtain ⟨l, r, -, -, -, -, rfl⟩ := emit_primitive_eq_ok_iff.1 h
      exact p.routine.extendedBy_push _
  | lookup table width operand =>
      obtain ⟨index, w, -, -, -, -, rfl⟩ := emit_lookup_eq_ok_iff.1 h
      exact extendedBy_addLookup _ _ _ _

end Plan

/-! ## Nodes -/

theorem Node.lower_eq_ok_iff {options : Options} {node : Node} {operands : List Nat} {v : Nat}
    {p p' : Progress} :
    node.lower options operands p = .ok v p' ↔
      ∃ plan, node.plan options operands = .ok plan ∧ plan.emit p = .ok v p' := by
  simp only [Node.lower, EStateM.bind_eq_ok_iff, liftResult_eq_ok_iff]
  constructor
  · rintro ⟨plan, p₁, ⟨hplan, rfl⟩, h⟩
    exact ⟨plan, hplan, h⟩
  · rintro ⟨plan, hplan, h⟩
    exact ⟨plan, p, ⟨hplan, rfl⟩, h⟩

theorem Node.lower_eq_error_iff {options : Options} {node : Node} {operands : List Nat}
    {e : LowerError} {p p' : Progress} :
    node.lower options operands p = .error e p' ↔
      (node.plan options operands = .error e ∧ p' = p) ∨
        ∃ plan, node.plan options operands = .ok plan ∧ plan.emit p = .error e p' := by
  simp only [Node.lower, EStateM.bind_eq_error_iff, liftResult_eq_ok_iff, liftResult_eq_error_iff]
  constructor
  · rintro (h | ⟨plan, p₁, ⟨hplan, rfl⟩, h⟩)
    · exact Or.inl h
    · exact Or.inr ⟨plan, hplan, h⟩
  · rintro (h | ⟨plan, hplan, h⟩)
    · exact Or.inl h
    · exact Or.inr ⟨plan, p, ⟨hplan, rfl⟩, h⟩

theorem Node.argumentTy_eq_ok_iff {node : Node} {ty : Ty} :
    node.argumentTy = .ok ty ↔
      ∃ name index output rest, node.op = .input name index ∧ node.outputs = output :: rest ∧
        CipherFlow.argumentTy name output = .ok ty := by
  obtain ⟨op, inputs, outputs⟩ := node
  cases op with
  | input name index => cases outputs <;> simp [argumentTy]
  | add | sub | mul | dot => simp [argumentTy]
  | constant payload => simp [argumentTy]
  | lookup table => simp [argumentTy]

namespace Dataflow

variable {g : Dataflow}

theorem node_eq_ok_iff {n : Nat} {node : Node} :
    g.node n = .ok node ↔ g.network.node? n = some node := by
  unfold Dataflow.node
  split <;> simp_all

theorem nodeToLower_eq_ok_iff {n : Nat} {node : Node} {p p' : Progress} :
    g.nodeToLower n p = .ok node p' ↔ g.network.node? n = some node ∧ p' = p := by
  rw [← node_eq_ok_iff, ← Except.mapError_eq_ok_iff (f := LowerError.ofUnknownNode)]
  exact liftResult_eq_ok_iff

/-- The progress behind one with one more argument, for a node. -/
def addArgument (n : Nat) (ty : Ty) (p : Progress) : Progress where
  routine :=
    { p.routine.push ⟨.argument p.routine.arguments.length, [], some ty⟩ with
      arguments := p.routine.arguments ++ [p.routine.size] }
  registry := p.registry.add n p.routine.size

theorem lowerInput_eq_ok_iff {n : Nat} {p p' : Progress} {u : Unit} :
    g.lowerInput n p = .ok u p' ↔
      ∃ node ty, g.network.node? n = some node ∧ node.argumentTy = .ok ty ∧
        p.routine.returned = none ∧ p.registry.find? n = none ∧ p' = addArgument n ty p := by
  simp only [lowerInput, EStateM.bind_eq_ok_iff, nodeToLower_eq_ok_iff, liftResult_eq_ok_iff,
    emit_argument_eq_ok_iff, register_eq_ok_iff]
  constructor
  · rintro ⟨node, p₁, ⟨hnode, rfl⟩, ty, p₂, ⟨hty, rfl⟩, v, p₃, ⟨hopen, rfl, rfl⟩, hnew, rfl⟩
    exact ⟨node, ty, hnode, hty, hopen, hnew, rfl⟩
  · rintro ⟨node, ty, hnode, hty, hopen, hnew, rfl⟩
    exact ⟨node, p, ⟨hnode, rfl⟩, ty, p, ⟨hty, rfl⟩, _, _, ⟨hopen, rfl, rfl⟩, hnew, rfl⟩

/-- An input that is there and has no value yet is refused only for its type. -/
theorem argumentTy_of_lowerInput_eq_error {n : Nat} {node : Node} {p p' : Progress}
    {e : LowerError} (hnode : g.network.node? n = some node) (hopen : p.routine.returned = none)
    (hnew : p.registry.find? n = none) (h : g.lowerInput n p = .error e p') :
    node.argumentTy = .error e := by
  have hget : g.nodeToLower n p = .ok node p := nodeToLower_eq_ok_iff.2 ⟨hnode, rfl⟩
  cases hty : node.argumentTy with
  | ok ty =>
      have hok : g.lowerInput n p = .ok () _ :=
        lowerInput_eq_ok_iff.2 ⟨node, ty, hnode, hty, hopen, hnew, rfl⟩
      rw [hok] at h
      cases h
  | error e' =>
      unfold lowerInput at h
      rw [EStateM.bind_of_eq_ok hget, bind_liftResult_of_eq_error hty] at h
      cases h
      rfl

/-- A node that has a value already is left alone. -/
theorem lowerVisited_of_find?_eq_some {options : Options} {n v : Nat} {p : Progress}
    (h : p.registry.find? n = some v) : g.lowerVisited options n p = .ok () p := by
  have h : p.registry.contains n = true := by rw [Registry.contains, h, Option.isSome_some]
  show (if p.registry.contains n = true then pure () else _ : Lowering Unit) p = _
  rw [if_pos h]
  rfl

theorem lowerVisited_of_not_contains {options : Options} {n : Nat} {p : Progress}
    (h : p.registry.find? n = none) :
    g.lowerVisited options n p = (do
      let node ← g.nodeToLower n
      let v ← node.lower options (g.operands n)
      register n v : Lowering Unit) p := by
  have h : ¬ p.registry.contains n = true := by
    rw [Registry.contains_eq_false_iff.2 h]
    decide
  show (if p.registry.contains n = true then _ else _ : Lowering Unit) p = _
  rw [if_neg h]

theorem lowerVisited_eq_ok_iff {options : Options} {n : Nat} {p p' : Progress} {u : Unit}
    (h : p.registry.find? n = none) :
    g.lowerVisited options n p = .ok u p' ↔
      ∃ node v p₁, g.network.node? n = some node ∧
        node.lower options (g.operands n) p = .ok v p₁ ∧
        p' = ⟨p₁.routine, p.registry.add n v⟩ := by
  rw [lowerVisited_of_not_contains h]
  simp only [EStateM.bind_eq_ok_iff, nodeToLower_eq_ok_iff, register_eq_ok_iff]
  constructor
  · rintro ⟨node, p₁, ⟨hnode, rfl⟩, v, p₂, hlower, -, rfl⟩
    obtain ⟨plan, -, hemit⟩ := Node.lower_eq_ok_iff.1 hlower
    rw [Plan.registry_of_emit hemit]
    exact ⟨node, v, p₂, hnode, hlower, rfl⟩
  · rintro ⟨node, v, p₁, hnode, hlower, rfl⟩
    obtain ⟨plan, -, hemit⟩ := Node.lower_eq_ok_iff.1 hlower
    have hreg := Plan.registry_of_emit hemit
    exact ⟨node, p, ⟨hnode, rfl⟩, v, p₁, hlower, by rw [hreg, h], by rw [hreg]⟩

/-- A node that is there and has no value yet is refused only when it is lowered itself. -/
theorem lower_of_lowerVisited_eq_error {options : Options} {n : Nat} {node : Node}
    {p p' : Progress} {e : LowerError} (hnode : g.network.node? n = some node)
    (hnew : p.registry.find? n = none) (h : g.lowerVisited options n p = .error e p') :
    node.lower options (g.operands n) p = .error e p' := by
  have hget : g.nodeToLower n p = .ok node p := nodeToLower_eq_ok_iff.2 ⟨hnode, rfl⟩
  rw [lowerVisited_of_not_contains hnew, EStateM.bind_of_eq_ok hget] at h
  cases hlower : node.lower options (g.operands n) p with
  | ok v p₁ =>
      obtain ⟨plan, -, hemit⟩ := Node.lower_eq_ok_iff.1 hlower
      rw [EStateM.bind_of_eq_ok hlower, register_eq_error_iff, Plan.registry_of_emit hemit,
        Registry.contains_eq_false_iff.2 hnew] at h
      simp at h
  | error e' p₁ =>
      rw [EStateM.bind_of_eq_error hlower] at h
      cases h
      rfl

/-! ## Programs -/

theorem mapM_valueOf_eq_ok_iff {nodes values : List Nat} {p p' : Progress} :
    (nodes.mapM valueOf : Lowering (List Nat)) p = .ok values p' ↔
      List.Forall₂ (fun n v => p.registry.find? n = some v) nodes values ∧ p' = p := by
  induction nodes generalizing values with
  | nil =>
      rw [List.mapM_nil, EStateM.pure_eq_ok_iff]
      cases values <;> simp [eq_comm]
  | cons n nodes ih =>
      simp only [List.mapM_cons, EStateM.bind_eq_ok_iff, valueOf_eq_ok_iff,
        EStateM.pure_eq_ok_iff]
      constructor
      · rintro ⟨v, p₁, ⟨hv, rfl⟩, vs, p₂, hvs, rfl, rfl⟩
        obtain ⟨hvs, rfl⟩ := ih.1 hvs
        exact ⟨.cons hv hvs, rfl⟩
      · rintro ⟨h, rfl⟩
        cases h with
        | cons hv hvs => exact ⟨_, _, ⟨hv, rfl⟩, _, _, ih.2 ⟨hvs, rfl⟩, rfl, rfl⟩

/-- The progress before anything is lowered. -/
def initialProgress (options : Options) : Progress := ⟨.empty options.routineName, .empty⟩

theorem finish_of_size_eq {p : Progress} (h : p.registry.size = g.network.nodes.count) :
    g.finish p = (do
      let results ← g.outputs.mapM valueOf
      discard (Lowering.emit (Emission.ret results)) : Lowering Unit) p := by
  show (if p.registry.size ≠ g.network.nodes.count then _ else _ : Lowering Unit) p = _
  rw [if_neg (not_not_intro h)]

theorem finish_of_size_ne {p : Progress} (h : p.registry.size ≠ g.network.nodes.count) :
    g.finish p = .error .cyclic p := by
  show (if p.registry.size ≠ g.network.nodes.count then _ else _ : Lowering Unit) p = _
  rw [if_pos h]
  rfl

theorem finish_eq_ok_iff {p p' : Progress} {u : Unit} :
    g.finish p = .ok u p' ↔
      p.registry.size = g.network.nodes.count ∧ ∃ results,
        List.Forall₂ (fun n v => p.registry.find? n = some v) g.outputs results ∧
        p.routine.checkReturn results = .ok () ∧
        p' = { p with routine := p.routine.addReturn results } := by
  by_cases h : p.registry.size = g.network.nodes.count
  · rw [finish_of_size_eq h]
    simp only [EStateM.bind_eq_ok_iff, mapM_valueOf_eq_ok_iff, EStateM.discard_eq_ok_iff,
      emit_ret_eq_ok_iff, h, true_and]
    constructor
    · rintro ⟨results, p₁, ⟨hresults, rfl⟩, v, hcheck, -, rfl⟩
      exact ⟨results, hresults, hcheck, rfl⟩
    · rintro ⟨results, hresults, hcheck, rfl⟩
      exact ⟨results, p, ⟨hresults, rfl⟩, _, hcheck, rfl, rfl⟩
  · simp [finish_of_size_ne h, h]

theorem lower_eq_ok_iff {options : Options} {f : Routine} :
    g.lower options = .ok f ↔
      ∃ p₁ p₂ results, g.inputs.forM g.lowerInput (initialProgress options) = .ok () p₁ ∧
        g.network.order.forM (g.lowerVisited options) p₁ = .ok () p₂ ∧
        p₂.registry.size = g.network.nodes.count ∧
        List.Forall₂ (fun n v => p₂.registry.find? n = some v) g.outputs results ∧
        p₂.routine.checkReturn results = .ok () ∧ f = p₂.routine.addReturn results := by
  have hall : g.lower options = .ok f ↔
      ∃ p, g.lowerAll options (initialProgress options) = .ok () p ∧ p.routine = f := by
    unfold lower initialProgress
    split <;> simp_all
  rw [hall]
  unfold lowerAll
  simp only [Network.walk_eq_forM, EStateM.bind_eq_ok_iff, finish_eq_ok_iff]
  constructor
  · rintro ⟨p, ⟨⟨⟩, p₁, hinputs, ⟨⟩, p₂, hwalk, hsize, results, hresults, hcheck, rfl⟩, rfl⟩
    exact ⟨p₁, p₂, results, hinputs, hwalk, hsize, hresults, hcheck, rfl⟩
  · rintro ⟨p₁, p₂, results, hinputs, hwalk, hsize, hresults, hcheck, rfl⟩
    exact ⟨_, ⟨(), p₁, hinputs, (), p₂, hwalk, hsize, results, hresults, hcheck, rfl⟩, rfl⟩

end Dataflow

end CipherFlow
