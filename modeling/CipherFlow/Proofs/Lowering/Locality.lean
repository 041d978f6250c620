import CipherFlow.Proofs.Lowering.Atomicity
import CipherFlow.Proofs.Lowering.Criterion

/-!
# What lowering a node depends on

Two progresses resemble each other for the operands of a node if both routines are open or both have
returned, and each operand has no value in either or values of one type (`Progress.Resembles`). The
rest of the routines, their numbering and the other entries of the registries do not matter. Main
statement: a node is lowered alike in progresses that resemble each other
(`Progress.Resembles.lowersAlike`).
-/

set_option autoImplicit false

namespace CipherFlow

/-! ## Progresses that resemble each other -/

/-- An operand has no value in either progress, or values of one type, which both may lack. -/
inductive Progress.OperandAlike (p q : Progress) (n : Nat) : Prop
  | missing (hp : p.registry.find? n = none) (hq : q.registry.find? n = none) :
      OperandAlike p q n
  | present {v w : Nat} (hp : p.registry.find? n = some v) (hq : q.registry.find? n = some w)
      (htype : p.routine.type? v = q.routine.type? w) : OperandAlike p q n

/-- Two progresses that a node with the operands cannot tell apart. -/
structure Progress.Resembles (p q : Progress) (operands : List Nat) : Prop where
  isTerminated_eq : p.routine.isTerminated = q.routine.isTerminated
  operands_alike : ∀ n ∈ operands, p.OperandAlike q n

/-- The two values belong to the same operand. -/
def Progress.SameValue (p q : Progress) (operands : List Nat) (v w : Nat) : Prop :=
  ∃ n ∈ operands, p.registry.find? n = some v ∧ q.registry.find? n = some w

/-- Two errors that differ at most in the index of a value, which is that of the same operand, or in
the name of the routine. -/
inductive EmitError.Corresponds (p q : Progress) (operands : List Nat) :
    EmitError → EmitError → Prop
  | same {e : EmitError} : Corresponds p q operands e e
  | unknownValue {v w : Nat} (h : p.SameValue q operands v w) :
      Corresponds p q operands (.unknownValue v) (.unknownValue w)
  | alreadyTerminated : Corresponds p q operands (.alreadyTerminated p.routine.name)
      (.alreadyTerminated q.routine.name)

/-- Two errors that are the same, or correspond as refusals of an instruction. -/
inductive LowerError.Corresponds (p q : Progress) (operands : List Nat) :
    LowerError → LowerError → Prop
  | same {e : LowerError} : Corresponds p q operands e e
  | emit {e e' : EmitError} (h : e.Corresponds p q operands e') :
      Corresponds p q operands (.emit e) (.emit e')

/-- Two instructions that differ at most in their operands, which are values of the same nodes. -/
structure Instruction.Corresponds (p q : Progress) (operands : List Nat) (i j : Instruction) :
    Prop where
  op_eq : i.op = j.op
  result_eq : i.result = j.result
  operands_same : List.Forall₂ (p.SameValue q operands) i.operands j.operands

/-- What a node adds to two progresses: instructions that correspond, where a lookup takes the table
that was added right before it. -/
inductive Progress.AddedAlike (p q : Progress) (operands : List Nat) :
    List Instruction → List Instruction → Prop
  | single {i j : Instruction} (h : i.Corresponds p q operands j) :
      AddedAlike p q operands [i] [j]
  | lookup {literal : Literal} {result : Option Ty} {x y : Nat}
      (h : p.SameValue q operands x y) :
      AddedAlike p q operands
        [⟨.constant literal, [], some literal.ty⟩,
          ⟨.primitive .lookup, [x, p.routine.size], result⟩]
        [⟨.constant literal, [], some literal.ty⟩,
          ⟨.primitive .lookup, [y, q.routine.size], result⟩]

/-- A node is refused in both progresses with errors that correspond, or in both it adds
instructions that correspond. -/
inductive Node.LowersAlike (options : Options) (node : Node) (operands : List Nat)
    (p q : Progress) : Prop
  | refused {e e' : LowerError} (hp : node.lower options operands p = .error e p)
      (hq : node.lower options operands q = .error e' q) (h : e.Corresponds p q operands e') :
      LowersAlike options node operands p q
  | added {v w : Nat} {added added' : List Instruction}
      (hp : node.lower options operands p
        = .ok v { p with routine := p.routine.append added })
      (hq : node.lower options operands q
        = .ok w { q with routine := q.routine.append added' })
      (h : p.AddedAlike q operands added added') : LowersAlike options node operands p q

/-! ## Checks -/

namespace Progress

variable {p q : Progress} {operands : List Nat}

theorem SameValue.type?_eq {v w : Nat} (hsame : p.SameValue q operands v w)
    (h : p.Resembles q operands) : p.routine.type? v = q.routine.type? w := by
  obtain ⟨n, hn, hv, hw⟩ := hsame
  cases h.operands_alike n hn with
  | missing hp =>
      rw [hp] at hv
      cases hv
  | present hp hq htype =>
      rw [hp] at hv
      rw [hq] at hw
      cases hv
      cases hw
      exact htype

namespace Resembles

/-- Each operand is missing in both progresses or in neither. -/
theorem get_related (h : p.Resembles q operands) {n : Nat} (hn : n ∈ operands) :
    Except.Related (LowerError.Corresponds p q operands) (p.SameValue q operands)
      (p.registry.get n) (q.registry.get n) := by
  unfold Registry.get
  cases h.operands_alike n hn with
  | missing hp hq =>
      rw [hp, hq]
      exact .error .same
  | present hp hq =>
      rw [hp, hq]
      exact .ok ⟨n, hn, hp, hq⟩

theorem typeOf_related (h : p.Resembles q operands) {v w : Nat}
    (hsame : p.SameValue q operands v w) :
    Except.Related (EmitError.Corresponds p q operands) Eq (p.routine.typeOf v)
      (q.routine.typeOf w) := by
  unfold Routine.typeOf
  rw [hsame.type?_eq h]
  cases q.routine.type? w with
  | none => exact .error (.unknownValue hsame)
  | some t => exact .ok rfl

theorem checkOpen_related (h : p.Resembles q operands) :
    Except.Related (EmitError.Corresponds p q operands) Eq p.routine.checkOpen
      q.routine.checkOpen := by
  unfold Routine.checkOpen
  rw [h.isTerminated_eq]
  cases q.routine.isTerminated with
  | true => exact .error .alreadyTerminated
  | false => exact .ok rfl

/-- A primitive is checked alike on values of the same operands. -/
theorem checkPrimitive_related (h : p.Resembles q operands) (primitive : Primitive) (result : Ty)
    {l r l' r' : Nat} (hleft : p.SameValue q operands l l')
    (hright : p.SameValue q operands r r') :
    Except.Related (EmitError.Corresponds p q operands) Eq
      (p.routine.checkPrimitive primitive result l r)
      (q.routine.checkPrimitive primitive result l' r') := by
  -- Both routines find operands of the same types, and go on alike from there.
  have types {f f' : Ty → Ty → Except EmitError Unit}
      (hrest : ∀ leftTy rightTy, Except.Related (EmitError.Corresponds p q operands) Eq
        (f leftTy rightTy) (f' leftTy rightTy)) :
      Except.Related (EmitError.Corresponds p q operands) Eq
        (do f (← p.routine.typeOf l) (← p.routine.typeOf r))
        (do f' (← q.routine.typeOf l') (← q.routine.typeOf r')) := by
    refine (h.typeOf_related hleft).bind fun leftTy _ hl => ?_
    refine (h.typeOf_related hright).bind fun rightTy _ hr => ?_
    cases hl
    cases hr
    exact hrest leftTy rightTy
  have hclasses := h.checkOpen_related.bind fun _ _ _ => types fun leftTy rightTy =>
    .refl (fun _ => .same) do
      Routine.checkOperand primitive 0 primitive.operandClasses.1 leftTy
      Routine.checkOperand primitive 1 primitive.operandClasses.2 rightTy
      Routine.checkResult primitive result
  unfold Routine.checkPrimitive
  by_cases hdot : primitive = .dotClear
  · rw [if_pos hdot, if_pos hdot]
    exact types fun leftTy rightTy =>
      (Except.Related.refl (fun _ => .same) _).bind fun _ _ _ => hclasses
  · rw [if_neg hdot, if_neg hdot]
    exact hclasses

/-- A plan on operands of the node is checked alike. -/
theorem check_related (h : p.Resembles q operands) {plan : Plan}
    (hsubset : plan.operands ⊆ operands) :
    Except.Related (LowerError.Corresponds p q operands) Eq (plan.check p) (plan.check q) := by
  have hopen := h.checkOpen_related.mapError fun _ _ => LowerError.Corresponds.emit
  cases plan with
  | constant literal => exact hopen
  | primitive primitive width left right =>
      have hleft : left ∈ operands := hsubset (by simp [Plan.operands])
      have hright : right ∈ operands := hsubset (by simp [Plan.operands])
      refine (h.get_related hleft).bind fun l l' hl => ?_
      refine (h.get_related hright).bind fun r r' hr => ?_
      exact (h.checkPrimitive_related primitive (.encrypted width) hl hr).mapError
        fun _ _ => .emit
  | lookup table width operand =>
      have hoperand : operand ∈ operands := hsubset (by simp [Plan.operands])
      refine (h.get_related hoperand).bind fun index index' hindex => ?_
      refine ((h.typeOf_related hindex).mapError fun _ _ => .emit).bind fun ty _ hty => ?_
      cases hty
      exact (Except.Related.refl (fun _ => .same) _).bind fun _ _ _ => hopen

end Resembles

/-! ## Nodes -/

/-- What one plan adds to two progresses corresponds. -/
theorem addedAlike_of_adds {plan : Plan} {added added' : List Instruction}
    (hsubset : plan.operands ⊆ operands) (hp : plan.Adds p added) (hq : plan.Adds q added') :
    p.AddedAlike q operands added added' := by
  cases hp with
  | constant =>
      cases hq with
      | constant => exact .single ⟨rfl, rfl, .nil⟩
  | primitive hleft hright =>
      cases hq with
      | primitive hleft' hright' =>
          have hl : p.SameValue q operands _ _ :=
            ⟨_, hsubset (by simp [Plan.operands]), hleft, hleft'⟩
          have hr : p.SameValue q operands _ _ :=
            ⟨_, hsubset (by simp [Plan.operands]), hright, hright'⟩
          exact .single ⟨rfl, rfl, .cons hl (.cons hr .nil)⟩
  | lookup hindex =>
      cases hq with
      | lookup hindex' => exact .lookup ⟨_, hsubset (by simp [Plan.operands]), hindex, hindex'⟩

/-- Lowering a node depends on the types of its operands only: where two progresses resemble each
other, the node is refused in both with the same error, or adds the same instructions to both. -/
theorem Resembles.lowersAlike (h : p.Resembles q operands) (options : Options) (node : Node) :
    node.LowersAlike options operands p q := by
  cases hplan : node.plan options operands with
  | error e =>
      exact .refused (Node.lower_eq_error_iff.2 (Or.inl ⟨hplan, rfl⟩))
        (Node.lower_eq_error_iff.2 (Or.inl ⟨hplan, rfl⟩)) .same
  | ok plan =>
      have hsubset := Plan.operands_subset hplan
      have hchecks := h.check_related hsubset
      generalize hp : plan.check p = x, hq : plan.check q = y at hchecks
      cases hchecks with
      | error herrors =>
          have hp := Plan.emit_of_check_eq_error hp
          have hq := Plan.emit_of_check_eq_error hq
          exact .refused (Node.lower_eq_error_iff.2 (Or.inr ⟨plan, hplan, hp⟩))
            (Node.lower_eq_error_iff.2 (Or.inr ⟨plan, hplan, hq⟩)) herrors
      | ok =>
          obtain ⟨v, added, hadds, -, hp⟩ := Plan.exists_emit_of_check_eq_ok hp
          obtain ⟨w, added', hadds', -, hq⟩ := Plan.exists_emit_of_check_eq_ok hq
          exact .added (Node.lower_eq_ok_iff.2 ⟨plan, hplan, hp⟩)
            (Node.lower_eq_ok_iff.2 ⟨plan, hplan, hq⟩) (addedAlike_of_adds hsubset hadds hadds')

/-- A routine of one encrypted argument, the value of node `1`. -/
def argumentAlone : Progress where
  routine := { (Routine.empty "main").push ⟨.argument 0, [], some (.encrypted 2)⟩ with
    arguments := [0] }
  registry := ⟨[(1, 0)]⟩

/-- A routine in which a constant, the value of node `0`, stands before such an argument. -/
def argumentSecond : Progress where
  routine := { (Routine.empty "other").append
      [⟨.constant (.integer (.clear 3) 5), [], some (.clear 3)⟩,
        ⟨.argument 0, [], some (.encrypted 2)⟩] with arguments := [1] }
  registry := ⟨[(1, 1), (0, 0)]⟩

theorem argumentAlone_resembles_argumentSecond :
    argumentAlone.Resembles argumentSecond [1] where
  isTerminated_eq := rfl
  operands_alike n hn := by
    rw [List.mem_singleton.1 hn]
    exact .present (v := 0) (w := 1) rfl rfl rfl

/-- The lookup of the value of node `1` in a table of four entries. -/
def lookupFour : Node :=
  .lookup ⟨[3, 2, 1, 0], by decide⟩ (.encryptedUnsigned 2) (.encryptedUnsigned 2)

/-- The lookup is lowered alike in both routines, though its values have other indices. -/
theorem lookupFour_lowersAlike :
    argumentAlone.Resembles argumentSecond [1] ∧
      lookupFour.LowersAlike { checksTables := true } [1] argumentAlone argumentSecond ∧
      (∃ p, lookupFour.lower { checksTables := true } [1] argumentAlone = .ok 2 p) ∧
      ∃ q, lookupFour.lower { checksTables := true } [1] argumentSecond = .ok 3 q :=
  ⟨argumentAlone_resembles_argumentSecond,
    argumentAlone_resembles_argumentSecond.lowersAlike _ _, ⟨_, rfl⟩, ⟨_, rfl⟩⟩

end Progress

end CipherFlow
