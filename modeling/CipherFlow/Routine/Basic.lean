import CipherFlow.Network.Operands
import CipherFlow.Routine.Op

/-!
# Routines

A routine is a straight line of instructions. To each of them lead links from its operands, which
are named by the indices of the instructions that compute them, so a value is the index of an
instruction with a result type. The operands of an instruction are read off its incoming links by
position.
-/

set_option autoImplicit false

namespace CipherFlow

/-! ## Refused instructions -/

inductive EmitError
  | operandType (op : Primitive) (position : Nat) (expected : TyClass) (found : Ty)
  | resultType (op : Primitive) (found : Ty)
  | shapeMismatch (op : Primitive) (left right : Shape)
  /-- No instruction with a result has this index. -/
  | unknownValue (value : Nat)
  | alreadyTerminated (name : String)
  deriving DecidableEq, Repr

def EmitError.message : EmitError → String
  | operandType op position expected found =>
      s!"{op.mnemonic}: operand {position} must be {expected.phrase}, found {found}"
  | resultType op found =>
      s!"{op.mnemonic}: result must be {TyClass.encryptedInteger.phrase}, found {found}"
  | shapeMismatch op left right =>
      s!"{op.mnemonic}: incompatible operand shapes {left.spell} and {right.spell}"
  | unknownValue value => s!"Value %{value} isn't defined in this function"
  | alreadyTerminated name => s!"Function {name} already has a return"

/-! ## Instructions in a row -/

/-- What a routine keeps of an instruction apart from its operands. -/
structure Entry where
  op : Op
  result : Option Ty
  deriving DecidableEq, Repr

/-- An operation on earlier values, with the type of its result if it has one. -/
structure Instruction where
  op : Op
  operands : List Nat
  result : Option Ty
  deriving DecidableEq, Repr

structure Routine where
  name : String
  entries : Array Entry
  /-- The links from operands to instructions, which have the positions of the operands. -/
  links : List (Link Nat)
  arguments : List Nat
  /-- The values returned, once the routine has returned. -/
  returned : Option (List Nat)
  target_lt : ∀ l ∈ links, l.target < entries.size
  deriving DecidableEq, Repr

namespace Routine

def empty (name : String) : Routine where
  name := name
  entries := #[]
  links := []
  arguments := []
  returned := none
  target_lt := nofun

def size (r : Routine) : Nat := r.entries.size

def results (r : Routine) : List Nat := r.returned.getD []

def type? (r : Routine) (v : Nat) : Option Ty := r.entries[v]?.bind (·.result)

def op (r : Routine) (v : Nat) : Except EmitError Op :=
  match r.entries[v]? with
  | some entry => .ok entry.op
  | none => .error (.unknownValue v)

def typeOf (r : Routine) (v : Nat) : Except EmitError Ty :=
  match r.type? v with
  | some t => .ok t
  | none => .error (.unknownValue v)

/-- The operands of an instruction in order; none if there is no such instruction. -/
def operands (r : Routine) (v : Nat) : List Nat := operandsAmong r.links v

def instruction? (r : Routine) (v : Nat) : Option Instruction :=
  r.entries[v]?.map fun entry => ⟨entry.op, r.operands v, entry.result⟩

def instructions (r : Routine) : Array Instruction :=
  r.entries.mapIdx fun v entry => ⟨entry.op, r.operands v, entry.result⟩

/-- The routine with one more instruction, and links to it from its operands. -/
def push (r : Routine) (i : Instruction) : Routine where
  name := r.name
  entries := r.entries.push ⟨i.op, i.result⟩
  links := r.links ++ operandLinks r.size i.operands 0
  arguments := r.arguments
  returned := r.returned
  target_lt l hl := by
    rw [Array.size_push]
    rcases List.mem_append.1 hl with hl | hl
    · exact Nat.lt_succ_of_lt (r.target_lt l hl)
    · exact target_of_mem_operandLinks hl ▸ Nat.lt_succ_self r.size

/-! ## Instructions -/

theorem instruction?_eq_none {r : Routine} {v : Nat} (h : r.size ≤ v) :
    r.instruction? v = none := by
  rw [instruction?, Array.getElem?_eq_none h, Option.map_none]

theorem type?_eq_bind (r : Routine) (v : Nat) :
    r.type? v = (r.instruction? v).bind (·.result) := by
  rw [type?, instruction?, Option.bind_map]
  rfl

theorem operands_of_instruction? {r : Routine} {v : Nat} {i : Instruction}
    (h : r.instruction? v = some i) : r.operands v = i.operands := by
  obtain ⟨entry, -, rfl⟩ := Option.map_eq_some_iff.1 h
  rfl

theorem getElem?_entries (r : Routine) (v : Nat) :
    r.entries[v]? = (r.instruction? v).map fun i => ⟨i.op, i.result⟩ := by
  rw [instruction?, Option.map_map]
  exact Option.map_id_apply.symm

theorem getElem?_instructions (r : Routine) (v : Nat) :
    r.instructions[v]? = r.instruction? v :=
  Array.getElem?_mapIdx

theorem size_instructions (r : Routine) : r.instructions.size = r.size :=
  Array.size_mapIdx

theorem lt_size_of_type?_eq_some {r : Routine} {v : Nat} {t : Ty} (h : r.type? v = some t) :
    v < r.size := by
  obtain ⟨entry, hentry, -⟩ := Option.bind_eq_some_iff.1 h
  exact (Array.getElem?_eq_some_iff.1 hentry).1

theorem typeOf_eq_ok_iff {r : Routine} {v : Nat} {t : Ty} :
    r.typeOf v = .ok t ↔ r.type? v = some t := by
  unfold typeOf
  split <;> simp_all

/-! ## What one more instruction changes -/

@[simp] theorem size_push (r : Routine) (i : Instruction) : (r.push i).size = r.size + 1 :=
  Array.size_push _

/-- The operands of the new instruction are the given ones in order, and those of others stay. -/
theorem operands_push (r : Routine) (i : Instruction) (v : Nat) :
    (r.push i).operands v = if v = r.size then i.operands else r.operands v :=
  operandsAmong_append (fun l hl => Nat.ne_of_lt (r.target_lt l hl)) i.operands v

theorem instruction?_push (r : Routine) (i : Instruction) (v : Nat) :
    (r.push i).instruction? v = if v = r.size then some i else r.instruction? v := by
  have hentry : (r.push i).entries[v]?
      = if v = r.size then some ⟨i.op, i.result⟩ else r.entries[v]? := Array.getElem?_push
  rw [instruction?, instruction?, operands_push, hentry]
  split <;> rfl

end Routine

end CipherFlow
