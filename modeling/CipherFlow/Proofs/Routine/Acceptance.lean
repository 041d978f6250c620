import CipherFlow.Proofs.Routine.Calls

/-!
# Accepted calls

An open routine accepts a primitive exactly if the types of its operands and its result are a
signature of the primitive (`Primitive.Signature`), and a return exactly if its values have types.
What is accepted becomes one instruction at the end and leaves all else as it was
(`Routine.Appends`); what is refused changes nothing. The links from the operands of the new
instruction give the operands back, repeated ones included, in whatever order the links are stored.
Main statement: `Routine.perform_cases`.
-/

set_option autoImplicit false

namespace CipherFlow

/-! ## Signatures -/

/-- The types of operands and result that a primitive has. The vectors of a dot product are of one
length. -/
inductive Primitive.Signature : Primitive → Ty → Ty → Ty → Prop
  | addClear {a b w : UInt32} : Signature .addClear (.encrypted a) (.clear b) (.encrypted w)
  | add {a b w : UInt32} : Signature .add (.encrypted a) (.encrypted b) (.encrypted w)
  | subFromClear {a b w : UInt32} :
      Signature .subFromClear (.clear a) (.encrypted b) (.encrypted w)
  | mulClear {a b w : UInt32} : Signature .mulClear (.encrypted a) (.clear b) (.encrypted w)
  | lookup {a b w : UInt32} {size : UInt64} :
      Signature .lookup (.encrypted a) (.tensor [size] (.clear b)) (.encrypted w)
  | dotClear {a b w : UInt32} {length : UInt64} :
      Signature .dotClear (.tensor [length] (.encrypted a)) (.tensor [length] (.clear b))
        (.encrypted w)

namespace Ty

variable {t : Ty}

theorem isVectorWith_iff {p : Ty → Bool} :
    t.isVectorWith p = true ↔
      ∃ length element, t = .tensor [length] element ∧ p element = true := by
  unfold isVectorWith
  split
  · simp
  · next hne =>
      simp only [Bool.false_eq_true, false_iff]
      rintro ⟨length, element, rfl, -⟩
      exact hne length element rfl

theorem isVectorWith_isClear_iff :
    t.isVectorWith isClear = true ↔ ∃ length w, t = .tensor [length] (.clear w) := by
  simp only [isVectorWith_iff, isClear_iff]
  constructor
  · rintro ⟨length, _, rfl, w, rfl⟩
    exact ⟨length, w, rfl⟩
  · rintro ⟨length, w, rfl⟩
    exact ⟨length, _, rfl, w, rfl⟩

theorem isVectorWith_isEncrypted_iff :
    t.isVectorWith isEncrypted = true ↔ ∃ length w, t = .tensor [length] (.encrypted w) := by
  simp only [isVectorWith_iff, isEncrypted_iff]
  constructor
  · rintro ⟨length, _, rfl, w, rfl⟩
    exact ⟨length, w, rfl⟩
  · rintro ⟨length, w, rfl⟩
    exact ⟨length, _, rfl, w, rfl⟩

end Ty

/-- The classes of its operands and result tell the signatures of a primitive. -/
theorem Primitive.takes_iff_signature {p : Primitive} {left right result : Ty} :
    p.Takes left right result ↔ p.Signature left right result := by
  constructor
  · rintro ⟨hleft, hright, hshape, hresult⟩
    obtain ⟨w, rfl⟩ := Ty.isEncrypted_iff.1 hresult
    cases p with
    | addClear =>
        obtain ⟨a, rfl⟩ := Ty.isEncrypted_iff.1 hleft
        obtain ⟨b, rfl⟩ := Ty.isClear_iff.1 hright
        exact .addClear
    | add =>
        obtain ⟨a, rfl⟩ := Ty.isEncrypted_iff.1 hleft
        obtain ⟨b, rfl⟩ := Ty.isEncrypted_iff.1 hright
        exact .add
    | subFromClear =>
        obtain ⟨a, rfl⟩ := Ty.isClear_iff.1 hleft
        obtain ⟨b, rfl⟩ := Ty.isEncrypted_iff.1 hright
        exact .subFromClear
    | mulClear =>
        obtain ⟨a, rfl⟩ := Ty.isEncrypted_iff.1 hleft
        obtain ⟨b, rfl⟩ := Ty.isClear_iff.1 hright
        exact .mulClear
    | lookup =>
        obtain ⟨a, rfl⟩ := Ty.isEncrypted_iff.1 hleft
        obtain ⟨size, b, rfl⟩ := Ty.isVectorWith_isClear_iff.1 hright
        exact .lookup
    | dotClear =>
        obtain ⟨length, a, rfl⟩ := Ty.isVectorWith_isEncrypted_iff.1 hleft
        obtain ⟨length', b, rfl⟩ := Ty.isVectorWith_isClear_iff.1 hright
        cases hshape rfl
        exact .dotClear
  · intro h
    cases h with
    | dotClear => exact ⟨rfl, rfl, fun _ => rfl, rfl⟩
    | addClear | add | subFromClear | mulClear | lookup => exact ⟨rfl, rfl, nofun, rfl⟩

/-! ## Accepted calls -/

namespace Routine

/-- The calls that are well typed in an open routine. -/
inductive Accepts (r : Routine) : Emission.Call → Prop
  | argument {ty : Ty} (hopen : r.returned = none) : Accepts r (.argument ty)
  | constant {literal : Literal} (hopen : r.returned = none) : Accepts r (.constant literal)
  | primitive {p : Primitive} {result leftTy rightTy : Ty} {left right : Nat}
      (hopen : r.returned = none) (hleft : r.type? left = some leftTy)
      (hright : r.type? right = some rightTy) (hsignature : p.Signature leftTy rightTy result) :
      Accepts r (.primitive p result left right)
  | ret {values : List Nat} (hopen : r.returned = none)
      (hvalues : ∀ v ∈ values, ∃ t, r.type? v = some t) : Accepts r (.ret values)

/-- A routine is another with one more instruction at its end. -/
structure Appends (r : Routine) (i : Instruction) (r' : Routine) : Prop where
  name_eq : r'.name = r.name
  size_eq : r'.size = r.size + 1
  instruction?_size : r'.instruction? r.size = some i
  instruction?_eq : ∀ v, v < r.size → r'.instruction? v = r.instruction? v
  /-- Only an argument is listed as one, -/
  arguments_eq : (∀ position, i.op ≠ .argument position) → r'.arguments = r.arguments
  /-- and only a return ends the routine. -/
  returned_eq : i.op ≠ .ret → r'.returned = r.returned
  /-- The links there were stay, and the instruction has one from each operand, -/
  links_eq : r'.links = r.links ++ operandLinks r.size i.operands 0
  /-- which tell its operands in order, however they are stored. -/
  operands_read : ∀ links, links.Perm r'.links → operandsAmong links r.size = i.operands

variable {r : Routine} {c : Emission.Call}

theorem accepts_iff : r.Accepts c ↔ c.check r = .ok () := by
  rw [Emission.Call.check_eq_ok_iff r.arguments.length]
  constructor
  · intro h
    cases h with
    | argument hopen => exact ⟨hopen, .argument⟩
    | constant hopen => exact ⟨hopen, .constant⟩
    | primitive hopen hleft hright hsignature =>
        exact ⟨hopen, .primitive hleft hright (Primitive.takes_iff_signature.2 hsignature)⟩
    | ret hopen hvalues => exact ⟨hopen, .ret hvalues⟩
  · rintro ⟨hopen, hadmits⟩
    cases c with
    | argument ty => exact .argument hopen
    | constant literal => exact .constant hopen
    | primitive p result left right =>
        cases hadmits with
        | primitive hleft hright htakes =>
            exact .primitive hopen hleft hright (Primitive.takes_iff_signature.1 htakes)
    | ret values =>
        cases hadmits with
        | ret hvalues => exact .ret hopen hvalues

theorem appends_extend (c : Emission.Call) (r : Routine) :
    r.Appends (c.instruction r.arguments.length) (c.extend r) := by
  have hlast : (c.extend r).instruction? r.size = some (c.instruction r.arguments.length) := by
    rw [Emission.Call.instruction?_extend, instruction?_push_size]
  constructor
  case name_eq => cases c <;> rfl
  case size_eq => exact c.size_extend r
  case instruction?_size => exact hlast
  case instruction?_eq =>
    intro v hv
    rw [Emission.Call.instruction?_extend, instruction?_push, if_neg (Nat.ne_of_lt hv)]
  case arguments_eq =>
    intro hop
    cases c with
    | argument ty => exact absurd rfl (hop _)
    | constant literal => rfl
    | primitive p result left right => rfl
    | ret values => rfl
  case returned_eq =>
    intro hop
    cases c with
    | ret values => exact absurd rfl hop
    | argument ty => rfl
    | constant literal => rfl
    | primitive p result left right => rfl
  case links_eq => exact c.links_extend r
  case operands_read =>
    intro links hlinks
    calc operandsAmong links r.size
        = (c.extend r).operands r.size := operandsAmong_eq_of_perm hlinks r.size
      _ = (c.instruction r.arguments.length).operands := operands_of_instruction? hlast

/-- A call is accepted exactly if it is well typed in an open routine, and then its instruction is
added at the end under the next index; otherwise nothing changes. -/
theorem perform_cases (r : Routine) (c : Emission.Call) :
    (r.Accepts c ∧ c.perform r = .ok r.size (c.extend r) ∧
        r.Appends (c.instruction r.arguments.length) (c.extend r)) ∨
      (¬ r.Accepts c ∧ ∃ e, c.perform r = .error e r) := by
  rw [accepts_iff]
  rcases hcheck : c.check r with e | u
  · exact Or.inr ⟨nofun, e, Emission.Call.perform_eq_error_iff.2 ⟨hcheck, rfl⟩⟩
  · exact Or.inl ⟨rfl, Emission.Call.perform_eq_ok_iff.2 ⟨hcheck, rfl, rfl⟩, appends_extend c r⟩

end Routine

end CipherFlow
