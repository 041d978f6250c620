import CipherFlow.Lowering.Session
import CipherFlow.Proofs.Lowering.Atomicity
import CipherFlow.Proofs.Lowering.Criterion

/-!
# Sessions

Nodes are lowered one by one, by calls that may fail. A call that succeeds gives the next number to
a new value at the end of the routine (`Session.Advances`), and a call that fails changes nothing.
So the numbers in the registry have no gaps, whatever the calls and however many of them fail, and
besides its arguments the routine has one instruction for each node and one more for each lookup.
Main statement: `Session.agrees_ofCalls`.
-/

set_option autoImplicit false

namespace CipherFlow

open Lowering

/-! ## Nodes -/

namespace Node

/-- The number of instructions that a node becomes. -/
def instructionCount (node : Node) : Nat := 1 + (node.tag == .lookup).toNat

variable {options : Options} {node : Node} {operands : List Nat} {p p' : Progress}

theorem PlansTo.length_added {plan : Plan} {added : List Instruction}
    (hplan : node.PlansTo options operands plan) (hadds : plan.Adds p added) :
    added.length = node.instructionCount := by
  cases hplan with
  | constant =>
      cases hadds with
      | constant => rfl
  | binary _ _ _ hrule =>
      cases hadds with
      | primitive => rcases Rule.binary_of_find? hrule with rfl | rfl | rfl | rfl <;> rfl
  | lookup =>
      cases hadds with
      | lookup => rfl

theorem eq_of_lower_eq_error {e : LowerError} (h : node.lower options operands p = .error e p') :
    p' = p := by
  rcases lower_eq_error_iff.1 h with ⟨-, rfl⟩ | ⟨plan, -, hemit⟩
  · rfl
  · cases hcheck : plan.check p with
    | error e' =>
        rw [Plan.emit_of_check_eq_error hcheck] at hemit
        cases hemit
        rfl
    | ok u =>
        obtain ⟨v, added, -, -, hok⟩ := Plan.exists_emit_of_check_eq_ok hcheck
        rw [hok] at hemit
        cases hemit

/-- A node that is lowered has the last of the instructions that are added as its value. -/
theorem exists_growsBy_of_lower {v : Nat} (h : node.lower options operands p = .ok v p') :
    ∃ added, p.routine.GrowsBy added p'.routine ∧ added.length = node.instructionCount ∧
      v + 1 = p'.routine.size := by
  obtain ⟨plan, hplan, hemit⟩ := lower_eq_ok_iff.1 h
  cases hcheck : plan.check p with
  | error e =>
      rw [Plan.emit_of_check_eq_error hcheck] at hemit
      cases hemit
  | ok u =>
      obtain ⟨v', added, hadds, hlast, hok⟩ := Plan.exists_emit_of_check_eq_ok hcheck
      rw [hok] at hemit
      cases hemit
      have hgrows := p.routine.growsBy_append added
      exact ⟨added, hgrows, (plan_eq_ok_iff.1 hplan).length_added hadds,
        hlast.trans hgrows.size_eq.symm⟩

end Node

namespace Session

/-! ## Steps -/

variable {s s' : Session} {n v : Nat}

theorem onProgress_eq_ok_iff {α : Type} {x : Lowering α} {a : α} :
    onProgress x s = .ok a s' ↔ ∃ p, x s.progress = .ok a p ∧ s' = { s with progress := p } := by
  unfold onProgress
  cases x s.progress <;> simp [eq_comm]

theorem onProgress_eq_error_iff {α : Type} {x : Lowering α} {e : LowerError} :
    onProgress x s = .error e s' ↔
      ∃ p, x s.progress = .error e p ∧ s' = { s with progress := p } := by
  unfold onProgress
  cases x s.progress <;> simp [eq_comm]

/-- The end of every call: the next number goes to a value. -/
def number {α : Type} (v : Nat) (answer : Nat → α) : Step α := do
  let n ← fresh
  onProgress (register n v)
  return answer n

theorem argument_eq (output : Descriptor) :
    argument output = (do
      let ty ← onProgress (liftResult (argumentTy "arg" output))
      let v ← onProgress (Lowering.emit (Emission.argument ty))
      number v id) :=
  rfl

theorem lower_eq (node : Node) (operands : List Nat) (s : Session) :
    lower node operands s = (do
      let v ← onProgress (node.lower s.options operands)
      number v fun n => (n, v) : Step (Nat × Nat)) s :=
  rfl

theorem number_eq_ok_iff {α : Type} {answer : Nat → α} {a : α} :
    number v answer s = .ok a s' ↔
      s.progress.registry.find? s.next = none ∧ a = answer s.next ∧
        s' = { s with
          progress := { s.progress with registry := s.progress.registry.add s.next v }
          next := s.next + 1 } := by
  show (onProgress (register s.next v) >>= fun _ => pure (answer s.next) : Step α)
    { s with next := s.next + 1 } = _ ↔ _
  simp only [EStateM.bind_eq_ok_iff, onProgress_eq_ok_iff, register_eq_ok_iff,
    EStateM.pure_eq_ok_iff]
  constructor
  · rintro ⟨⟨⟩, s₁, ⟨p, ⟨hnew, rfl⟩, rfl⟩, rfl, rfl⟩
    exact ⟨hnew, rfl, rfl⟩
  · rintro ⟨hnew, rfl, rfl⟩
    exact ⟨(), _, ⟨_, ⟨hnew, rfl⟩, rfl⟩, rfl, rfl⟩

theorem number_ne_error {α : Type} {answer : Nat → α} {e : LowerError}
    (hnew : s.progress.registry.find? s.next = none) : number v answer s ≠ .error e s' := by
  rw [number_eq_ok_iff.2 ⟨hnew, rfl, rfl⟩]
  exact nofun

theorem argument_eq_ok_iff {output : Descriptor} :
    argument output s = .ok n s' ↔
      ∃ ty, argumentTy "arg" output = .ok ty ∧ s.progress.routine.returned = none ∧
        s.progress.registry.find? s.next = none ∧ n = s.next ∧
        s' = { s with
          progress := Dataflow.addArgument s.next ty s.progress
          next := s.next + 1 } := by
  simp only [argument_eq, EStateM.bind_eq_ok_iff, onProgress_eq_ok_iff, liftResult_eq_ok_iff,
    emit_argument_eq_ok_iff, number_eq_ok_iff]
  constructor
  · rintro ⟨ty, s₁, ⟨p, ⟨hty, rfl⟩, rfl⟩, v, s₂, ⟨p₂, ⟨hopen, rfl, rfl⟩, rfl⟩, hnew, rfl, rfl⟩
    exact ⟨ty, hty, hopen, hnew, rfl, rfl⟩
  · rintro ⟨ty, hty, hopen, hnew, rfl, rfl⟩
    exact ⟨ty, _, ⟨_, ⟨hty, rfl⟩, rfl⟩, _, _, ⟨_, ⟨hopen, rfl, rfl⟩, rfl⟩, hnew, rfl, rfl⟩

/-- Where the next number is free, an argument that is refused changes nothing. -/
theorem eq_of_argument_eq_error {output : Descriptor} {e : LowerError}
    (hnew : s.progress.registry.find? s.next = none) (h : argument output s = .error e s') :
    s' = s := by
  rw [argument_eq] at h
  rcases EStateM.bind_eq_error_iff.1 h with h | ⟨ty, s₁, hty, h⟩
  · obtain ⟨p, hp, rfl⟩ := onProgress_eq_error_iff.1 h
    obtain ⟨-, rfl⟩ := liftResult_eq_error_iff.1 hp
    rfl
  · obtain ⟨p, hp, rfl⟩ := onProgress_eq_ok_iff.1 hty
    obtain ⟨-, rfl⟩ := liftResult_eq_ok_iff.1 hp
    rcases EStateM.bind_eq_error_iff.1 h with h | ⟨v, s₂, hv, h⟩
    · obtain ⟨p, hp, rfl⟩ := onProgress_eq_error_iff.1 h
      obtain ⟨error, -, -, rfl⟩ := emit_guarded_eq_error_iff.1 hp
      rfl
    · obtain ⟨p, hp, rfl⟩ := onProgress_eq_ok_iff.1 hv
      obtain ⟨-, -, rfl⟩ := emit_argument_eq_ok_iff.1 hp
      exact absurd h (number_ne_error hnew)

theorem lower_eq_ok_iff {node : Node} {operands : List Nat} :
    lower node operands s = .ok (n, v) s' ↔
      ∃ p, node.lower s.options operands s.progress = .ok v p ∧
        p.registry.find? s.next = none ∧ n = s.next ∧
        s' = { s with
          progress := { p with registry := p.registry.add s.next v }
          next := s.next + 1 } := by
  simp only [lower_eq, EStateM.bind_eq_ok_iff, onProgress_eq_ok_iff, number_eq_ok_iff]
  constructor
  · rintro ⟨w, s₁, ⟨p, hlower, rfl⟩, hnew, heq, rfl⟩
    cases heq
    exact ⟨p, hlower, hnew, rfl, rfl⟩
  · rintro ⟨p, hlower, hnew, rfl, rfl⟩
    exact ⟨v, _, ⟨p, hlower, rfl⟩, hnew, rfl, rfl⟩

theorem eq_of_lower_eq_error {node : Node} {operands : List Nat} {e : LowerError}
    (hnew : s.progress.registry.find? s.next = none) (h : lower node operands s = .error e s') :
    s' = s := by
  rw [lower_eq] at h
  rcases EStateM.bind_eq_error_iff.1 h with h | ⟨v, s₁, hv, h⟩
  · obtain ⟨p, hp, rfl⟩ := onProgress_eq_error_iff.1 h
    rw [Node.eq_of_lower_eq_error hp]
  · obtain ⟨p, hp, rfl⟩ := onProgress_eq_ok_iff.1 hv
    obtain ⟨plan, -, hemit⟩ := Node.lower_eq_ok_iff.1 hp
    have hnew : p.registry.find? s.next = none := by rw [Plan.registry_of_emit hemit, hnew]
    exact absurd h (number_ne_error hnew)

/-! ## Calls -/

/-- A call on a session. -/
inductive Call
  | argument (output : Descriptor)
  | lower (node : Node) (operands : List Nat)

namespace Call

/-- The step that a call makes. It answers with the number of the argument or node. -/
def perform : Call → Step Nat
  | argument output => Session.argument output
  | lower node operands => Prod.fst <$> Session.lower node operands

/-- Whether a call adds an argument. -/
def isArgument : Call → Bool
  | argument _ => true
  | lower _ _ => false

/-- Whether a call lowers a node. -/
def isLower : Call → Bool
  | argument _ => false
  | lower _ _ => true

/-- Whether a call lowers a function of one variable. -/
def isLookup : Call → Bool
  | argument _ => false
  | lower node _ => node.tag == .lookup

end Call

/-- What a call that succeeds does: the next number goes to a new value of the routine. -/
structure Advances (s : Session) (c : Call) (v : Nat) (s' : Session) : Prop where
  next_eq : s'.next = s.next + 1
  registry_eq : s'.progress.registry = s.progress.registry.add s.next v
  size_le : s.progress.routine.size ≤ v
  exists_type : ∃ ty, s'.progress.routine.type? v = some ty
  extendedBy : s.progress.routine.ExtendedBy s'.progress.routine
  arguments_eq : s'.progress.routine.arguments.length
    = s.progress.routine.arguments.length + c.isArgument.toNat
  size_eq : s'.progress.routine.size
    = s.progress.routine.size + c.isArgument.toNat + c.isLower.toNat + c.isLookup.toNat

theorem advances_argument {output : Descriptor} (h : argument output s = .ok n s') :
    n = s.next ∧ s.Advances (.argument output) s.progress.routine.size s' := by
  obtain ⟨ty, -, -, -, rfl, rfl⟩ := argument_eq_ok_iff.1 h
  let i : Instruction := ⟨.argument s.progress.routine.arguments.length, [], some ty⟩
  refine ⟨rfl, rfl, rfl, Nat.le_refl _, ⟨ty, ?_⟩, s.progress.routine.extendedBy_push i,
    List.length_append, s.progress.routine.size_push i⟩
  exact Routine.type?_of_instruction? (s.progress.routine.instruction?_push_size i)

theorem advances_lower {node : Node} {operands : List Nat}
    (h : lower node operands s = .ok (n, v) s') :
    n = s.next ∧ s.Advances (.lower node operands) v s' := by
  obtain ⟨p, hlower, -, rfl, rfl⟩ := lower_eq_ok_iff.1 h
  obtain ⟨added, hgrows, hlength, hlast⟩ := Node.exists_growsBy_of_lower hlower
  obtain ⟨plan, -, hemit⟩ := Node.lower_eq_ok_iff.1 hlower
  have hextended : s.progress.routine.ExtendedBy p.routine := Plan.extendedBy_of_emit hemit
  have htype : p.routine.type? v = some plan.ty := Plan.type?_of_emit hemit
  have hsize := hgrows.size_eq
  rw [hlength, Node.instructionCount] at hsize
  refine ⟨rfl, rfl, ?_, ?_, ⟨plan.ty, htype⟩, hextended, ?_, ?_⟩
  · rw [Plan.registry_of_emit hemit]
  · omega
  · exact congrArg List.length hgrows.arguments_eq
  · exact hsize.trans (Nat.add_assoc _ 1 _).symm

/-- Where the next number is free, a call succeeds and answers with that number, or it fails and
changes nothing. -/
theorem cases_perform (c : Call) (hnew : s.progress.registry.find? s.next = none) :
    (∃ v s', c.perform s = .ok s.next s' ∧ s.Advances c v s') ∨
      ∃ e, c.perform s = .error e s := by
  cases c with
  | argument output =>
      show (∃ v s', argument output s = _ ∧ _) ∨ ∃ e, argument output s = _
      cases h : argument output s with
      | ok n s' =>
          obtain ⟨rfl, hadvances⟩ := advances_argument h
          exact Or.inl ⟨_, s', rfl, hadvances⟩
      | error e s' =>
          rw [eq_of_argument_eq_error hnew h]
          exact Or.inr ⟨e, rfl⟩
  | lower node operands =>
      show (∃ v s', EStateM.map Prod.fst (lower node operands) s = _ ∧ _) ∨
        ∃ e, EStateM.map Prod.fst (lower node operands) s = _
      unfold EStateM.map
      cases h : lower node operands s with
      | ok answer s' =>
          obtain ⟨n, v⟩ := answer
          obtain ⟨rfl, hadvances⟩ := advances_lower h
          exact Or.inl ⟨v, s', rfl, hadvances⟩
      | error e s' =>
          rw [eq_of_lower_eq_error hnew h]
          exact Or.inr ⟨e, rfl⟩

/-! ## Runs -/

/-- The session after a call, which may have failed. -/
def call (s : Session) (c : Call) : Session :=
  match c.perform s with
  | .ok _ s' => s'
  | .error _ s' => s'

/-- The session after calls that are made one after another. -/
def ofCalls (options : Options) (calls : List Call) : Session := calls.foldl call (start options)

/-- The calls that succeed when calls are made one after another, each with its answer. -/
def log (s : Session) : List Call → List (Call × Nat)
  | [] => []
  | c :: calls =>
    match c.perform s with
    | .ok n s' => (c, n) :: s'.log calls
    | .error _ s' => s'.log calls

/-- What holds of a session behind the calls that succeeded, given with their answers. -/
structure Agrees (s : Session) (done : List (Call × Nat)) : Prop where
  numbers_eq : done.map Prod.snd = List.range done.length
  next_eq : s.next = done.length
  contains_iff : ∀ n, s.progress.registry.contains n = true ↔ n < done.length
  registrySize_eq : s.progress.registry.size = done.length
  value_injective : ∀ m n v, s.progress.registry.find? m = some v →
    s.progress.registry.find? n = some v → m = n
  exists_type : ∀ n v, s.progress.registry.find? n = some v →
    ∃ ty, s.progress.routine.type? v = some ty
  size_eq : s.progress.routine.size = s.progress.routine.arguments.length
    + (done.countP (·.1.isLower) + done.countP (·.1.isLookup))

namespace Agrees

variable {done : List (Call × Nat)} {c : Call}

theorem start (options : Options) : (Session.start options).Agrees [] where
  numbers_eq := rfl
  next_eq := rfl
  contains_iff n := by simp [Session.start, Registry.contains, Registry.find?, Registry.empty]
  registrySize_eq := rfl
  value_injective _ _ _ h := nomatch h
  exists_type _ _ h := nomatch h
  size_eq := rfl

/-- The next number is free. -/
theorem find?_next (h : s.Agrees done) : s.progress.registry.find? s.next = none := by
  rw [← Registry.contains_eq_false_iff, ← Bool.not_eq_true, h.contains_iff, h.next_eq]
  exact Nat.lt_irrefl _

/-- Values of the registry are older than what a call adds. -/
theorem value_lt (h : s.Agrees done) (hfind : s.progress.registry.find? n = some v) :
    v < s.progress.routine.size := by
  obtain ⟨ty, hty⟩ := h.exists_type n v hfind
  exact Routine.lt_size_of_type?_eq_some hty

/-- A call that succeeds is one more. -/
theorem advance (h : s.Agrees done) (hstep : s.Advances c v s') :
    s'.Agrees (done ++ [(c, s.next)]) := by
  have hlength : (done ++ [(c, s.next)]).length = done.length + 1 := List.length_append
  constructor
  case numbers_eq =>
    rw [hlength, List.map_append, h.numbers_eq, List.range_succ, List.map_singleton, h.next_eq]
  case next_eq => rw [hlength, hstep.next_eq, h.next_eq]
  case contains_iff =>
    intro n
    rw [hlength, hstep.registry_eq, Registry.contains, Registry.find?_add, h.next_eq]
    by_cases hn : n = done.length
    · simp [hn]
    · rw [if_neg hn]
      have hold := h.contains_iff n
      rw [Registry.contains] at hold
      rw [hold]
      omega
  case registrySize_eq =>
    rw [hlength, hstep.registry_eq, ← h.registrySize_eq]
    rfl
  case value_injective =>
    intro m n w hm hn
    rw [hstep.registry_eq] at hm hn
    -- The new value is different from those that are there.
    rcases Registry.eq_or_find?_of_find?_add hm with ⟨rfl, rfl⟩ | hmold
    · rcases Registry.eq_or_find?_of_find?_add hn with ⟨rfl, -⟩ | hnold
      · rfl
      · exact absurd (h.value_lt hnold) (Nat.not_lt_of_le hstep.size_le)
    · rcases Registry.eq_or_find?_of_find?_add hn with ⟨rfl, rfl⟩ | hnold
      · exact absurd (h.value_lt hmold) (Nat.not_lt_of_le hstep.size_le)
      · exact h.value_injective m n w hmold hnold
  case exists_type =>
    intro n w hn
    rw [hstep.registry_eq] at hn
    rcases Registry.eq_or_find?_of_find?_add hn with ⟨rfl, rfl⟩ | hn
    · exact hstep.exists_type
    · obtain ⟨ty, hty⟩ := h.exists_type n w hn
      exact ⟨ty, hstep.extendedBy.type? hty⟩
  case size_eq =>
    rw [hstep.size_eq, hstep.arguments_eq, h.size_eq, List.countP_append, List.countP_append,
      List.countP_singleton, List.countP_singleton]
    cases c.isLower <;> cases c.isLookup <;> simp <;> omega

end Agrees

/-- The entries of the registry are those of another session, and their values have the same types
there. -/
def KeptBy (s s' : Session) : Prop :=
  ∀ n v, s.progress.registry.find? n = some v → s'.progress.registry.find? n = some v ∧
    s'.progress.routine.type? v = s.progress.routine.type? v

theorem KeptBy.trans {s₁ s₂ s₃ : Session} (h : s₁.KeptBy s₂) (h' : s₂.KeptBy s₃) :
    s₁.KeptBy s₃ := by
  intro n v hn
  obtain ⟨hn₂, htype₂⟩ := h n v hn
  obtain ⟨hn₃, htype₃⟩ := h' n v hn₂
  exact ⟨hn₃, htype₃.trans htype₂⟩

theorem Agrees.keptBy {done : List (Call × Nat)} {c : Call} (h : s.Agrees done)
    (hstep : s.Advances c v s') : s.KeptBy s' := by
  intro n w hn
  obtain ⟨ty, hty⟩ := h.exists_type n w hn
  rw [hstep.registry_eq, Registry.find?_add_of_eq_some v h.find?_next hn, hty,
    hstep.extendedBy.type? hty]
  exact ⟨rfl, rfl⟩

/-- A run continues a session with the calls of the run that succeed. -/
theorem Agrees.foldl_call {done : List (Call × Nat)} (h : s.Agrees done) (calls : List Call) :
    (calls.foldl call s).Agrees (done ++ s.log calls) ∧ s.KeptBy (calls.foldl call s) := by
  induction calls generalizing s done with
  | nil =>
      rw [log, List.append_nil]
      exact ⟨h, fun n v hn => ⟨hn, rfl⟩⟩
  | cons c calls ih =>
      rw [List.foldl_cons, log, call]
      rcases s.cases_perform c h.find?_next with ⟨v, s', hok, hstep⟩ | ⟨e, herror⟩
      · simp only [hok]
        obtain ⟨hagrees, hkept⟩ := ih (h.advance hstep)
        rw [List.append_assoc] at hagrees
        exact ⟨hagrees, (h.keptBy hstep).trans hkept⟩
      · simp only [herror]
        exact ih h

/-- Calls that are made one after another, whether they succeed or fail, give the numbers `0`, `1`,
`2` and so on to different values that have types. No later call changes a value or its type, a
call that fails changes nothing, and the instructions that are no arguments are one for each node
that was lowered and one more for each lookup. -/
theorem agrees_ofCalls (options : Options) (calls : List Call) :
    let s := ofCalls options calls
    let done := (start options).log calls
    s.Agrees done ∧ (∀ more : List Call, s.KeptBy (more.foldl call s)) ∧
      (∀ (c : Call) (e : LowerError) (s' : Session), c.perform s = .error e s' → s' = s) ∧
      s.progress.routine.arguments.length ≤ s.progress.routine.size ∧
      s.bodySize = done.countP (·.1.isLower) + done.countP (·.1.isLookup) := by
  intro s done
  have hagrees : s.Agrees done := ((Agrees.start options).foldl_call calls).1
  have hsize := hagrees.size_eq
  refine ⟨hagrees, fun more => (hagrees.foldl_call more).2, ?_, ?_, ?_⟩
  · intro c e s' h
    rcases cases_perform c hagrees.find?_next with ⟨v, s'', hok, -⟩ | ⟨e', herror⟩
    · rw [hok] at h
      cases h
    · rw [herror] at h
      cases h
      rfl
  · omega
  · rw [bodySize, hsize, Nat.add_sub_cancel_left]

/-- The node that is refused takes no number: the table behind it is node `1`. -/
theorem agrees_ofCalls_lookupBehindRefusal :
    let lookup := Node.lookup ⟨[0, 1], by decide⟩ (.encryptedUnsigned 1) (.encryptedUnsigned 1)
    let calls := [.argument (.encryptedUnsigned 1), .lower lookup [5], .lower lookup [0]]
    let s := ofCalls {} calls
    ((start {}).log calls).map Prod.snd = [0, 1] ∧ s.bodySize = 2 ∧ s.progress.registry.size = 2 ∧
      (Call.lower lookup [5]).perform s = .error (.missingOperand 5) s := by
  intro lookup calls s
  obtain ⟨hagrees, -, hrefused, -, hsize⟩ := agrees_ofCalls {} calls
  have hnumbers : ((start {}).log calls).map Prod.snd = [0, 1] := by decide
  refine ⟨hnumbers, hsize, hagrees.registrySize_eq, ?_⟩
  cases h : (Call.lower lookup [5]).perform s with
  | ok n s' => cases h
  | error e s' =>
      rw [hrefused _ e s' h]
      cases h
      rfl

end Session

end CipherFlow
