import CipherFlow.Literal.Error

/-!
# Nested lists of numbers

The values of a dense literal are written as lists in lists, the outermost dimension first.
`spellNested` writes values in row-major order in the form of a shape. Its strides are plain
products; machine words that wrap around give the same as long as these products are words.
`NestedList.read` reads any nested list, and `NestedList.flatten` gives its numbers in order if it
has exactly a given shape.
-/

set_option autoImplicit false

namespace CipherFlow

open Text

/-! ## Writing -/

/-- The first `n` rows of `stride` values each. -/
def rows {α : Type} (stride : Nat) : Nat → List α → List (List α)
  | 0, _ => []
  | n + 1, values => values.take stride :: rows stride n (values.drop stride)

@[simp] theorem length_rows {α : Type} (stride n : Nat) (values : List α) :
    (rows stride n values).length = n := by
  induction n generalizing values with
  | zero => rfl
  | succ n ih => simp [rows, ih]

/-- The rows hold the values in order, and nothing else. -/
theorem flatten_rows {α : Type} (stride n : Nat) (values : List α) :
    (rows stride n values).flatten = values.take (n * stride) := by
  induction n generalizing values with
  | zero => simp [rows]
  | succ n ih =>
      rw [rows, List.flatten_cons, ih, Nat.succ_mul, Nat.add_comm, List.take_add]

/-- The values in row-major order as a nested list of the shape. Where the shape has no dimension,
all the values are written next to each other. -/
def spellNested : Shape → List UInt64 → List Char
  | [], values => values.flatMap fun v => digits v.toNat
  | d :: rest, values =>
      bracketed ((rows (Shape.volume rest) d.toNat values).map (spellNested rest))

def nestedText (shape : Shape) (values : List UInt64) : Except LiteralError (List Char) := do
  let n ← shape.count
  if n = values.length then
    return spellNested shape values
  else
    throw (.malformed (.wrongShapeCount values.length shape))

/-! ## Reading -/

inductive NestedList
  | leaf (value : UInt64)
  | list (items : List NestedList)

mutual

def NestedList.read (s : List Char) : Except (Fault (List Char)) (NestedList × Rest s) :=
  match token? .openList s with
  | none => do
      let (value, r) ← number s
      return (.leaf value, r)
  | some r =>
    match token? .closeList r.1 with
    | some q => .ok (.list [], r.trans q)
    | none => do
        let (items, q) ← NestedList.readItems r.1
        return (.list items, r.trans q)
termination_by 2 * s.length
decreasing_by
  have := r.2
  omega

def NestedList.readItems (s : List Char) :
    Except (Fault (List Char)) (List NestedList × Rest s) := do
  let (item, r) ← NestedList.read s
  match token? .closeList r.1 with
  | some q => return ([item], r.trans q)
  | none =>
      let q ← requireToken .comma r.1
      let (items, t) ← NestedList.readItems q.1
      return (item :: items, (r.trans q).trans t)
termination_by 2 * s.length + 1
decreasing_by
  · omega
  · have := r.2
    have := q.2
    omega

end

/-- The numbers of a nested list in order, if it has exactly the shape. -/
def NestedList.flatten : Shape → NestedList → Except Misfit (List UInt64)
  | [], .leaf value => .ok [value]
  | [], .list _ => .error .listForScalar
  | _ :: rest, .leaf _ => .error (.scalarForList (rest.length + 1))
  | d :: rest, .list items =>
      if items.length = d.toNat then List.flatten <$> items.mapM (flatten rest)
      else .error (.wrongLength d items.length)

end CipherFlow
