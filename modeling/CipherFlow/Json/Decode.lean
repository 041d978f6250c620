import CipherFlow.Json.Basic

/-!
# Decoding JSON

How numbers, texts, lists, records and variants are read off a JSON value. A record is an object
with a member for each field, and unknown members beside them, or an array of the fields in order.
A variant is an object with one member, or only its name if it has no payload.
-/

set_option autoImplicit false

namespace CipherFlow.Json

def bool? : Json → Option Bool
  | .bool b => some b
  | _ => none

def text? : Json → Option String
  | .string text => text
  | _ => none

/-- A natural number below a bound; `-0` is none. -/
def below? (bound : Nat) : Json → Option Nat
  | .integer false n => if n < bound then some n else none
  | _ => none

def word32? : Json → Option UInt32
  | .integer false n => if h : n < UInt32.size then some (.ofNatLT n h) else none
  | _ => none

def word64? : Json → Option UInt64
  | .integer false n => if h : n < UInt64.size then some (.ofNatLT n h) else none
  | _ => none

/-- An integer; `-0` is zero. -/
def int? : Json → Option Int
  | .integer negative n => some (if negative then -n else n)
  | _ => none

def list? {α : Type} (decode : Json → Option α) : Json → Option (List α)
  | .array items => items.mapM decode
  | _ => none

/-- The member with a key, if there is one; nothing at all if there are several. -/
def member? (members : List (String × Json)) (key : String) : Option (Option Json) :=
  match members.filter fun (k, _) => k == key with
  | [] => some none
  | [(_, value)] => some (some value)
  | _ => none

/-- The fields of a record, each with its value if it is there. An array may leave out fields at its
end, and whoever needs them refuses. All keys of an object must be texts. -/
def fields? (keys : List String) : Json → Option (List (Option Json))
  | .object members => do
      let members ← members.mapM fun (key, value) => key.map fun key => (key, value)
      keys.mapM (member? members)
  | .array items =>
      if items.length ≤ keys.length then
        some (items.map some ++ List.replicate (keys.length - items.length) none)
      else
        none
  | _ => none

def record? (keys : List String) (json : Json) : Option (List Json) := do
  (← json.fields? keys).mapM id

def variant? : Json → Option (String × Option Json)
  | .string (some name) => some (name, none)
  | .object [(some name, payload)] => some (name, some payload)
  | _ => none

/-- Whether a variant without payload is written with none, or with `null` for it. -/
def isUnit : Option Json → Bool
  | none => true
  | some .null => true
  | _ => false

/-! ## What is written is read -/

@[simp] theorem word32?_natural (w : UInt32) : word32? (natural w.toNat) = some w := by
  have : w.toNat < UInt32.size := w.toNat_lt
  simp [word32?, natural, this]

@[simp] theorem word64?_natural (w : UInt64) : word64? (natural w.toNat) = some w := by
  have : w.toNat < UInt64.size := w.toNat_lt
  simp [word64?, natural, this]

@[simp] theorem text?_text (s : String) : text? (text s) = some s := rfl

@[simp] theorem bool?_bool (b : Bool) : bool? (.bool b) = some b := rfl

theorem below?_natural {bound n : Nat} (h : n < bound) : below? bound (natural n) = some n := by
  simp [below?, natural, h]

@[simp] theorem int?_ofInt (n : Int) : int? (ofInt n) = some n := by
  simp only [int?, ofInt, Option.some.injEq, decide_eq_true_eq]
  split <;> omega

theorem list?_ofList {α : Type} {encode : α → Json} {decode : Json → Option α} {xs : List α}
    (h : ∀ x ∈ xs, decode (encode x) = some x) : list? decode (ofList encode xs) = some xs := by
  simp only [list?, ofList]
  induction xs with
  | nil => rfl
  | cons x xs ih =>
      have hx := h x List.mem_cons_self
      have hxs := ih fun y hy => h y (List.mem_cons_of_mem x hy)
      simp [List.mapM_cons, hx, hxs]

end CipherFlow.Json
