import CipherFlow.Dataflow.Node
import CipherFlow.Ty.Codec

/-!
# Nodes in the interchange format

Descriptors, payloads, tables and nodes are records and variants of the interchange format. What is
written is read back (`Node.ofJson?_toJson` and the lemmas before it), if positions of inputs are
below `2 ^ 64`.
-/

set_option autoImplicit false

namespace CipherFlow

/-! ## Descriptors -/

def Element.toJson : Element → Json
  | integer w signed =>
      .variant "Integer" (.record [("bit_width", .natural w.toNat), ("is_signed", .bool signed)])
  | float w => .variant "Float" (.record [("bit_width", .natural w.toNat)])

def Element.ofJson? (json : Json) : Option Element :=
  match json.variant? with
  | some ("Integer", some fields) =>
    match fields.record? ["bit_width", "is_signed"] with
    | some [width, signed] => do return integer (← width.word32?) (← signed.bool?)
    | _ => none
  | some ("Float", some fields) =>
    match fields.record? ["bit_width"] with
    | some [width] => float <$> width.word32?
    | _ => none
  | _ => none

def Descriptor.toJson (d : Descriptor) : Json :=
  .record [("is_encrypted", .bool d.isEncrypted), ("shape", d.shape.toJson),
    ("dtype", d.element.toJson)]

def Descriptor.ofJson? (json : Json) : Option Descriptor :=
  match json.record? ["is_encrypted", "shape", "dtype"] with
  | some [isEncrypted, shape, element] => do
      return ⟨← isEncrypted.bool?, ← Shape.ofJson? shape, ← Element.ofJson? element⟩
  | _ => none

theorem Element.ofJson?_toJson (e : Element) : Element.ofJson? e.toJson = some e := by
  cases e with
  | integer w signed =>
      simp [toJson, ofJson?, Json.variant, Json.record, Json.variant?, Json.record?, Json.fields?,
        Json.member?]
  | float w =>
      simp [toJson, ofJson?, Json.variant, Json.record, Json.variant?, Json.record?, Json.fields?,
        Json.member?]

theorem Descriptor.ofJson?_toJson (d : Descriptor) : Descriptor.ofJson? d.toJson = some d := by
  simp [toJson, ofJson?, Json.record, Json.record?, Json.fields?, Json.member?,
    Shape.ofJson?_toJson, Element.ofJson?_toJson]

/-! ## Payloads and tables -/

def Int128.ofJson? (json : Json) : Option Int128 := json.int?.bind Int128.ofInt?

def Payload.toJson : Payload → Json
  | scalar value => .variant "Scalar" (.ofInt value.toInt)
  | tensor values => .variant "Tensor" (.ofList (fun v => .ofInt v.toInt) values)

def Payload.ofJson? (json : Json) : Option Payload :=
  match json.variant? with
  | some ("Scalar", some value) => scalar <$> Int128.ofJson? value
  | some ("Tensor", some values) => tensor <$> values.list? Int128.ofJson?
  | _ => none

theorem Int128.ofJson?_ofInt (n : Int128) : Int128.ofJson? (.ofInt n.toInt) = some n := by
  simp [ofJson?, ofInt?_eq_some_iff]

theorem Payload.ofJson?_toJson (p : Payload) : Payload.ofJson? p.toJson = some p := by
  cases p with
  | scalar v =>
      simp [toJson, ofJson?, Json.variant, Json.record, Json.variant?, Int128.ofJson?_ofInt]
  | tensor vs =>
      have := Json.list?_ofList fun v (_ : v ∈ vs) => Int128.ofJson?_ofInt v
      simp [toJson, ofJson?, Json.variant, Json.record, Json.variant?, this]

def Table.toJson (t : Table) : Json :=
  .record [("table", .ofList (fun v => .natural v.toNat) t.entries)]

def Table.ofJson? (json : Json) : Option Table :=
  match json.record? ["table"] with
  | some [entries] => (entries.list? Json.word64?).bind ofEntries?
  | _ => none

theorem Table.ofJson?_toJson (t : Table) : Table.ofJson? t.toJson = some t := by
  have := Json.list?_ofList fun v (_ : v ∈ t.entries) => Json.word64?_natural v
  simp [toJson, ofJson?, Json.record, Json.record?, Json.fields?, Json.member?, this,
    ofEntries?_entries]

/-! ## Nodes -/

def Tag.ofJson? (json : Json) : Option Tag := do
  let (name, payload) ← json.variant?
  if Json.isUnit payload then Tag.ofName? name else none

def NodeOp.toJson (op : NodeOp) : Json :=
  match op with
  | input name index =>
      .variant op.tag.name (.record [("name", .text name), ("index", .natural index)])
  | constant payload => .variant op.tag.name payload.toJson
  | lookup table => .variant op.tag.name table.toJson
  | add | sub | mul | dot => .text op.tag.name

def NodeOp.ofTag? : Tag → Option NodeOp
  | .add => some add
  | .sub => some sub
  | .mul => some mul
  | .dot => some dot
  | _ => none

def NodeOp.ofData? (tag : Tag) (data : Json) : Option NodeOp :=
  match tag with
  | .input =>
    match data.record? ["name", "index"] with
    | some [name, index] => do return input (← name.text?) (← index.below? UInt64.size)
    | _ => none
  | .constant => constant <$> Payload.ofJson? data
  | .lookup => lookup <$> Table.ofJson? data
  | _ => none

def NodeOp.ofJson? (json : Json) : Option NodeOp := do
  let (name, data) ← json.variant?
  let tag ← Tag.ofName? name
  match NodeOp.ofTag? tag, data with
  | some op, data => if Json.isUnit data then some op else none
  | none, some data => NodeOp.ofData? tag data
  | none, none => none

/-- An input is read back if its position is a word; nothing else in an operation can be too
large. -/
theorem NodeOp.ofJson?_toJson {op : NodeOp}
    (h : ∀ name index, op = input name index → index < UInt64.size) :
    NodeOp.ofJson? op.toJson = some op := by
  cases op with
  | input name index =>
      have hi := Json.below?_natural (h name index rfl)
      simp [toJson, ofJson?, Json.variant, Json.record, Json.variant?, tag, Tag.ofName?_name,
        ofTag?, ofData?, Json.record?, Json.fields?, Json.member?, hi]
  | constant payload =>
      simp [toJson, ofJson?, Json.variant, Json.record, Json.variant?, tag, Tag.ofName?_name,
        ofTag?, ofData?, Payload.ofJson?_toJson]
  | lookup table =>
      simp [toJson, ofJson?, Json.variant, Json.record, Json.variant?, tag, Tag.ofName?_name,
        ofTag?, ofData?, Table.ofJson?_toJson]
  | add | sub | mul | dot => rfl

def Node.toJson (node : Node) : Json :=
  .record [("kind", node.op.toJson), ("inputs", .ofList Descriptor.toJson node.inputs),
    ("outputs", .ofList Descriptor.toJson node.outputs)]

def Node.ofJson? (json : Json) : Option Node :=
  match json.record? ["kind", "inputs", "outputs"] with
  | some [op, inputs, outputs] => do
      return ⟨← NodeOp.ofJson? op, ← inputs.list? Descriptor.ofJson?,
        ← outputs.list? Descriptor.ofJson?⟩
  | _ => none

theorem Node.ofJson?_toJson {node : Node}
    (h : ∀ name index, node.op = .input name index → index < UInt64.size) :
    Node.ofJson? node.toJson = some node := by
  have hi := Json.list?_ofList fun d (_ : d ∈ node.inputs) => Descriptor.ofJson?_toJson d
  have ho := Json.list?_ofList fun d (_ : d ∈ node.outputs) => Descriptor.ofJson?_toJson d
  simp [toJson, ofJson?, Json.record, Json.record?, Json.fields?, Json.member?,
    NodeOp.ofJson?_toJson h, hi, ho]

end CipherFlow
