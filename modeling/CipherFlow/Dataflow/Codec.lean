import CipherFlow.Dataflow.Basic
import CipherFlow.Dataflow.NodeCodec
import CipherFlow.Json.Writer
import CipherFlow.Json.Reader

/-!
# Dataflow graphs in the interchange format

A graph is written as the nodes that are present, the vacant indices below the last of them, and all
link slots up to the last link, with `null` for vacant ones. When it is read, the vacant indices say
where the nodes go. Vacant indices behind the last node or link are not written, so they are lost.
-/

set_option autoImplicit false

namespace CipherFlow

/-! ## Pools -/

namespace Pool

variable {α : Type}

/-- The index behind the last item. -/
def extent (p : Pool α) : Nat := (p.indices.getLast?.map (· + 1)).getD 0

def items (p : Pool α) : List α := p.indices.filterMap p.get?

/-- The vacant indices below the last item, in increasing order. -/
def holes (p : Pool α) : List Nat := (List.range p.extent).filter fun i => !p.contains i

def prefixSlots (p : Pool α) : List (Option α) := (List.range p.extent).map p.get?

/-- Puts items into slots from index `start` on and leaves the holes empty. The holes must increase
and lie below `total`. -/
def spread? (total : Nat) : (start : Nat) → (holes : List Nat) → List α → Option (List (Option α))
  | _, [], items => some (items.map some)
  | start, hole :: holes, items =>
      -- The items fill the indices up to the hole.
      if start ≤ hole ∧ hole < total then do
        let slots ← spread? total (hole + 1) holes (items.drop (hole - start))
        return (items.take (hole - start)).map some ++ none :: slots
      else
        none

end Pool

/-! ## Links -/

def Link.toJson (l : Link Nat) : Json :=
  .array [.natural l.source, .natural l.target, .natural l.weight]

def nodeOfJson? : Json → Option Nat := Json.below? UInt32.size

def Link.ofJson? : Json → Option (Link Nat)
  | .array [source, target, weight] => do
      return ⟨← nodeOfJson? source, ← nodeOfJson? target, ← weight.below? UInt64.size⟩
  | _ => none

def Link.slotToJson : Option (Link Nat) → Json
  | some l => l.toJson
  | none => .null

def Link.slotOfJson? : Json → Option (Option (Link Nat))
  | .null => some none
  | json => some <$> Link.ofJson? json

/-! ## Graphs -/

def Network.toJson (g : Network Node Nat) : Json :=
  .record
    [("nodes", .ofList Node.toJson g.nodes.items), ("node_holes", .ofList .natural g.nodes.holes),
      ("edge_property", .text "directed"), ("edges", .ofList Link.slotToJson g.links.prefixSlots)]

def isDirected (json : Json) : Bool :=
  match json.variant? with
  | some ("directed", payload) => Json.isUnit payload
  | _ => false

/-- The network that a record stands for. The holes may be left out. -/
def Network.ofJson? (json : Json) : Option (Network Node Nat) :=
  match json.fields? ["nodes", "node_holes", "edge_property", "edges"] with
  | some [some nodes, holes, some direction, some links] => do
      let nodes ← nodes.list? Node.ofJson?
      let holes ← match holes with
        | none => some []
        | some holes => holes.list? nodeOfJson?
      let links ← links.list? Link.slotOfJson?
      if !isDirected direction then none
      let slots ← Pool.spread? (nodes.length + holes.length) 0 holes nodes
      Network.ofSlots? slots.toArray links.toArray
  | _ => none

namespace Dataflow

def toJson (g : Dataflow) : Json :=
  .record [("graph", g.network.toJson), ("inputs", .ofList .natural g.inputs),
    ("outputs", .ofList .natural g.outputs)]

/-- The dataflow graph that a record stands for. The inputs and outputs need not be nodes. -/
def ofJson? (json : Json) : Option Dataflow :=
  match json.record? ["graph", "inputs", "outputs"] with
  | some [network, inputs, outputs] => do
      return ⟨← Network.ofJson? network, ← inputs.list? nodeOfJson?, ← outputs.list? nodeOfJson?⟩
  | _ => none

def write (g : Dataflow) : String := g.toJson.compress

def read? (text : String) : Option Dataflow := (Json.parse text).bind ofJson?

end Dataflow

end CipherFlow
