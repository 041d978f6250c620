import CipherFlow.Network.Basic

/-!
# Walking a network forwards

The walk visits a node only after all of its predecessors. It keeps the nodes that are ready on a
stack, at first those without predecessors with the lowest index on top. A visit to a node puts on
the stack those of its successors whose predecessors are now all visited. Nodes on a cycle, and
those behind one, are never ready. Main statement: a walk with a visitor that may fail is the run of
the visitor over `order` (`walk_eq_forM`), so the order does not depend on the visitor.
-/

set_option autoImplicit false

namespace CipherFlow

structure Frontier where
  /-- The nodes to visit, the next one first. -/
  ready : List Nat
  /-- The nodes visited, the last one first. -/
  visited : List Nat
  deriving DecidableEq, Repr

namespace Network

variable {ν ω : Type}

def sources (g : Network ν ω) : List Nat :=
  g.nodes.indices.filter fun n => (g.predecessors n).isEmpty

def start (g : Network ν ω) : Frontier := ⟨g.sources, []⟩

/-- Puts a node on the stack if it is new and all its predecessors are visited. -/
def offer (g : Network ν ω) (visited ready : List Nat) (i : Nat) : List Nat :=
  if i ∉ ready ∧ i ∉ visited ∧ ∀ m ∈ g.predecessors i, m ∈ visited then i :: ready else ready

def step? (g : Network ν ω) (f : Frontier) : Option (Nat × Frontier) :=
  match f.ready with
  | [] => none
  | n :: rest =>
      -- The node counts as visited for its own successors.
      let visited := n :: f.visited
      some (n, ⟨(g.successors n).foldl (g.offer visited) rest, visited⟩)

def orderFrom (g : Network ν ω) : Nat → Frontier → List Nat
  | 0, _ => []
  | k + 1, f =>
    match g.step? f with
    | none => []
    | some (n, f') => n :: orderFrom g k f'

/-- The nodes in the order of a walk. No node is visited twice, so there are at most as many steps
as indices. -/
def order (g : Network ν ω) : List Nat := g.orderFrom g.nodes.slots.size g.start

def walkFrom {m : Type → Type} [Monad m] (g : Network ν ω) (visit : Nat → m Unit) :
    Nat → Frontier → m Unit
  | 0, _ => pure ()
  | k + 1, f =>
    match g.step? f with
    | none => pure ()
    | some (n, f') => do
        visit n
        walkFrom g visit k f'

def walk {m : Type → Type} [Monad m] (g : Network ν ω) (visit : Nat → m Unit) : m Unit :=
  g.walkFrom visit g.nodes.slots.size g.start

theorem walkFrom_eq_forM {m : Type → Type} [Monad m] [LawfulMonad m] (g : Network ν ω)
    (visit : Nat → m Unit) (k : Nat) (f : Frontier) :
    g.walkFrom visit k f = (g.orderFrom k f).forM visit := by
  induction k generalizing f with
  | zero => rfl
  | succ k ih =>
      unfold walkFrom orderFrom
      cases g.step? f with
      | none => rfl
      | some next => simp [ih]

/-- A walk runs the visitor over the nodes in order. -/
theorem walk_eq_forM {m : Type → Type} [Monad m] [LawfulMonad m] (g : Network ν ω)
    (visit : Nat → m Unit) : g.walk visit = g.order.forM visit :=
  g.walkFrom_eq_forM visit _ _

end Network

end CipherFlow
