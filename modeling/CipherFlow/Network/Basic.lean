import CipherFlow.Network.Pool

/-!
# Networks

A network is a directed graph with items on its nodes and weights on its links. Nodes and links keep
their indices, and two nodes may have several links. Neighbours are listed by the links that reach
them, the link added last first; `recent` records that order.
-/

set_option autoImplicit false

namespace CipherFlow

structure Link (ω : Type) where
  source : Nat
  target : Nat
  weight : ω
  deriving DecidableEq, Repr

/-- Nodes with items, and links between nodes that are present. -/
@[ext]
structure Network (ν ω : Type) where
  nodes : Pool ν
  links : Pool (Link ω)
  /-- The indices of the links, the one added last first. -/
  recent : List Nat
  nodup_recent : recent.Nodup
  mem_recent : ∀ e, e ∈ recent ↔ links.contains e = true
  ends_present : ∀ e l, links.get? e = some l →
    nodes.contains l.source = true ∧ nodes.contains l.target = true

/-! ## Lemmas on pools in terms of presence -/

theorem Pool.contains_add {α : Type} (p : Pool α) (a : α) (i : Nat) :
    (p.add a).contains i = (decide (i = p.next) || p.contains i) := by
  unfold Pool.contains
  rw [Pool.get?_add]
  split <;> simp_all

theorem Pool.contains_remove {α : Type} (p : Pool α) (i j : Nat) :
    (p.remove i).contains j = (decide (i ≠ j) && p.contains j) := by
  unfold Pool.contains
  rw [Pool.get?_remove]
  split <;> simp_all

namespace Network

variable {ν ω : Type}

instance [DecidableEq ν] [DecidableEq ω] : DecidableEq (Network ν ω) :=
  fun _ _ => decidable_of_iff' _ Network.ext_iff

def empty : Network ν ω where
  nodes := .empty
  links := .empty
  recent := []
  nodup_recent := List.nodup_nil
  mem_recent := by simp [Pool.contains, Pool.get?, Pool.empty]
  ends_present := by simp [Pool.get?, Pool.empty]

/-! ## Views -/

def node? (g : Network ν ω) (n : Nat) : Option ν := g.nodes.get? n

def hasNode (g : Network ν ω) (n : Nat) : Bool := g.nodes.contains n

def linkList (g : Network ν ω) : List (Link ω) := g.recent.filterMap g.links.get?

def linksFrom (g : Network ν ω) (n : Nat) : List (Link ω) :=
  g.linkList.filter fun l => l.source == n

def linksInto (g : Network ν ω) (n : Nat) : List (Link ω) :=
  g.linkList.filter fun l => l.target == n

/-- The nodes that a node has links to, once for each link. -/
def successors (g : Network ν ω) (n : Nat) : List Nat := (g.linksFrom n).map (·.target)

def predecessors (g : Network ν ω) (n : Nat) : List Nat := (g.linksInto n).map (·.source)

theorem mem_linkList {g : Network ν ω} {l : Link ω} :
    l ∈ g.linkList ↔ ∃ e, g.links.get? e = some l := by
  unfold linkList
  rw [List.mem_filterMap]
  constructor
  · rintro ⟨e, -, he⟩
    exact ⟨e, he⟩
  · rintro ⟨e, he⟩
    exact ⟨e, (g.mem_recent e).2 (Pool.contains_iff.2 ⟨l, he⟩), he⟩

theorem mem_successors {g : Network ν ω} {n m : Nat} :
    m ∈ g.successors n ↔ ∃ l ∈ g.linkList, l.source = n ∧ l.target = m := by
  simp [successors, linksFrom, and_assoc]

theorem mem_predecessors {g : Network ν ω} {n m : Nat} :
    m ∈ g.predecessors n ↔ ∃ l ∈ g.linkList, l.target = n ∧ l.source = m := by
  simp [predecessors, linksInto, and_assoc]

theorem mem_predecessors_iff_mem_successors {g : Network ν ω} {n m : Nat} :
    m ∈ g.predecessors n ↔ n ∈ g.successors m := by
  rw [mem_predecessors, mem_successors]
  simp only [and_comm]

theorem hasNode_of_mem_successors {g : Network ν ω} {n m : Nat} (h : m ∈ g.successors n) :
    g.hasNode n = true ∧ g.hasNode m = true := by
  obtain ⟨l, hl, rfl, rfl⟩ := mem_successors.1 h
  obtain ⟨e, he⟩ := mem_linkList.1 hl
  exact g.ends_present e l he

/-! ## Adding and replacing -/

def addNode (g : Network ν ω) (a : ν) : Network ν ω :=
  { g with
    nodes := g.nodes.add a
    ends_present := by
      intro e l h
      obtain ⟨hs, ht⟩ := g.ends_present e l h
      simp [Pool.contains_add, hs, ht] }

def setNode (g : Network ν ω) (n : Nat) (a : ν) : Network ν ω :=
  { g with
    nodes := g.nodes.set n a
    ends_present := by
      intro e l h
      simpa only [Pool.contains_set] using g.ends_present e l h }

/-- The network with one more link, under the index `links.next`. A link that lacks an end is not
added. -/
def addLink (g : Network ν ω) (l : Link ω) : Network ν ω :=
  if h : g.hasNode l.source = true ∧ g.hasNode l.target = true then
    { g with
      links := g.links.add l
      recent := g.links.next :: g.recent
      nodup_recent := by
        refine List.nodup_cons.2 ⟨fun hn => ?_, g.nodup_recent⟩
        rw [g.mem_recent, Pool.contains, g.links.get?_next] at hn
        simp at hn
      mem_recent := by
        intro e
        rw [List.mem_cons, g.mem_recent, Pool.contains_add]
        simp
      ends_present := by
        intro e m hm
        rw [Pool.get?_add] at hm
        split at hm
        · cases hm
          exact h
        · exact g.ends_present e m hm }
  else
    g

/-! ## Removing -/

def removeLink (g : Network ν ω) (e : Nat) : Network ν ω :=
  { g with
    links := g.links.remove e
    recent := g.recent.filter (· != e)
    nodup_recent := g.nodup_recent.filter _
    mem_recent := by
      intro i
      rw [List.mem_filter, g.mem_recent, Pool.contains_remove]
      simp only [bne_iff_ne, Bool.and_eq_true, decide_eq_true_eq]
      exact ⟨fun h => ⟨h.2.symm, h.1⟩, fun h => ⟨h.2, h.1.symm⟩⟩
    ends_present := by
      intro i l h
      rw [Pool.get?_remove] at h
      split at h
      · simp at h
      · exact g.ends_present i l h }

def removeLinks (g : Network ν ω) (es : List Nat) : Network ν ω := es.foldl removeLink g

theorem get?_links_removeLinks (g : Network ν ω) (es : List Nat) (e : Nat) :
    (g.removeLinks es).links.get? e = if e ∈ es then none else g.links.get? e := by
  induction es generalizing g with
  | nil => simp [removeLinks]
  | cons i es ih =>
      have := ih (g.removeLink i)
      simp only [removeLinks, List.foldl_cons] at this ⊢
      rw [this, removeLink, Pool.get?_remove]
      by_cases h : i = e
      · simp [h]
      · simp [h, Ne.symm h]

@[simp] theorem nodes_removeLinks (g : Network ν ω) (es : List Nat) :
    (g.removeLinks es).nodes = g.nodes := by
  induction es generalizing g with
  | nil => rfl
  | cons i es ih => exact ih (g.removeLink i)

def linksWhere (g : Network ν ω) (p : Link ω → Bool) : List Nat :=
  g.recent.filter fun e => (g.links.get? e).any p

theorem mem_linksWhere {g : Network ν ω} {p : Link ω → Bool} {e : Nat} {l : Link ω}
    (h : g.links.get? e = some l) : e ∈ g.linksWhere p ↔ p l = true := by
  rw [linksWhere, List.mem_filter, g.mem_recent, Pool.contains, h]
  simp

/-- The network without the links out of a node, and then without those into it. -/
def isolate (g : Network ν ω) (n : Nat) : Network ν ω :=
  -- The order matters: it decides which vacant index is reused first.
  let g' := g.removeLinks (g.linksWhere fun l => l.source == n)
  g'.removeLinks (g'.linksWhere fun l => l.target == n)

theorem get?_links_isolate {g : Network ν ω} {n e : Nat} {l : Link ω}
    (h : (g.isolate n).links.get? e = some l) :
    g.links.get? e = some l ∧ l.source ≠ n ∧ l.target ≠ n := by
  unfold isolate at h
  rw [get?_links_removeLinks] at h
  split at h
  · simp at h
  · next h₂ =>
      rw [mem_linksWhere h] at h₂
      rw [get?_links_removeLinks] at h
      split at h
      · simp at h
      · next h₁ =>
          rw [mem_linksWhere h] at h₁
          exact ⟨h, by simpa using h₁, by simpa using h₂⟩

def removeNode (g : Network ν ω) (n : Nat) : Network ν ω :=
  { g.isolate n with
    nodes := g.nodes.remove n
    ends_present := by
      intro e l h
      obtain ⟨hl, hs, ht⟩ := get?_links_isolate h
      obtain ⟨ps, pt⟩ := g.ends_present e l hl
      simp [Pool.contains_remove, ps, pt, Ne.symm hs, Ne.symm ht] }

/-! ## A network of given slots -/

/-- The network with the given nodes and links, if each link joins two of the nodes. The links count
as added in the order of their indices. -/
def ofSlots? (nodes : Array (Option ν)) (links : Array (Option (Link ω))) :
    Option (Network ν ω) :=
  let pool := Pool.ofSlots nodes
  if h : ∀ l ∈ links.toList.filterMap id,
      pool.contains l.source = true ∧ pool.contains l.target = true then
    some
      { nodes := pool
        links := .ofSlots links
        recent := (Pool.ofSlots links).indices.reverse
        nodup_recent := List.pairwise_reverse.2
          ((List.nodup_range.filter _).imp fun h => h.symm)
        mem_recent := by simp [Pool.mem_indices]
        ends_present := by
          intro e l hl
          rw [Pool.get?_ofSlots, Option.join_eq_some_iff] at hl
          refine h l (List.mem_filterMap.2 ⟨some l, ?_, rfl⟩)
          exact Array.mem_toList_iff.2 (Array.mem_of_getElem? hl) }
  else
    none

end Network

end CipherFlow
