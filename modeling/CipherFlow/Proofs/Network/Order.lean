import CipherFlow.Network.Walk
import Mathlib.Data.List.Nodup
import Mathlib.Data.List.Perm.Subperm

/-!
# The order of a walk

The invariant of a walk is `Frontier.Sound`: nothing is both ready and visited, and what is ready or
visited is exactly what has all of its predecessors visited. Main statements: a walk visits no node
twice (`nodup_order`), visits a node only after its predecessors (`mem_before_of_order_eq`), and
visits exactly the nodes from which no way back is endless (`mem_order_iff`).
-/

set_option autoImplicit false

namespace CipherFlow

theorem Pool.nodup_indices {α : Type} (p : Pool α) : p.indices.Nodup :=
  List.nodup_range.filter _

namespace Network

variable {ν ω : Type} {g : Network ν ω}

theorem mem_indices_iff_hasNode {n : Nat} : n ∈ g.nodes.indices ↔ g.hasNode n = true :=
  Pool.mem_indices

/-- Each node of a list of visited nodes, the last one first, comes after its predecessors. -/
def Supplied (g : Network ν ω) : List Nat → Prop
  | [] => True
  | n :: earlier => (∀ m ∈ g.predecessors n, m ∈ earlier) ∧ g.Supplied earlier

/-- No way back from the node is endless: it is neither on a cycle nor behind one. -/
def Grounded (g : Network ν ω) (n : Nat) : Prop := Acc (fun m n => m ∈ g.predecessors n) n

/-- The nodes before a node in a supplied list are all it needs. -/
theorem Supplied.mem_of_append {earlier later : List Nat} {n : Nat}
    (h : g.Supplied (later ++ n :: earlier)) : ∀ m ∈ g.predecessors n, m ∈ earlier := by
  induction later with
  | nil => exact h.1
  | cons k later ih => exact ih h.2

theorem Supplied.grounded {visited : List Nat} (h : g.Supplied visited) :
    ∀ n ∈ visited, g.Grounded n := by
  induction visited with
  | nil => simp
  | cons k earlier ih =>
      intro n hn
      rcases List.mem_cons.1 hn with rfl | hn
      · exact Acc.intro _ fun m hm => ih h.2 m (h.1 m hm)
      · exact ih h.2 n hn

/-! ## What a round of offers puts on the stack -/

theorem mem_foldl_offer (visited : List Nat) (candidates ready : List Nat) (i : Nat) :
    i ∈ candidates.foldl (g.offer visited) ready ↔
      i ∈ ready ∨ (i ∈ candidates ∧ i ∉ visited ∧ ∀ m ∈ g.predecessors i, m ∈ visited) := by
  induction candidates generalizing ready with
  | nil => simp
  | cons c candidates ih =>
      rw [List.foldl_cons, ih]
      unfold offer
      by_cases hc : c ∉ ready ∧ c ∉ visited ∧ ∀ m ∈ g.predecessors c, m ∈ visited
      · rw [if_pos hc, List.mem_cons, List.mem_cons]
        constructor
        · rintro ((rfl | hi) | ⟨hi, h⟩)
          · exact Or.inr ⟨Or.inl rfl, hc.2⟩
          · exact Or.inl hi
          · exact Or.inr ⟨Or.inr hi, h⟩
        · rintro (hi | ⟨rfl | hi, h⟩)
          · exact Or.inl (Or.inr hi)
          · exact Or.inl (Or.inl rfl)
          · exact Or.inr ⟨hi, h⟩
      · rw [if_neg hc, List.mem_cons]
        constructor
        · rintro (hi | ⟨hi, h⟩)
          · exact Or.inl hi
          · exact Or.inr ⟨Or.inr hi, h⟩
        · rintro (hi | ⟨rfl | hi, h⟩)
          · exact Or.inl hi
          · -- The candidate was refused although it is supplied, so it was on the stack before.
            by_contra hn
            exact hc ⟨fun hr => hn (Or.inl hr), h⟩
          · exact Or.inr ⟨hi, h⟩

theorem nodup_foldl_offer {visited : List Nat} (candidates : List Nat) {ready : List Nat}
    (h : (ready ++ visited).Nodup) :
    (candidates.foldl (g.offer visited) ready ++ visited).Nodup := by
  induction candidates generalizing ready with
  | nil => exact h
  | cons c candidates ih =>
      rw [List.foldl_cons]
      apply ih
      unfold offer
      split
      · next hc =>
          rw [List.cons_append, List.nodup_cons]
          refine ⟨fun hm => ?_, h⟩
          rcases List.mem_append.1 hm with hm | hm
          · exact hc.1 hm
          · exact hc.2.1 hm
      · exact h

/-! ## The invariant of a walk -/

/-- What holds wherever a walk has come. -/
structure Sound (g : Network ν ω) (f : Frontier) : Prop where
  nodup : (f.ready ++ f.visited).Nodup
  present : ∀ n ∈ f.ready ++ f.visited, g.hasNode n = true
  ready_supplied : ∀ n ∈ f.ready, ∀ m ∈ g.predecessors n, m ∈ f.visited
  supplied : g.Supplied f.visited
  /-- A node whose predecessors are all visited is not forgotten. -/
  complete : ∀ n, g.hasNode n = true → (∀ m ∈ g.predecessors n, m ∈ f.visited) →
    n ∈ f.ready ++ f.visited

theorem sound_start (g : Network ν ω) : g.Sound g.start := by
  have mem_sources {n : Nat} : n ∈ g.sources ↔ g.hasNode n = true ∧ g.predecessors n = [] := by
    simp [sources, mem_indices_iff_hasNode]
  constructor
  · simpa [start] using (show g.sources.Nodup from g.nodes.nodup_indices.filter _)
  · intro n hn
    exact (mem_sources.1 (by simpa [start] using hn)).1
  · intro n hn m hm
    rw [(mem_sources.1 hn).2] at hm
    simp at hm
  · trivial
  · intro n hn hs
    have : g.predecessors n = [] := List.eq_nil_iff_forall_not_mem.2 fun m hm => by
      simpa [start] using hs m hm
    simpa [start] using mem_sources.2 ⟨hn, this⟩

theorem Sound.step {f f' : Frontier} {n : Nat} (hf : g.Sound f) (h : g.step? f = some (n, f')) :
    g.Sound f' ∧ f'.visited = n :: f.visited := by
  obtain ⟨ready, visited⟩ := f
  cases ready with
  | nil => simp [step?] at h
  | cons k rest =>
      simp only [step?, Option.some.injEq, Prod.mk.injEq] at h
      obtain ⟨rfl, rfl⟩ := h
      refine ⟨⟨?_, ?_, ?_, ?_, ?_⟩, rfl⟩
      · apply nodup_foldl_offer
        exact List.perm_middle.nodup_iff.2 hf.nodup
      · intro i hi
        rcases List.mem_append.1 hi with hi | hi
        · rcases (mem_foldl_offer _ _ _ _).1 hi with hi | ⟨hi, -⟩
          · exact hf.present i (by simp [hi])
          · exact (hasNode_of_mem_successors hi).2
        · rcases List.mem_cons.1 hi with rfl | hi
          · exact hf.present _ (by simp)
          · exact hf.present i (by simp [hi])
      · intro i hi m hm
        rcases (mem_foldl_offer _ _ _ _).1 hi with hi | ⟨-, -, hs⟩
        · exact List.mem_cons_of_mem _ (hf.ready_supplied i (List.mem_cons_of_mem _ hi) m hm)
        · exact hs m hm
      · exact ⟨hf.ready_supplied k List.mem_cons_self, hf.supplied⟩
      · intro i hi hs
        rw [List.mem_append, mem_foldl_offer]
        by_cases hk : k ∈ g.predecessors i
        · -- The visit is to a predecessor, so the node is among those offered.
          by_cases hv : i ∈ k :: visited
          · exact Or.inr hv
          · exact Or.inl (Or.inr ⟨mem_predecessors_iff_mem_successors.1 hk, hv, hs⟩)
        · have := hf.complete i hi fun m hm =>
            (List.mem_cons.1 (hs m hm)).resolve_left fun hmk => hk (hmk ▸ hm)
          simp only [List.cons_append, List.mem_cons, List.mem_append] at this ⊢
          tauto

/-! ## The order -/

/-- After `k` steps of a walk either nothing is ready or `k` nodes are visited. -/
theorem Sound.exists_orderFrom {f : Frontier} (hf : g.Sound f) (k : Nat) :
    ∃ f', g.Sound f' ∧ f'.visited = (g.orderFrom k f).reverse ++ f.visited ∧
      (f'.ready = [] ∨ (g.orderFrom k f).length = k) := by
  induction k generalizing f with
  | zero => exact ⟨f, hf, rfl, Or.inr rfl⟩
  | succ k ih =>
      unfold orderFrom
      cases h : g.step? f with
      | none =>
          refine ⟨f, hf, rfl, Or.inl ?_⟩
          cases hr : f.ready with
          | nil => rfl
          | cons n rest => simp [step?, hr] at h
      | some next =>
          obtain ⟨n, f₁⟩ := next
          obtain ⟨hf₁, hv⟩ := hf.step h
          obtain ⟨f', hf', hv', hr⟩ := ih hf₁
          refine ⟨f', hf', ?_, ?_⟩
          · simp [hv', hv]
          · simpa using hr

theorem Sound.length_le {f : Frontier} (hf : g.Sound f) :
    f.ready.length + f.visited.length ≤ g.nodes.slots.size := by
  have hsub : f.ready ++ f.visited ⊆ g.nodes.indices := fun n hn =>
    mem_indices_iff_hasNode.2 (hf.present n hn)
  have hle : g.nodes.indices.length ≤ g.nodes.slots.size := by
    simpa [Pool.indices] using List.length_filter_le g.nodes.contains (List.range _)
  calc f.ready.length + f.visited.length
      = (f.ready ++ f.visited).length := List.length_append.symm
    _ ≤ g.nodes.indices.length := (hf.nodup.subperm hsub).length_le
    _ ≤ g.nodes.slots.size := hle

/-- The walk ends with nothing ready, because it cannot visit more nodes than there are indices. -/
theorem exists_sound_order (g : Network ν ω) :
    ∃ f, g.Sound f ∧ f.visited = g.order.reverse ∧ f.ready = [] := by
  obtain ⟨f, hf, hv, hr⟩ := g.sound_start.exists_orderFrom g.nodes.slots.size
  have hv : f.visited = g.order.reverse := by simpa [order, start] using hv
  refine ⟨f, hf, hv, ?_⟩
  rcases hr with hr | hk
  · exact hr
  · -- As many nodes are visited as there are indices, so none is left to be ready.
    have hlen := hf.length_le
    have : f.visited.length = g.nodes.slots.size := by rw [hv, List.length_reverse, order, hk]
    exact List.length_eq_zero_iff.1 (by omega)

/-- No node is visited twice. -/
theorem nodup_order (g : Network ν ω) : g.order.Nodup := by
  obtain ⟨f, hf, hv, hr⟩ := g.exists_sound_order
  have := hf.nodup
  rwa [hr, hv, List.nil_append, List.nodup_reverse] at this

/-- A node is visited after all of its predecessors. -/
theorem mem_before_of_order_eq {before after : List Nat} {n : Nat}
    (h : g.order = before ++ n :: after) : ∀ m ∈ g.predecessors n, m ∈ before := by
  obtain ⟨f, hf, hv, -⟩ := g.exists_sound_order
  have hs := hf.supplied
  rw [hv, h, List.reverse_append, List.reverse_cons, List.append_assoc] at hs
  intro m hm
  exact List.mem_reverse.1 (Supplied.mem_of_append hs m hm)

/-- The nodes that a walk visits are those from which no way back is endless. -/
theorem mem_order_iff {n : Nat} : n ∈ g.order ↔ g.hasNode n = true ∧ g.Grounded n := by
  obtain ⟨f, hf, hv, hr⟩ := g.exists_sound_order
  have hmem {k : Nat} : k ∈ g.order ↔ k ∈ f.visited := by rw [hv, List.mem_reverse]
  constructor
  · intro hn
    rw [hmem] at hn
    exact ⟨hf.present n (List.mem_append_right _ hn), hf.supplied.grounded n hn⟩
  · rintro ⟨hn, hg⟩
    rw [hmem]
    -- The induction is on the way back: a node is not forgotten once its predecessors are visited.
    induction hg with
    | intro n _ ih =>
        have := hf.complete n hn fun m hm =>
          ih m hm (hasNode_of_mem_successors (mem_predecessors_iff_mem_successors.1 hm)).1
        simpa [hr] using this

/-! ## Networks that are walked alike -/

/-- Two networks have nodes under the same indices and list the same successors. The links may be
others, and may have been added in another order. -/
structure SameShape (g g' : Network ν ω) : Prop where
  size_eq : g.nodes.slots.size = g'.nodes.slots.size
  hasNode_eq : ∀ n, g.hasNode n = g'.hasNode n
  successors_eq : ∀ n, g.successors n = g'.successors n

section SameShape

variable {g' : Network ν ω} (h : g.SameShape g')

include h

theorem SameShape.mem_predecessors_iff {m n : Nat} :
    m ∈ g.predecessors n ↔ m ∈ g'.predecessors n := by
  rw [mem_predecessors_iff_mem_successors, mem_predecessors_iff_mem_successors, h.successors_eq]

theorem SameShape.indices_eq : g.nodes.indices = g'.nodes.indices := by
  have hcontains : g.nodes.contains = g'.nodes.contains := funext h.hasNode_eq
  rw [Pool.indices, Pool.indices, h.size_eq, hcontains]

theorem SameShape.offer_eq : g.offer = g'.offer := by
  funext visited ready i
  simp only [offer, h.mem_predecessors_iff]

theorem SameShape.start_eq : g.start = g'.start := by
  have hempty (n : Nat) : (g.predecessors n).isEmpty = (g'.predecessors n).isEmpty := by
    rw [Bool.eq_iff_iff, List.isEmpty_iff, List.isEmpty_iff, List.eq_nil_iff_forall_not_mem,
      List.eq_nil_iff_forall_not_mem]
    simp only [h.mem_predecessors_iff]
  simp only [start, sources, h.indices_eq, hempty]

theorem SameShape.step?_eq (f : Frontier) : g.step? f = g'.step? f := by
  simp only [step?, h.successors_eq, h.offer_eq]

theorem SameShape.orderFrom_eq (k : Nat) (f : Frontier) : g.orderFrom k f = g'.orderFrom k f := by
  induction k generalizing f with
  | zero => rfl
  | succ k ih => simp only [orderFrom, h.step?_eq, ih]

/-- What the links carry, and which was added first, does not matter to the order. -/
theorem SameShape.order_eq : g.order = g'.order := by
  rw [order, order, h.size_eq, h.start_eq, h.orderFrom_eq]

end SameShape

end Network

end CipherFlow
