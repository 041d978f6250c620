/-!
# Pools

A pool keeps items under indices that stay the same while an item is there. An index that becomes
vacant is handed out again, the one vacated last before all others; only when none is vacant does
the pool grow. The view of a pool is `get?`, and each operation has its equation for it.
-/

set_option autoImplicit false

namespace CipherFlow

/-- Items under indices, with the vacated indices in the order in which they are reused. -/
@[ext]
structure Pool (α : Type) where
  slots : Array (Option α)
  /-- The vacant indices, the next to be reused first. -/
  vacant : List Nat
  nodup_vacant : vacant.Nodup
  mem_vacant : ∀ i, i ∈ vacant ↔ slots[i]? = some none

namespace Pool

variable {α : Type}

instance [DecidableEq α] : DecidableEq (Pool α) := fun _ _ => decidable_of_iff' _ Pool.ext_iff

def empty : Pool α where
  slots := #[]
  vacant := []
  nodup_vacant := List.nodup_nil
  mem_vacant := by simp

def get? (p : Pool α) (i : Nat) : Option α := p.slots[i]?.join

def contains (p : Pool α) (i : Nat) : Bool := (p.get? i).isSome

def indices (p : Pool α) : List Nat := (List.range p.slots.size).filter p.contains

def count (p : Pool α) : Nat := p.indices.length

def next (p : Pool α) : Nat := p.vacant.headD p.slots.size

/-! ## Facts about slots -/

theorem get?_eq_some_iff {p : Pool α} {i : Nat} {a : α} :
    p.get? i = some a ↔ p.slots[i]? = some (some a) := by
  simp [get?, Option.join_eq_some_iff]

theorem contains_iff {p : Pool α} {i : Nat} : p.contains i = true ↔ ∃ a, p.get? i = some a :=
  Option.isSome_iff_exists

theorem lt_size_of_get? {p : Pool α} {i : Nat} {a : α} (h : p.get? i = some a) :
    i < p.slots.size :=
  (Array.getElem?_eq_some_iff.1 (get?_eq_some_iff.1 h)).1

theorem mem_indices {p : Pool α} {i : Nat} : i ∈ p.indices ↔ p.contains i = true := by
  simp only [indices, List.mem_filter, List.mem_range, and_iff_right_iff_imp]
  intro h
  obtain ⟨a, ha⟩ := contains_iff.1 h
  exact lt_size_of_get? ha

theorem contains_or_mem_vacant {p : Pool α} {i : Nat} (h : i < p.slots.size) :
    p.contains i = true ∨ i ∈ p.vacant := by
  rw [p.mem_vacant]
  cases hs : p.slots[i] with
  | none => exact Or.inr (by simp [h, hs])
  | some a => exact Or.inl (contains_iff.2 ⟨a, get?_eq_some_iff.2 (by simp [h, hs])⟩)

theorem lt_size_of_mem_vacant {p : Pool α} {i : Nat} (h : i ∈ p.vacant) : i < p.slots.size :=
  (Array.getElem?_eq_some_iff.1 ((p.mem_vacant i).1 h)).1

theorem get?_next (p : Pool α) : p.get? p.next = none := by
  unfold next get?
  cases hv : p.vacant with
  | nil => simp
  | cons i rest =>
      have : p.slots[i]? = some none := (p.mem_vacant i).1 (by simp [hv])
      simp [this]

/-! ## Adding an item -/

def add (p : Pool α) (a : α) : Pool α :=
  match hv : p.vacant with
  | [] =>
      -- No index is vacant, so the pool grows.
      { slots := p.slots.push (some a)
        vacant := []
        nodup_vacant := List.nodup_nil
        mem_vacant := by
          intro i
          have := p.mem_vacant i
          rw [hv] at this
          simp only [List.not_mem_nil, false_iff] at this ⊢
          rw [Array.getElem?_push]
          split <;> simp_all }
  | j :: rest =>
      { slots := p.slots.setIfInBounds j (some a)
        vacant := rest
        nodup_vacant := by
          have := p.nodup_vacant
          rw [hv] at this
          exact (List.nodup_cons.1 this).2
        mem_vacant := by
          intro i
          have hi := p.mem_vacant i
          have hn := p.nodup_vacant
          rw [hv] at hi hn
          rw [Array.getElem?_setIfInBounds]
          by_cases hij : j = i
          · subst hij
            have := (List.nodup_cons.1 hn).1
            simp only [this, ↓reduceIte, false_iff]
            split <;> simp
          · rw [if_neg hij, ← hi, List.mem_cons]
            simp [Ne.symm hij] }

theorem get?_add (p : Pool α) (a : α) (i : Nat) :
    (p.add a).get? i = if i = p.next then some a else p.get? i := by
  unfold add next
  split
  · next hv =>
      simp only [get?, hv, List.headD_nil, Array.getElem?_push]
      split <;> simp_all
  · next j rest hv =>
      have hj : j < p.slots.size := p.lt_size_of_mem_vacant (by simp [hv])
      simp only [get?, hv, List.headD_cons, Array.getElem?_setIfInBounds, hj, ↓reduceIte]
      by_cases h : j = i
      · simp [h]
      · rw [if_neg h, if_neg (Ne.symm h)]

/-! ## Replacing an item -/

def set (p : Pool α) (i : Nat) (a : α) : Pool α :=
  if h : p.contains i = true then
    { slots := p.slots.setIfInBounds i (some a)
      vacant := p.vacant
      nodup_vacant := p.nodup_vacant
      mem_vacant := by
        intro j
        obtain ⟨b, hb⟩ := contains_iff.1 h
        rw [p.mem_vacant, Array.getElem?_setIfInBounds]
        by_cases hij : i = j
        · subst hij
          rw [get?_eq_some_iff.1 hb]
          simp [lt_size_of_get? hb]
        · rw [if_neg hij] }
  else
    p

theorem get?_set (p : Pool α) (i : Nat) (a : α) (j : Nat) :
    (p.set i a).get? j = if i = j ∧ p.contains i = true then some a else p.get? j := by
  unfold set
  split
  · next h =>
      obtain ⟨b, hb⟩ := contains_iff.1 h
      simp only [get?, Array.getElem?_setIfInBounds, lt_size_of_get? hb, ↓reduceIte, h, and_true]
      split <;> simp
  · next h => simp [h]

theorem contains_set (p : Pool α) (i : Nat) (a : α) (j : Nat) :
    (p.set i a).contains j = p.contains j := by
  unfold contains
  rw [get?_set]
  split
  · next h =>
      obtain ⟨rfl, hc⟩ := h
      exact hc.symm
  · rfl

/-! ## Removing an item -/

/-- The pool without the item under an index; the index is the next to be reused. -/
def remove (p : Pool α) (i : Nat) : Pool α :=
  if h : p.contains i = true then
    { slots := p.slots.setIfInBounds i none
      vacant := i :: p.vacant
      nodup_vacant := by
        refine List.nodup_cons.2 ⟨fun hi => ?_, p.nodup_vacant⟩
        obtain ⟨a, ha⟩ := contains_iff.1 h
        rw [p.mem_vacant, get?_eq_some_iff.1 ha] at hi
        simp at hi
      mem_vacant := by
        intro j
        obtain ⟨a, ha⟩ := contains_iff.1 h
        rw [List.mem_cons, p.mem_vacant, Array.getElem?_setIfInBounds]
        by_cases hij : i = j
        · subst hij
          simp [lt_size_of_get? ha]
        · simp [hij, Ne.symm hij] }
  else
    p

theorem get?_remove (p : Pool α) (i j : Nat) :
    (p.remove i).get? j = if i = j then none else p.get? j := by
  unfold remove
  split
  · next h =>
      simp only [get?, Array.getElem?_setIfInBounds]
      split
      · split <;> simp
      · rfl
  · next h =>
      split
      · next hij =>
          subst hij
          simpa [contains] using h
      · rfl

/-! ## A pool of given slots -/

/-- The pool with the given slots, whose vacant indices are reused from the highest down. -/
def ofSlots (slots : Array (Option α)) : Pool α where
  slots := slots
  vacant := ((List.range slots.size).filter fun i => slots[i]?.any Option.isNone).reverse
  nodup_vacant := by
    refine List.pairwise_reverse.2 ((List.nodup_range.filter _).imp fun h => ?_)
    exact h.symm
  mem_vacant := by
    intro i
    simp only [List.mem_reverse, List.mem_filter, List.mem_range, Option.any_eq_true,
      Option.isNone_iff_eq_none]
    constructor
    · rintro ⟨-, a, ha, rfl⟩
      exact ha
    · intro h
      exact ⟨(Array.getElem?_eq_some_iff.1 h).1, none, h, rfl⟩

theorem get?_ofSlots (slots : Array (Option α)) (i : Nat) :
    (ofSlots slots).get? i = slots[i]?.join := rfl

end Pool

end CipherFlow
