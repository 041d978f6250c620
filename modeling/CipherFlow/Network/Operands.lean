import CipherFlow.Network.Basic

/-!
# Operands as links

Where one item uses others, in an order and perhaps more than once, a link leads to it from each
operand, with the operand's position as its weight. Sorted by position, the links into an item give
its operands back, in whatever order the links are stored (`operandsAmong_eq_of_perm`).
-/

set_option autoImplicit false

namespace CipherFlow

/-- The links from operands to the item `n`, with positions from `position` on. -/
def operandLinks (n : Nat) : List Nat → (position : Nat) → List (Link Nat)
  | [], _ => []
  | operand :: rest, position => ⟨operand, n, position⟩ :: operandLinks n rest (position + 1)

/-- Whether the operand of one link comes before that of another: by position, and at the same
position by index. -/
def operandBefore (l m : Link Nat) : Bool :=
  l.weight < m.weight || (l.weight == m.weight && l.source ≤ m.source)

/-- The operands of the item `n`, as the links into it tell them. -/
def operandsAmong (links : List (Link Nat)) (n : Nat) : List Nat :=
  ((links.filter fun l => l.target == n).mergeSort operandBefore).map (·.source)

/-! ## The links from operands -/

variable {n position : Nat} {operands : List Nat}

theorem map_source_operandLinks (n : Nat) (operands : List Nat) (position : Nat) :
    (operandLinks n operands position).map (·.source) = operands := by
  induction operands generalizing position with
  | nil => rfl
  | cons operand rest ih => rw [operandLinks, List.map_cons, ih]

theorem mem_operandLinks {l : Link Nat} :
    l ∈ operandLinks n operands position ↔
      l.target = n ∧ ∃ k, l.weight = position + k ∧ operands[k]? = some l.source := by
  induction operands generalizing position with
  | nil => simp [operandLinks]
  | cons operand rest ih =>
      rw [operandLinks, List.mem_cons, ih]
      constructor
      · rintro (rfl | ⟨ht, k, hk, hrest⟩)
        · exact ⟨rfl, 0, rfl, rfl⟩
        · exact ⟨ht, k + 1, by omega, hrest⟩
      · rintro ⟨ht, k, hk, hoperand⟩
        cases k with
        | zero =>
            obtain ⟨s, t, w⟩ := l
            cases hk
            cases ht
            cases hoperand
            exact Or.inl rfl
        | succ k => exact Or.inr ⟨ht, k, by omega, hoperand⟩

theorem target_of_mem_operandLinks {l : Link Nat} (h : l ∈ operandLinks n operands position) :
    l.target = n :=
  (mem_operandLinks.1 h).1

theorem le_weight_of_mem_operandLinks {l : Link Nat} (h : l ∈ operandLinks n operands position) :
    position ≤ l.weight := by
  obtain ⟨-, k, hk, -⟩ := mem_operandLinks.1 h
  omega

theorem pairwise_operandLinks (n : Nat) (operands : List Nat) (position : Nat) :
    (operandLinks n operands position).Pairwise fun l m => l.weight < m.weight := by
  induction operands generalizing position with
  | nil => exact List.Pairwise.nil
  | cons operand rest ih =>
      exact List.Pairwise.cons (fun l hl => le_weight_of_mem_operandLinks hl) (ih (position + 1))

/-! ## Sorting by position -/

theorem operandBefore_iff {l m : Link Nat} :
    operandBefore l m = true ↔
      l.weight < m.weight ∨ (l.weight = m.weight ∧ l.source ≤ m.source) := by
  simp [operandBefore]

theorem operandBefore_trans (l m k : Link Nat) (hlm : operandBefore l m = true)
    (hmk : operandBefore m k = true) : operandBefore l k = true := by
  rw [operandBefore_iff] at *
  omega

theorem operandBefore_total (l m : Link Nat) : (operandBefore l m || operandBefore m l) = true := by
  rw [Bool.or_eq_true, operandBefore_iff, operandBefore_iff]
  omega

/-- The links into an item are sorted into the same order, in whatever order they are stored. -/
theorem operandsAmong_eq_of_perm {links links' : List (Link Nat)} (h : links.Perm links')
    (n : Nat) : operandsAmong links n = operandsAmong links' n := by
  have hinto := h.filter fun l => l.target == n
  have hsorted (links : List (Link Nat)) :
      (links.mergeSort operandBefore).Pairwise fun l m => operandBefore l m = true :=
    List.pairwise_mergeSort operandBefore_trans operandBefore_total links
  have hperm := (List.mergeSort_perm _ operandBefore).trans
    (hinto.trans (List.mergeSort_perm _ operandBefore).symm)
  refine congrArg (List.map (·.source)) (hperm.eq_of_pairwise ?_ (hsorted _) (hsorted _))
  -- No two links into one item compare as equal.
  rintro ⟨s, t, w⟩ ⟨s', t', w'⟩ hl hm hlm hml
  have ht := (List.mem_filter.1 (List.mem_mergeSort.1 hl)).2
  have ht' := (List.mem_filter.1 (List.mem_mergeSort.1 hm)).2
  rw [operandBefore_iff] at hlm hml
  rw [beq_iff_eq] at ht ht'
  simp only [Link.mk.injEq]
  simp only at ht ht' hlm hml
  omega

theorem mem_operandsAmong {links : List (Link Nat)} {m : Nat} :
    m ∈ operandsAmong links n ↔ ∃ l ∈ links, l.target = n ∧ l.source = m := by
  simp [operandsAmong, and_assoc]

theorem operandsAmong_eq_nil {links : List (Link Nat)} (h : ∀ l ∈ links, l.target ≠ n) :
    operandsAmong links n = [] := by
  have hnone : (links.filter fun l => l.target == n) = [] :=
    List.filter_eq_nil_iff.2 fun l hl => by simp [h l hl]
  rw [operandsAmong, hnone, List.mergeSort_nil, List.map_nil]

/-- With the links from its operands, a new item has these operands, and the others keep theirs. -/
theorem operandsAmong_append {links : List (Link Nat)} (hnew : ∀ l ∈ links, l.target ≠ n)
    (operands : List Nat) (m : Nat) :
    operandsAmong (links ++ operandLinks n operands 0) m
      = if m = n then operands else operandsAmong links m := by
  rw [operandsAmong, List.filter_append]
  split
  · next h =>
      subst h
      -- Only the new links lead to the new item, and they are in order already.
      have hold : (links.filter fun l => l.target == m) = [] :=
        List.filter_eq_nil_iff.2 fun l hl => by simp [hnew l hl]
      have hall : ((operandLinks m operands 0).filter fun l => l.target == m)
          = operandLinks m operands 0 :=
        List.filter_eq_self.2 fun l hl => by simp [target_of_mem_operandLinks hl]
      have hsorted : (operandLinks m operands 0).mergeSort operandBefore
          = operandLinks m operands 0 :=
        List.mergeSort_of_pairwise ((pairwise_operandLinks m operands 0).imp
          fun hlt => operandBefore_iff.2 (Or.inl hlt))
      rw [hold, hall, List.nil_append, hsorted, map_source_operandLinks]
  · next h =>
      have hnone : ((operandLinks n operands 0).filter fun l => l.target == m) = [] :=
        List.filter_eq_nil_iff.2 fun l hl => by simp [target_of_mem_operandLinks hl, Ne.symm h]
      rw [hnone, List.append_nil, operandsAmong]

end CipherFlow
