import CipherFlow.Literal.Error
import Mathlib.Algebra.BigOperators.Group.List.Basic
import Mathlib.Data.List.Infix

/-!
# How many elements a shape has

The dimensions are multiplied from the left, so what counts is not whether the product of all of
them is small, but whether every product on the way is. A dimension of zero behind a large product
comes too late: the shape has no elements, and is refused for having too many. Main statement: but
for such a zero, a shape is counted as the product of its dimensions, in whatever order they stand,
and refused exactly if the product is too large (`Shape.counted_by_volume_iff`).
-/

set_option autoImplicit false

namespace CipherFlow.Shape

/-! ## Volumes -/

theorem volume_eq_prod (shape : Shape) : volume shape = (shape.map UInt64.toNat).prod := by
  induction shape with
  | nil => rfl
  | cons d rest ih => rw [volume, ih, List.map_cons, List.prod_cons]

theorem volume_append (before after : Shape) :
    volume (before ++ after) = volume before * volume after := by
  simp only [volume_eq_prod, List.map_append, List.prod_append]

/-- The order of the dimensions does not matter to the volume. -/
theorem volume_eq_of_perm {shape shape' : Shape} (h : shape.Perm shape') :
    volume shape = volume shape' := by
  rw [volume_eq_prod, volume_eq_prod, (h.map UInt64.toNat).prod_eq]

theorem volume_eq_zero_iff {shape : Shape} : volume shape = 0 ↔ 0 ∈ shape := by
  induction shape with
  | nil => simp [volume]
  | cons d rest ih =>
      have hd : d.toNat = 0 ↔ 0 = d := by
        rw [eq_comm (a := (0 : UInt64)), ← UInt64.toNat_inj]
        rfl
      rw [volume, Nat.mul_eq_zero, ih, hd, List.mem_cons]

/-- Without a dimension of zero, the product only grows. -/
theorem volume_le_of_isPrefix {before shape : Shape} (h : before <+: shape) (hzero : 0 ∉ shape) :
    volume before ≤ volume shape := by
  obtain ⟨after, rfl⟩ := h
  have hafter : 0 < volume after := by
    rw [Nat.pos_iff_ne_zero, Ne, volume_eq_zero_iff]
    exact fun h => hzero (List.mem_append_right _ h)
  rw [volume_append]
  exact Nat.le_mul_of_pos_right _ hafter

/-! ## Counting -/

/-- Every product of first dimensions is below `2 ^ 64`. -/
def Countable (shape : Shape) : Prop := ∀ before, before <+: shape → volume before < UInt64.size

instance (shape : Shape) : Decidable shape.Countable :=
  decidable_of_iff (∀ before ∈ shape.inits, volume before < UInt64.size)
    (forall_congr' fun before => by rw [List.mem_inits])

/-- From `n` on, the product goes on as long as it stays below `2 ^ 64`. -/
theorem multiply?_eq_some_iff {n m : Nat} {shape : Shape} (hn : n < UInt64.size) :
    multiply? n shape = some m ↔
      (∀ before, before <+: shape → n * volume before < UInt64.size) ∧ m = n * volume shape := by
  induction shape generalizing n with
  | nil =>
      rw [multiply?, volume, Nat.mul_one, Option.some.injEq, eq_comm]
      refine ⟨fun h => ⟨?_, h⟩, fun h => h.2⟩
      rintro before hbefore
      rw [List.prefix_nil.1 hbefore, volume, Nat.mul_one]
      exact hn
  | cons d rest ih =>
      have hcons (before : Shape) : n * volume (d :: before) = n * d.toNat * volume before := by
        rw [volume, Nat.mul_assoc]
      rw [multiply?, hcons rest]
      split
      · next hsmall =>
          rw [ih hsmall]
          refine and_congr_left fun _ => ⟨fun h before hbefore => ?_, fun h before hbefore => ?_⟩
          · rcases List.prefix_cons_iff.1 hbefore with rfl | ⟨t, rfl, ht⟩
            · rwa [volume, Nat.mul_one]
            · rw [hcons]
              exact h t ht
          · rw [← hcons]
            exact h _ (List.prefix_cons_iff.2 (Or.inr ⟨before, rfl, hbefore⟩))
      · next hlarge =>
          -- The product with the first dimension is already too large.
          refine iff_of_false (Option.some_ne_none m).symm fun h => hlarge ?_
          have hfirst := h.1 [d] (List.prefix_cons_iff.2 (Or.inr ⟨[], rfl, List.nil_prefix⟩))
          rwa [hcons, volume, Nat.mul_one] at hfirst

theorem count?_eq_some_iff {n : Nat} {shape : Shape} :
    count? shape = some n ↔ shape.Countable ∧ n = volume shape := by
  rw [count?, multiply?_eq_some_iff (by decide)]
  simp only [Nat.one_mul, Countable]

theorem Countable.of_volume_lt {shape : Shape} (hzero : 0 ∉ shape)
    (h : volume shape < UInt64.size) : shape.Countable :=
  fun _ hbefore => Nat.lt_of_le_of_lt (volume_le_of_isPrefix hbefore hzero) h

theorem Countable.volume_lt {shape : Shape} (h : shape.Countable) : volume shape < UInt64.size :=
  h shape List.prefix_rfl

theorem count_of_countable {shape : Shape} (h : shape.Countable) :
    shape.count = .ok shape.volume := by
  rw [count, count?_eq_some_iff.2 ⟨h, rfl⟩]

theorem count_of_not_countable {shape : Shape} (h : ¬ shape.Countable) :
    shape.count = .error (.malformed (.tooManyElements shape)) := by
  unfold count
  split
  · next n hn => exact absurd (count?_eq_some_iff.1 hn).1 h
  · rfl

/-- Without a dimension of zero, the order of the dimensions does not matter. -/
theorem toOption_count_of_perm {shape shape' : Shape} (hzero : 0 ∉ shape)
    (h : shape.Perm shape') : shape'.count.toOption = shape.count.toOption := by
  have hzero' : 0 ∉ shape' := fun hmem => hzero (h.mem_iff.2 hmem)
  have hvolume := volume_eq_of_perm h
  by_cases hlt : volume shape < UInt64.size
  · rw [count_of_countable (.of_volume_lt hzero hlt),
      count_of_countable (.of_volume_lt hzero' (hvolume ▸ hlt)), hvolume]
  · rw [count_of_not_countable fun hc => hlt hc.volume_lt,
      count_of_not_countable fun hc => hlt (hvolume ▸ hc.volume_lt)]
    rfl

/-- A shape is counted as the product of its dimensions if every product of first dimensions is
below `2 ^ 64`, and otherwise it has too many elements. That is the same as to ask for the product
of all dimensions, exactly if a dimension of zero does not come too late; and without one, the order
of the dimensions does not matter. -/
theorem counted_by_volume_iff (shape : Shape) :
    shape.count = (if shape.Countable then .ok shape.volume
        else .error (.malformed (.tooManyElements shape))) ∧
      (shape.count = (if shape.volume < UInt64.size then .ok shape.volume
          else .error (.malformed (.tooManyElements shape))) ↔ (0 ∈ shape → shape.Countable)) ∧
      (0 ∉ shape → ∀ shape' : Shape, shape.Perm shape' →
        shape'.count.toOption = shape.count.toOption) := by
  have hcount : shape.count = (if shape.Countable then .ok shape.volume
      else .error (.malformed (.tooManyElements shape))) := by
    split
    · next h => exact count_of_countable h
    · next h => exact count_of_not_countable h
  refine ⟨hcount, ?_, fun hzero _ => toOption_count_of_perm hzero⟩
  rw [hcount]
  by_cases hcountable : shape.Countable
  · simp [hcountable, hcountable.volume_lt]
  · rw [if_neg hcountable]
    by_cases hzero : 0 ∈ shape
    · -- The product of all dimensions is zero, and so not too large.
      have hvolume : shape.volume = 0 := volume_eq_zero_iff.2 hzero
      simp [hcountable, hzero, hvolume]
    · have hlarge : ¬ shape.volume < UInt64.size :=
        fun hlt => hcountable (.of_volume_lt hzero hlt)
      simp [hlarge, hzero]

/-- Two rows of three elements are counted like three rows of two. -/
theorem counted_by_volume_twoByThree :
    0 ∉ ([2, 3] : Shape) ∧ ([2, 3] : Shape).Perm [3, 2] ∧
      (Shape.count [3, 2]).toOption = (Shape.count [2, 3]).toOption := by
  have hzero : 0 ∉ ([2, 3] : Shape) := by decide
  have hperm : ([2, 3] : Shape).Perm [3, 2] := by decide
  exact ⟨hzero, hperm, (counted_by_volume_iff [2, 3]).2.2 hzero [3, 2] hperm⟩

/-- A shape without elements is refused for having too many, although it is counted in another
order. -/
theorem count_lateZero :
    Shape.volume [4294967296, 4294967296, 0] = 0 ∧
      Shape.count [4294967296, 4294967296, 0]
        = .error (.malformed (.tooManyElements [4294967296, 4294967296, 0])) ∧
      Shape.count [0, 4294967296, 4294967296] = .ok 0 := by
  decide

end CipherFlow.Shape
