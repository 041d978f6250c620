import CipherFlow.Proofs.Literal.Building
import CipherFlow.Proofs.Ty.Count

/-!
# Row-major order

The number at an index of a nested list (`NestedList.numberAt?`) is the value at the index's offset,
where each position counts as many values as there are in one item (`Shape.offset`). That holds of
the nested list that is read from the text of values. Main statement: `nestedText_rowMajor`, which
also says that the text can be written with positions that are machine words and with a check of
each slice (`spellSlices?`).

Words that wrap around are what an optimized build has, and what the rest of the library goes by. A
build that stops at an overflow writes the same text, unless a product of last dimensions, taken
from the left, is too large on the way (`Overflow.exists_stride?_stops`).
-/

set_option autoImplicit false

namespace CipherFlow

open Text

/-! ## Offsets -/

namespace Shape

/-- An index of a shape has one position for each dimension, below that dimension. -/
def HasIndex (shape : Shape) (index : List Nat) : Prop :=
  List.Forall₂ (fun d i => i < d.toNat) shape index

/-- How many values stand before an index in row-major order. -/
def offset : Shape → List Nat → Nat
  | _ :: rest, i :: index => i * volume rest + offset rest index
  | _, _ => 0

theorem HasIndex.offset_lt {shape : Shape} {index : List Nat} (h : shape.HasIndex index) :
    shape.offset index < shape.volume := by
  induction h with
  | nil => exact Nat.one_pos
  | @cons d i rest index hi hindex ih =>
      calc i * volume rest + offset rest index
          < i * volume rest + volume rest := Nat.add_lt_add_left ih _
        _ = (i + 1) * volume rest := (Nat.succ_mul _ _).symm
        _ ≤ d.toNat * volume rest := Nat.mul_le_mul_right _ hi

end Shape

/-! ## Rows -/

section Rows

variable {α : Type} {stride n : Nat} {values : List α}

theorem getElem?_rows {i : Nat} (hi : i < n) :
    (rows stride n values)[i]? = some ((values.drop (i * stride)).take stride) := by
  induction n generalizing i values with
  | zero => exact absurd hi (Nat.not_lt_zero i)
  | succ n ih =>
      cases i with
      | zero => simp [rows]
      | succ i =>
          rw [rows, List.getElem?_cons_succ, ih (Nat.lt_of_succ_lt_succ hi), List.drop_drop,
            Nat.succ_mul, Nat.add_comm]

theorem rows_eq_map_range (stride n : Nat) (values : List α) :
    rows stride n values
      = (List.range n).map fun i => (values.drop (i * stride)).take stride := by
  apply List.ext_getElem?
  intro i
  by_cases hi : i < n
  · rw [getElem?_rows hi, List.getElem?_map, List.getElem?_range hi]
    rfl
  · rw [List.getElem?_eq_none (by simpa using hi), List.getElem?_eq_none (by simpa using hi)]

end Rows

/-! ## Entries -/

/-- The number at an index, which has one position for each list around the number. -/
def NestedList.numberAt? : List Nat → NestedList → Option UInt64
  | [], .leaf value => some value
  | i :: index, .list items => items[i]?.bind (numberAt? index)
  | [], .list _ => none
  | _ :: _, .leaf _ => none

/-- The number at an index is the value at its offset. -/
theorem NestedList.numberAt?_ofRows {shape : Shape} {values : List UInt64} {index : List Nat}
    (hlen : values.length = shape.volume) (h : shape.HasIndex index) :
    (ofRows shape values).numberAt? index = values[shape.offset index]? := by
  induction h generalizing values with
  | nil =>
      obtain ⟨v, rfl⟩ := List.length_eq_one_iff.1 hlen
      rfl
  | @cons d i rest index hi hindex ih =>
      let row := (values.drop (i * Shape.volume rest)).take (Shape.volume rest)
      have hrow : (rows (Shape.volume rest) d.toNat values)[i]? = some row := getElem?_rows hi
      have hlenrow : row.length = Shape.volume rest :=
        length_of_mem_rows hlen (List.mem_of_getElem? hrow)
      have hoffset : Shape.offset rest index < Shape.volume rest :=
        Shape.HasIndex.offset_lt hindex
      calc (ofRows (d :: rest) values).numberAt? (i :: index)
          = (ofRows rest row).numberAt? index := by
            rw [ofRows, numberAt?, List.getElem?_map, hrow]
            rfl
        _ = row[Shape.offset rest index]? := ih hlenrow
        _ = values[i * Shape.volume rest + Shape.offset rest index]? := by
            rw [List.getElem?_take_of_lt hoffset, List.getElem?_drop]

/-! ## Slices -/

/-- What multiplying words does when the product is too large for a word. -/
inductive Overflow
  | wraps
  | stops
  deriving DecidableEq, Repr

namespace Overflow

def multiply? : Overflow → UInt64 → UInt64 → Option UInt64
  | wraps, a, b => some (a * b)
  | stops, a, b => if a.toNat * b.toNat < UInt64.size then some (a * b) else none

/-- The product of the dimensions from the left. -/
def stride? : Overflow → Shape → Option UInt64
  | wraps, shape => some (shape.foldl (· * ·) 1)
  | stops, shape => shape.count?.map .ofNat

variable {overflow : Overflow} {shape : Shape}

theorem multiply?_eq_some {a b : UInt64} (h : a.toNat * b.toNat < UInt64.size) :
    overflow.multiply? a b = some (a * b) := by
  cases overflow with
  | wraps => rfl
  | stops => rw [multiply?, if_pos h]

theorem toNat_foldl_mul (a : UInt64) (shape : Shape) :
    (shape.foldl (· * ·) a).toNat = a.toNat * shape.volume % UInt64.size := by
  induction shape generalizing a with
  | nil => rw [List.foldl_nil, Shape.volume, Nat.mul_one, Nat.mod_eq_of_lt a.toNat_lt]
  | cons d rest ih =>
      rw [List.foldl_cons, ih, UInt64.toNat_mul, Nat.mod_mul_mod, Nat.mul_assoc, ← Shape.volume]

/-- In words that wrap around only the whole product has to be small, -/
theorem exists_stride?_wraps (h : shape.volume < UInt64.size) :
    ∃ stride, wraps.stride? shape = some stride ∧ stride.toNat = shape.volume := by
  refine ⟨_, rfl, ?_⟩
  rw [toNat_foldl_mul, UInt64.toNat_one, Nat.one_mul, Nat.mod_eq_of_lt h]

/-- and otherwise every product on the way. -/
theorem exists_stride?_stops (h : shape.Countable) :
    ∃ stride, stops.stride? shape = some stride ∧ stride.toNat = shape.volume := by
  refine ⟨.ofNat shape.volume, ?_, ?_⟩
  · rw [stride?, Shape.count?_eq_some_iff.2 ⟨h, rfl⟩, Option.map_some]
  · rw [UInt64.toNat_ofNat', Nat.mod_eq_of_lt h.volume_lt]

end Overflow

/-- The values between two positions, if there are so many. -/
def slice? {α : Type} (values : List α) (start stop : Nat) : Option (List α) :=
  if start ≤ stop ∧ stop ≤ values.length then some ((values.drop start).take (stop - start))
  else none

/-- The values of an item, from its start to the start of the next. -/
def item? (overflow : Overflow) (values : List UInt64) (stride : UInt64) (i : Nat) :
    Option (List UInt64) := do
  let start ← overflow.multiply? (.ofNat i) stride
  let stop ← overflow.multiply? (.ofNat (i + 1)) stride
  slice? values start.toNat stop.toNat

/-- The values as a nested list of the shape, written from slices between positions that are words.
A slice that does not lie within the values is refused. -/
def spellSlices? (overflow : Overflow) : Shape → List UInt64 → Option (List Char)
  | [], values => some (values.flatMap fun v => digits v.toNat)
  | d :: rest, values => do
      let stride ← overflow.stride? rest
      let items ← (List.range d.toNat).mapM fun i =>
        item? overflow values stride i >>= spellSlices? overflow rest
      return bracketed items

theorem slice?_eq_some {α : Type} {values : List α} {stride n i : Nat}
    (hlen : values.length = n * stride) (hi : i < n) :
    slice? values (i * stride) ((i + 1) * stride)
      = some ((values.drop (i * stride)).take stride) := by
  have hstart : i * stride ≤ (i + 1) * stride := Nat.mul_le_mul_right _ (Nat.le_succ i)
  have hstop : (i + 1) * stride ≤ values.length := hlen ▸ Nat.mul_le_mul_right _ hi
  have hwidth : (i + 1) * stride - i * stride = stride := by
    rw [Nat.succ_mul, Nat.add_sub_cancel_left]
  rw [slice?, if_pos ⟨hstart, hstop⟩, hwidth]

/-- A position that is small enough is the same in words. -/
theorem exists_multiply?_ofNat {overflow : Overflow} {i : Nat} {stride : UInt64}
    (hi : i < UInt64.size) (h : i * stride.toNat < UInt64.size) :
    ∃ position, overflow.multiply? (.ofNat i) stride = some position ∧
      position.toNat = i * stride.toNat := by
  have hword : (UInt64.ofNat i).toNat = i := by
    rw [UInt64.toNat_ofNat', Nat.mod_eq_of_lt hi]
  have hsmall : (UInt64.ofNat i).toNat * stride.toNat < UInt64.size := by rwa [hword]
  refine ⟨_, Overflow.multiply?_eq_some hsmall, ?_⟩
  rw [UInt64.toNat_mul, hword, Nat.mod_eq_of_lt h]

theorem item?_eq_some {overflow : Overflow} {values : List UInt64} {d stride : UInt64} {i : Nat}
    (hlen : values.length = d.toNat * stride.toNat) (hsmall : values.length < UInt64.size)
    (hi : i < d.toNat) :
    item? overflow values stride i
      = some ((values.drop (i * stride.toNat)).take stride.toNat) := by
  -- Up to the end of the last item, positions are small.
  have hposition {j : Nat} (hj : j ≤ d.toNat) :
      ∃ position, overflow.multiply? (.ofNat j) stride = some position ∧
        position.toNat = j * stride.toNat := by
    have hle : j * stride.toNat ≤ values.length := hlen ▸ Nat.mul_le_mul_right _ hj
    exact exists_multiply?_ofNat (Nat.lt_of_le_of_lt hj d.toNat_lt)
      (Nat.lt_of_le_of_lt hle hsmall)
  obtain ⟨start, hstart, hstartNat⟩ := hposition (Nat.le_of_lt hi)
  obtain ⟨stop, hstop, hstopNat⟩ := hposition (Nat.succ_le_of_lt hi)
  unfold item?
  rw [hstart, hstop]
  show slice? values start.toNat stop.toNat = _
  rw [hstartNat, hstopNat, slice?_eq_some hlen hi]

theorem mapM_eq_some_map {α β : Type} {f : α → Option β} {g : α → β} {xs : List α}
    (h : ∀ x ∈ xs, f x = some (g x)) : xs.mapM f = some (xs.map g) := by
  induction xs with
  | nil => rfl
  | cons x xs ih =>
      obtain ⟨hx, hxs⟩ := List.forall_mem_cons.1 h
      rw [List.mapM_cons, hx, ih hxs]
      rfl

/-- No slice is refused where the values fill the shape and the product of any last dimensions is
found in words. -/
theorem spellSlices?_eq_some {overflow : Overflow} {shape : Shape} {values : List UInt64}
    (hlen : values.length = shape.volume)
    (hstrides : ∀ rest, rest <:+ shape →
      ∃ stride, overflow.stride? rest = some stride ∧ stride.toNat = Shape.volume rest) :
    spellSlices? overflow shape values = some (spellNested shape values) := by
  induction shape generalizing values with
  | nil => rfl
  | cons d rest ih =>
      -- The product of all dimensions is a word too, so positions up to the end are small.
      obtain ⟨whole, -, hwhole⟩ := hstrides _ List.suffix_rfl
      have hsmall : values.length < UInt64.size := by
        rw [hlen, ← hwhole]
        exact whole.toNat_lt
      obtain ⟨stride, hstride, hvolume⟩ := hstrides rest (List.suffix_cons d rest)
      have hrest (last : Shape) (hlast : last <:+ rest) :=
        hstrides last (hlast.trans (List.suffix_cons d rest))
      have hitem : ∀ i ∈ List.range d.toNat,
          (item? overflow values stride i >>= spellSlices? overflow rest)
          = some (spellNested rest ((values.drop (i * Shape.volume rest)).take
              (Shape.volume rest))) := by
        intro i hi
        have hi := List.mem_range.1 hi
        have hrow := length_of_mem_rows hlen (List.mem_of_getElem? (getElem?_rows hi))
        rw [item?_eq_some (hvolume ▸ hlen) hsmall hi, hvolume]
        exact ih hrow hrest
      rw [spellSlices?, hstride]
      show ((List.range d.toNat).mapM _ >>= fun items => some (bracketed items)) = _
      rw [mapM_eq_some_map hitem, spellNested, rows_eq_map_range, List.map_map]
      rfl

-- The product from the left is too large here, though that of all dimensions but the first is zero.
example :
    spellSlices? .stops [0, 4294967296, 4294967296, 0] [] = none ∧
      spellSlices? .wraps [0, 4294967296, 4294967296, 0] [] = some "[]".toList := by
  decide

/-! ## The text of values -/

/-- The values that fill a shape can be written, and no others. Their text is read, to its end, as a
nested list that has at each index of the shape the value at its offset, and that is flattened to
the values. It can be written from slices between words that wrap around, if every product of last
dimensions is a word, and without any overflow, if also every product on the way to one is. -/
theorem nestedText_rowMajor (shape : Shape) (values : List UInt64) :
    ((∃ text, nestedText shape values = .ok text) ↔ shape.count = .ok values.length) ∧
      ∀ text, nestedText shape values = .ok text →
        ((∀ rest, rest <:+ shape → Shape.volume rest < UInt64.size) →
          spellSlices? .wraps shape values = some text) ∧
        ((∀ rest, rest <:+ shape → Shape.Countable rest) →
          spellSlices? .stops shape values = some text) ∧
        ∃ nested r, NestedList.read text = .ok (nested, r) ∧ r.1 = [] ∧
          (∀ index, shape.HasIndex index → ∃ v, nested.numberAt? index = some v ∧
            values[shape.offset index]? = some v) ∧
          nested.flatten shape = .ok values := by
  simp only [nestedText_eq_ok_iff, Shape.count_eq_ok_iff]
  refine ⟨⟨fun ⟨_, hcount, _⟩ => hcount, fun hcount => ⟨_, hcount, rfl⟩⟩, ?_⟩
  rintro text ⟨hcount, rfl⟩
  have hlen : values.length = shape.volume := Shape.count?_eq_some hcount
  have hskip : skipBlanks (spellNested shape values) = spellNested shape values ++ [] := by
    simpa using skipBlanks_spellNested_append hlen []
  obtain ⟨r, hread, hrest⟩ := NestedList.exists_read_eq_ok hlen hskip rfl
  have hnumbers (index : List Nat) (hindex : shape.HasIndex index) :
      ∃ v, (NestedList.ofRows shape values).numberAt? index = some v ∧
        values[shape.offset index]? = some v := by
    have hlt : shape.offset index < values.length := hlen ▸ hindex.offset_lt
    exact ⟨_, (NestedList.numberAt?_ofRows hlen hindex).trans (List.getElem?_eq_getElem hlt),
      List.getElem?_eq_getElem hlt⟩
  refine ⟨fun hwords => spellSlices?_eq_some hlen ?_,
    fun hcountable => spellSlices?_eq_some hlen ?_,
    _, r, hread, hrest, hnumbers, NestedList.flatten_ofRows hlen⟩
  · exact fun rest hsuffix => Overflow.exists_stride?_wraps (hwords rest hsuffix)
  · exact fun rest hsuffix => Overflow.exists_stride?_stops (hcountable rest hsuffix)

/-- The second number of the third row of two is the last of six values. -/
theorem nestedText_rowMajor_threeByTwo :
    ∃ text nested r, nestedText [3, 2] [1, 2, 3, 4, 5, 6] = .ok text ∧
      spellSlices? .wraps [3, 2] [1, 2, 3, 4, 5, 6] = some text ∧
      spellSlices? .stops [3, 2] [1, 2, 3, 4, 5, 6] = some text ∧
      NestedList.read text = .ok (nested, r) ∧ r.1 = [] ∧ nested.numberAt? [2, 1] = some 6 ∧
      nested.flatten [3, 2] = .ok [1, 2, 3, 4, 5, 6] := by
  obtain ⟨hiff, hall⟩ := nestedText_rowMajor [3, 2] [1, 2, 3, 4, 5, 6]
  obtain ⟨text, htext⟩ := hiff.2 rfl
  obtain ⟨hwraps, hstops, nested, r, hread, hr, hnumbers, hflatten⟩ := hall text htext
  have hcountable : ∀ rest, rest <:+ [3, 2] → Shape.Countable rest := by
    simp only [List.suffix_cons_iff, List.suffix_nil]
    rintro rest (rfl | rfl | rfl) <;> decide
  have hwords (rest : Shape) (h : rest <:+ [3, 2]) : Shape.volume rest < UInt64.size :=
    (hcountable rest h).volume_lt
  have hindex : Shape.HasIndex [3, 2] [2, 1] :=
    .cons (by decide) (.cons (by decide) .nil)
  obtain ⟨v, hv, hvalue⟩ := hnumbers [2, 1] hindex
  cases hvalue
  exact ⟨text, nested, r, htext, hwraps hwords, hstops hcountable, hread, hr, hv, hflatten⟩

end CipherFlow
