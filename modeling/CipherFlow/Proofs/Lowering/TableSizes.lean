import CipherFlow.Proofs.Lowering.Support
import Mathlib.Algebra.BigOperators.Group.Finset.Basic

/-!
# Sizes of tables

A table is complete for a width if its size is two to the power of the width. A width may be almost
`2 ^ 32`, and then that power is out of reach. The size is a machine word, though, and tells by its
bits: one of them is set, and below it stand as many zeros as the width says
(`Table.isComplete_iff_bits`). Main statement: a table is accepted exactly for the width whose
numbers it has entries for, the table of a function has its values and is accepted for its own width
alone, and the literal of a table holds all its entries (`Table.sizes_and_entries_exact`).
-/

set_option autoImplicit false

namespace CipherFlow

/-! ## Words with one bit set -/

section OneBit

variable {w : Nat} {x : BitVec w}

/-- Counting the set bits one after another counts the places where they are. -/
theorem cpopNatRec_eq_card (n : Nat) :
    x.cpopNatRec n 0 = ((Finset.range n).filter fun i => x.getLsbD i = true).card := by
  induction n with
  | zero => rfl
  | succ n ih =>
      rw [BitVec.cpopNatRec_succ, BitVec.cpopNatRec_add, ih, Finset.card_filter, Finset.card_filter,
        Finset.sum_range_succ]
      cases x.getLsbD n <;> rfl

/-- One bit is set exactly in the powers of two. -/
theorem cpop_eq_one_iff : x.cpop.toNat = 1 ↔ ∃ k, k < w ∧ x = BitVec.twoPow w k := by
  rw [BitVec.toNat_cpop, cpopNatRec_eq_card, Finset.card_eq_one]
  refine exists_congr fun k => ?_
  simp only [Finset.ext_iff, Finset.mem_filter, Finset.mem_range, Finset.mem_singleton]
  constructor
  · intro hplaces
    have hk : k < w := ((hplaces k).2 rfl).1
    refine ⟨hk, BitVec.eq_of_getLsbD_eq fun i hi => ?_⟩
    have hbit : x.getLsbD i = true ↔ i = k := by rw [← hplaces i, and_iff_right hi]
    rw [BitVec.getLsbD_twoPow, Bool.eq_iff_iff, hbit, Bool.and_eq_true, decide_eq_true_eq,
      decide_eq_true_eq, and_iff_right hk, eq_comm]
  · rintro ⟨hk, rfl⟩ i
    rw [BitVec.getLsbD_twoPow, Bool.and_eq_true, decide_eq_true_eq, decide_eq_true_eq]
    omega

/-- As many zeros stand below the one bit of a power of two as its exponent says. -/
theorem ctz_twoPow {k : Nat} (hk : k < w) : (BitVec.twoPow w k).ctz.toNat = k := by
  have hbit : (BitVec.twoPow w k).getLsbD k = true := by
    rw [BitVec.getLsbD_twoPow, decide_eq_true hk, decide_eq_true rfl, Bool.and_self]
  have hne : BitVec.twoPow w k ≠ 0#w := by
    intro hzero
    rw [hzero, BitVec.getLsbD_zero] at hbit
    cases hbit
  -- The lowest bit that is set is the only one.
  have hlowest := BitVec.getLsbD_true_ctz_of_ne_zero hne
  rw [BitVec.getLsbD_twoPow, Bool.and_eq_true, decide_eq_true_eq, decide_eq_true_eq] at hlowest
  exact hlowest.2.symm

end OneBit

/-! ## Complete tables -/

/-- A table is accepted for a width if it has an entry for each number of that width, and else
refused with the width and its size. -/
theorem checkTable_eq (t : Table) (width : UInt32) :
    checkTable t width
      = if t.size = 2 ^ width.toNat then .ok () else .error (.tableDomain width t.size) := by
  simp only [checkTable, Table.isComplete_iff_size_eq]

theorem checkTable_eq_ok_iff {t : Table} {width : UInt32} :
    checkTable t width = .ok () ↔ t.size = 2 ^ width.toNat := by
  rw [checkTable_eq]
  split
  · next h => exact iff_of_true rfl h
  · next h => exact iff_of_false nofun h

/-- Without entries a table is refused even for width zero, which has one number. -/
example : checkTable ⟨[], by decide⟩ 0 = .error (.tableDomain 0 0)
    ∧ checkTable ⟨[5], by decide⟩ 0 = .ok () := by decide

namespace Table

/-- The size, as a machine word. -/
def sizeWord (t : Table) : BitVec 64 := .ofNatLT t.entries.length t.length_lt

theorem toNat_sizeWord (t : Table) : t.sizeWord.toNat = t.size := rfl

theorem sizeWord_eq_twoPow_iff {t : Table} {k : Nat} (hk : k < 64) :
    t.sizeWord = BitVec.twoPow 64 k ↔ t.size = 2 ^ k := by
  have hlt : 2 ^ k < 2 ^ 64 := (Nat.pow_lt_pow_iff_right (by decide)).2 hk
  rw [← BitVec.toNat_inj, BitVec.toNat_twoPow, Nat.mod_eq_of_lt hlt, toNat_sizeWord]

/-- No table is complete for a width of 64 or more: its size is a word. -/
theorem width_lt_of_size_eq {t : Table} {width : UInt32} (h : t.size = 2 ^ width.toNat) :
    width.toNat < 64 := by
  have hsize : t.size < 2 ^ 64 := t.length_lt
  rw [h] at hsize
  exact (Nat.pow_lt_pow_iff_right (by decide)).1 hsize

/-- A table is complete for a width if one bit of its size is set, with as many zeros below it as
the width says. -/
theorem isComplete_iff_bits {t : Table} {width : UInt32} :
    t.isComplete width = true ↔
      t.sizeWord.cpop.toNat = 1 ∧ t.sizeWord.ctz.toNat = width.toNat := by
  rw [isComplete_iff_size_eq, cpop_eq_one_iff]
  constructor
  · intro h
    have hwidth : width.toNat < 64 := width_lt_of_size_eq h
    have hword : t.sizeWord = BitVec.twoPow 64 width.toNat := (sizeWord_eq_twoPow_iff hwidth).2 h
    exact ⟨⟨width.toNat, hwidth, hword⟩, by rw [hword, ctz_twoPow hwidth]⟩
  · rintro ⟨⟨k, hk, hword⟩, hzeros⟩
    -- The exponent is what the zeros say, so it is the width.
    rw [hword, ctz_twoPow hk] at hzeros
    rw [← hzeros]
    exact (sizeWord_eq_twoPow_iff hk).1 hword

/-! ## Tables of functions -/

/-- Every function has a table for a width below 64, with its value at each number of the width. -/
theorem exists_ofFunction?_eq_some {width : UInt32} (f : UInt64 → UInt64)
    (hwidth : width.toNat < 64) :
    ∃ t, ofFunction? width f = some t ∧ t.size = 2 ^ width.toNat ∧
      ∀ i : UInt64, i.toNat < 2 ^ width.toNat → t.entries[i.toNat]? = some (f i) := by
  have hlength : ((List.range (2 ^ width.toNat)).map fun i => f (UInt64.ofNat i)).length
      = 2 ^ width.toNat := by
    rw [List.length_map, List.length_range]
  have hbound : ((List.range (2 ^ width.toNat)).map fun i => f (UInt64.ofNat i)).length
      < UInt64.size := by
    rw [hlength]
    exact (Nat.pow_lt_pow_iff_right (by decide)).2 hwidth
  refine ⟨⟨_, hbound⟩, ?_, hlength, fun i hi => ?_⟩
  · rw [ofFunction?, if_pos hwidth, Nat.one_shiftLeft]
    exact ofEntries?_entries ⟨_, hbound⟩
  · rw [List.getElem?_map, List.getElem?_range hi, Option.map_some, UInt64.ofNat_toNat]

/-- A table as large as the numbers of a width is accepted for that width only. -/
theorem checkTable_eq_ok_iff_of_size_eq {t : Table} {width width' : UInt32}
    (h : t.size = 2 ^ width.toNat) : checkTable t width' = .ok () ↔ width' = width := by
  rw [checkTable_eq_ok_iff, h, Nat.pow_right_inj (by decide), UInt32.toNat_inj, eq_comm]

/-- Sizes and entries of tables are exact. A table is accepted for a width if it has an entry for
each number of that width, which the bits of its size tell, and else refused with the width and the
size; the table of a function has the values at the numbers of its width and no other entries, so
that it is accepted for its own width alone; and every table has a literal, a vector of words with
the entries in order. -/
theorem sizes_and_entries_exact :
    (∀ (t : Table) (width : UInt32),
      checkTable t width
        = (if t.size = 2 ^ width.toNat then .ok () else .error (.tableDomain width t.size)) ∧
      (checkTable t width = .ok () ↔
        t.sizeWord.cpop.toNat = 1 ∧ t.sizeWord.ctz.toNat = width.toNat)) ∧
    (∀ (width : UInt32) (f : UInt64 → UInt64), width.toNat < 64 →
      ∃ t, ofFunction? width f = some t ∧ t.size = 2 ^ width.toNat ∧
        (∀ i : UInt64, i.toNat < 2 ^ width.toNat → t.entries[i.toNat]? = some (f i)) ∧
        ∀ width', checkTable t width' = .ok () ↔ width' = width) ∧
    ∀ t : Table, ∃ length : UInt64, length.toNat = t.entries.length ∧
      tableLiteral t = .ok (.dense (.tensor [length] (.clear 64)) t.entries) := by
  refine ⟨fun t width => ⟨checkTable_eq t width, ?_⟩, fun width f hwidth => ?_, fun t => ?_⟩
  · rw [checkTable_eq_ok_iff, ← isComplete_iff_size_eq, isComplete_iff_bits]
  · obtain ⟨t, ht, hsize, hentries⟩ := exists_ofFunction?_eq_some f hwidth
    exact ⟨t, ht, hsize, hentries, fun _ => checkTable_eq_ok_iff_of_size_eq hsize⟩
  · exact ⟨.ofNatLT t.entries.length t.length_lt, UInt64.toNat_ofNatLT, tableLiteral_eq t⟩

/-- The four values of a function on two bits are a table for these, and not for three bits. -/
theorem sizes_and_entries_exact_twoBits :
    ∃ t, (2 : UInt32).toNat < 64 ∧ ofFunction? 2 (fun i => 3 * i + 1) = some t ∧
      t.entries = [1, 4, 7, 10] ∧ checkTable t 2 = .ok () ∧
      checkTable t 3 = .error (.tableDomain 3 4) := by
  have hwidth : (2 : UInt32).toNat < 64 := by decide
  obtain ⟨t, ht, hsize, -, hcheck⟩ := sizes_and_entries_exact.2.1 2 (fun i => 3 * i + 1) hwidth
  have hentries : t = ⟨[1, 4, 7, 10], by decide⟩ := Option.some.inj (ht.symm.trans (by decide))
  refine ⟨t, hwidth, ht, congrArg entries hentries, (hcheck 2).2 rfl, ?_⟩
  rw [(sizes_and_entries_exact.1 t 3).1, hsize]
  rfl

end Table

end CipherFlow
