import CipherFlow.Literal.Builder
import CipherFlow.Proofs.Ty.RoundTrip

/-!
# Literals are read back from their text

`NestedList.ofRows` is the nested list that `spellNested` writes. It is what `NestedList.read` reads
from that text (`NestedList.exists_read_eq_ok`), and it flattens to the values it was made of
(`NestedList.flatten_ofRows`). Main statement: the text of a dense literal is read as the literal
that is built directly from its values, if its width is positive (`Literal.parse_spell_dense`), and
likewise that of an integer (`Literal.parse_spell_integer`).
-/

set_option autoImplicit false

namespace CipherFlow

open Text

/-! ## Rows -/

/-- Values that fill rows give full rows. -/
theorem length_of_mem_rows {α : Type} {stride n : Nat} {values row : List α}
    (h : values.length = n * stride) (hrow : row ∈ rows stride n values) : row.length = stride := by
  induction n generalizing values with
  | zero => simp [rows] at hrow
  | succ n ih =>
      have hlen : values.length = n * stride + stride := by rw [h, Nat.succ_mul]
      rcases List.mem_cons.1 hrow with rfl | hrow
      · rw [List.length_take]
        omega
      · exact ih (by rw [List.length_drop]; omega) hrow

/-- The nested list of a shape that holds the values in row-major order. -/
def NestedList.ofRows : Shape → List UInt64 → NestedList
  | [], values => .leaf (values.headD 0)
  | d :: rest, values => .list ((rows (Shape.volume rest) d.toNat values).map (ofRows rest))

/-- A nested list of a shape holds the values it was made of. -/
theorem NestedList.flatten_ofRows {shape : Shape} {values : List UInt64}
    (h : values.length = shape.volume) : flatten shape (ofRows shape values) = .ok values := by
  induction shape generalizing values with
  | nil =>
      obtain ⟨v, rfl⟩ := List.length_eq_one_iff.1 h
      rfl
  | cons d rest ih =>
      have hrows : (rows (Shape.volume rest) d.toNat values).mapM
          (fun row => flatten rest (ofRows rest row))
            = .ok (rows (Shape.volume rest) d.toNat values) := by
        rw [Except.mapM_eq_ok_iff, List.forall₂_same]
        exact fun row hrow => ih (length_of_mem_rows h hrow)
      have htake : values.take (d.toNat * Shape.volume rest) = values :=
        List.take_of_length_le (Nat.le_of_eq h)
      calc flatten (d :: rest) (ofRows (d :: rest) values)
          = List.flatten <$> (rows (Shape.volume rest) d.toNat values).mapM
              (fun row => flatten rest (ofRows rest row)) := by
            rw [ofRows, flatten, List.length_map, length_rows, if_pos rfl, List.mapM_map]
            rfl
        _ = .ok (rows (Shape.volume rest) d.toNat values).flatten := by
            rw [hrows]
            rfl
        _ = .ok values := by rw [flatten_rows, htake]

/-! ## Nested lists -/

theorem exists_commaSeparated_eq_append (x : List Char) (items : List (List Char)) :
    ∃ t, commaSeparated (x :: items) = x ++ t := by
  cases items with
  | nil => exact ⟨[], by simp⟩
  | cons y items => exact ⟨_, commaSeparated_cons_cons x y items⟩

/-- The text of a nested list starts with a bracket or a digit. -/
theorem exists_spellNested_eq_cons {shape : Shape} {values : List UInt64}
    (h : values.length = shape.volume) :
    ∃ c t, spellNested shape values = c :: t ∧ (c = '[' ∨ c.isDigit = true) := by
  cases shape with
  | nil =>
      obtain ⟨v, rfl⟩ := List.length_eq_one_iff.1 h
      obtain ⟨c, t, hc, hd⟩ := exists_digits_eq_cons v.toNat
      exact ⟨c, t, by simpa [spellNested] using hc, Or.inr hd⟩
  | cons d rest => exact ⟨_, _, rfl, Or.inl rfl⟩

theorem skipBlanks_spellNested_append {shape : Shape} {values : List UInt64}
    (h : values.length = shape.volume) (r : List Char) :
    skipBlanks (spellNested shape values ++ r) = spellNested shape values ++ r := by
  obtain ⟨c, t, hc, hd⟩ := exists_spellNested_eq_cons h
  rw [hc, List.cons_append]
  rcases hd with rfl | hd
  · exact skipBlanks_cons_of_not_blank (by decide)
  · exact skipBlanks_of_isDigit hd

namespace NestedList

/-- Items are read back, if each of them is. -/
theorem exists_readItems_eq_ok {rest : Shape} {row : List UInt64} {others : List (List UInt64)}
    {s r : List Char}
    (hread : ∀ {values s r}, values.length = rest.volume →
      skipBlanks s = spellNested rest values ++ r → startsWithDigit r = false →
      ∃ q, read s = .ok (ofRows rest values, q) ∧ q.1 = r)
    (hlen : ∀ x ∈ row :: others, x.length = rest.volume)
    (h : skipBlanks s = commaSeparated ((row :: others).map (spellNested rest))
      ++ (Token.closeList.spell ++ r)) :
    ∃ q, readItems s = .ok ((row :: others).map (ofRows rest), q) ∧ q.1 = r := by
  have hrow : row.length = rest.volume := hlen row List.mem_cons_self
  induction others generalizing row s with
  | nil =>
      have h : skipBlanks s = spellNested rest row ++ (Token.closeList.spell ++ r) := by
        rw [h, List.map_singleton, commaSeparated_singleton]
      obtain ⟨q, hq, hqr⟩ := hread hrow h (startsWithDigit_token_append _ _)
      have hclose : skipBlanks q.1 = Token.closeList.spell ++ r := by
        rw [hqr, skipBlanks_token_append]
      obtain ⟨t, ht, htr⟩ := exists_token?_eq_some hclose
      rw [readItems, hq]
      simp only [Except.ok_bind, ht]
      exact ⟨_, rfl, htr⟩
  | cons next others ih =>
      have hnext : next.length = rest.volume := hlen next (by simp)
      have htail : ∀ x ∈ next :: others, x.length = rest.volume := fun x hx =>
        hlen x (List.mem_cons_of_mem _ hx)
      -- What is left behind the comma, without the blank in front of it.
      let left := commaSeparated ((next :: others).map (spellNested rest))
        ++ (Token.closeList.spell ++ r)
      have h : skipBlanks s = spellNested rest row ++ (Token.comma.spell ++ ' ' :: left) := by
        rw [h, List.map_cons, List.map_cons, commaSeparated_cons_cons]
        simp [left, Token.spell]
      obtain ⟨q, hq, hqr⟩ := hread hrow h (startsWithDigit_token_append _ _)
      have hcomma : skipBlanks q.1 = Token.comma.spell ++ ' ' :: left := by
        rw [hqr, skipBlanks_token_append]
      obtain ⟨t, ht, htr⟩ := exists_requireToken_eq_ok hcomma
      have hleft : skipBlanks t.1 = left := by
        obtain ⟨u, hu⟩ := exists_commaSeparated_eq_append (spellNested rest next)
          (others.map (spellNested rest))
        rw [htr, skipBlanks_cons_of_blank (by decide)]
        simp only [left, List.map_cons, hu, List.append_assoc]
        exact skipBlanks_spellNested_append hnext _
      obtain ⟨u, hu, hur⟩ := ih htail hleft hnext
      have hclose : token? .closeList q.1 = none :=
        token?_eq_none_of_cons hcomma (by decide)
      rw [readItems, hq]
      simp only [Except.ok_bind, hclose, ht, hu]
      exact ⟨_, rfl, hur⟩

/-- A nested list is read back from the text of its values. -/
theorem exists_read_eq_ok {shape : Shape} {values : List UInt64} {s r : List Char}
    (hlen : values.length = shape.volume) (h : skipBlanks s = spellNested shape values ++ r)
    (hr : startsWithDigit r = false) :
    ∃ q, read s = .ok (ofRows shape values, q) ∧ q.1 = r := by
  induction shape generalizing values s r with
  | nil =>
      obtain ⟨v, rfl⟩ := List.length_eq_one_iff.1 hlen
      have h : skipBlanks s = digits v.toNat ++ r := by simpa [spellNested] using h
      -- A number starts with a digit, which opens no list.
      obtain ⟨c, t, hc, hd⟩ := exists_digits_eq_cons v.toNat
      have hopen : token? .openList s = none := by
        apply token?_eq_none_of_cons (c := c) (t := t ++ r)
        · rw [h, hc, List.cons_append]
        · rintro ⟨⟩
          exact absurd hd (by decide)
      obtain ⟨q, hq, hqr⟩ := exists_number_eq_ok h hr
      rw [read, hopen]
      simp only [hq, Except.ok_bind]
      exact ⟨_, rfl, hqr⟩
  | cons d rest ih =>
      have hrows : ∀ row ∈ rows (Shape.volume rest) d.toNat values,
          row.length = Shape.volume rest := fun row hrow => length_of_mem_rows hlen hrow
      have h : skipBlanks s = Token.openList.spell
          ++ (commaSeparated ((rows (Shape.volume rest) d.toNat values).map (spellNested rest))
            ++ (Token.closeList.spell ++ r)) := by
        rw [h, spellNested, bracketed]
        simp [Token.spell]
      obtain ⟨q, hq, hqr⟩ := exists_token?_eq_some h
      rw [read, hq, ofRows]
      cases hcases : rows (Shape.volume rest) d.toNat values with
      | nil =>
          rw [hcases] at hqr
          have hclose : skipBlanks q.1 = Token.closeList.spell ++ r := by
            rw [hqr, List.map_nil, commaSeparated_nil, List.nil_append, skipBlanks_token_append]
          obtain ⟨t, ht, htr⟩ := exists_token?_eq_some hclose
          simp only [ht]
          exact ⟨_, rfl, htr⟩
      | cons row others =>
          rw [hcases] at hqr hrows
          have hrow := hrows row List.mem_cons_self
          -- Behind the bracket stands the first row, which does not start with the closing one.
          obtain ⟨u, hu⟩ := exists_commaSeparated_eq_append (spellNested rest row)
            (others.map (spellNested rest))
          have hitems : skipBlanks q.1 = commaSeparated ((row :: others).map (spellNested rest))
              ++ (Token.closeList.spell ++ r) := by
            rw [hqr, List.map_cons, hu, List.append_assoc, skipBlanks_spellNested_append hrow]
          have hclose : token? .closeList q.1 = none := by
            obtain ⟨c, t, hc, hd⟩ := exists_spellNested_eq_cons hrow
            apply token?_eq_none_of_cons (c := c) (t := t ++ (u ++ (Token.closeList.spell ++ r)))
            · rw [hitems, List.map_cons, hu, hc]
              simp
            · rintro ⟨⟩
              revert hd
              decide
          obtain ⟨t, ht, htr⟩ := exists_readItems_eq_ok ih hrows hitems
          simp only [hclose, ht, Except.ok_bind]
          exact ⟨_, rfl, htr⟩

end NestedList

/-! ## Literals -/

namespace Literal

theorem ofNested_ofRows {shape : Shape} {element : Ty} {values : List UInt64}
    (h : values.length = shape.volume) :
    ofNested (.tensor shape element) (.ofRows shape values)
      = ofDense (.tensor shape element) values := by
  simp only [ofNested, Ty.shape?, NestedList.flatten_ofRows h]
  rfl

/-- What follows the value of a literal: a colon, and then its type. -/
def typeTail (ty : Ty) : List Char := ' ' :: (Token.colon.spell ++ ' ' :: ty.spell)

theorem exists_requireToken_typeTail {ty : Ty} {s : List Char} (h : s = typeTail ty) :
    ∃ q, requireToken .colon s = .ok q ∧ skipBlanks q.1 = ty.spell ++ [] := by
  have hcolon : skipBlanks s = Token.colon.spell ++ ' ' :: ty.spell := by
    rw [h, typeTail, skipBlanks_cons_of_blank (by decide), skipBlanks_token_append]
  obtain ⟨q, hq, hqr⟩ := exists_requireToken_eq_ok hcolon
  refine ⟨q, hq, ?_⟩
  rw [hqr, skipBlanks_cons_of_blank (by decide)]
  simpa using ty.skipBlanks_spell_append []

/-- What follows `dense<` in the text of a dense literal. -/
def denseTail (ty : Ty) (values : List UInt64) : List Char :=
  spellNested (ty.shape?.getD []) values ++ (Token.close.spell ++ typeTail ty)

theorem spell_dense (ty : Ty) (values : List UInt64) :
    (dense ty values).spell = Token.dense.spell ++ denseTail ty values := by
  simp [spell, denseTail, typeTail, Token.spell]

theorem spell_integer (ty : Ty) (value : UInt64) :
    (integer ty value).spell = digits value.toNat ++ typeTail ty := by
  simp [spell, typeTail, Token.spell]

theorem readDense_denseTail {shape : Shape} {element : Ty} {values : List UInt64} {s : List Char}
    (hlen : values.length = shape.volume) (h : s = denseTail (.tensor shape element) values) :
    readDense s =
      if element.isProper = true then
        .ok ((NestedList.ofRows shape values, .tensor shape element), [])
      else .error .zeroWidth := by
  have hnested : skipBlanks s = spellNested shape values
      ++ (Token.close.spell ++ typeTail (.tensor shape element)) := by
    rw [h]
    exact skipBlanks_spellNested_append hlen _
  obtain ⟨q, hq, hqr⟩ :=
    NestedList.exists_read_eq_ok hlen hnested (startsWithDigit_token_append _ _)
  have hclose : skipBlanks q.1 = Token.close.spell ++ typeTail (.tensor shape element) := by
    rw [hqr, skipBlanks_token_append]
  obtain ⟨t, ht, htr⟩ := exists_requireToken_eq_ok hclose
  obtain ⟨u, hu, hty⟩ := exists_requireToken_typeTail htr
  unfold readDense
  rw [hq]
  simp only [Except.ok_bind, ht, hu]
  split
  · next hp =>
      obtain ⟨v, hv, hvr⟩ := Ty.exists_read_eq_ok (t := .tensor shape element) hp hty rfl
      rw [hv, Except.ok_bind, hvr]
      rfl
  · next hp =>
      have hp : (Ty.tensor shape element).isProper = false := by simpa [Ty.isProper] using hp
      rw [Ty.read_eq_zeroWidth hp hty rfl]
      rfl

/-- The text of a dense literal is read as the literal that its values make directly, or refused for
its width. -/
theorem parse_spell_dense {shape : Shape} {w : UInt32} {values : List UInt64}
    (hlen : values.length = shape.volume) :
    parse (String.ofList (dense (.tensor shape (.clear w)) values).spell) =
      if w = 0 then .error .zeroWidth else ofDense (.tensor shape (.clear w)) values := by
  have hdense : skipBlanks (String.ofList (dense (.tensor shape (.clear w)) values).spell).toList
      = Token.dense.spell ++ denseTail (.tensor shape (.clear w)) values := by
    rw [String.toList_ofList, spell_dense, skipBlanks_token_append]
  obtain ⟨q, hq, hqr⟩ := exists_token?_eq_some hdense
  unfold parse
  rw [hq]
  simp only [readDense_denseTail hlen hqr]
  by_cases hw : w = 0
  · subst hw
    rfl
  · have hp : (Ty.clear w).isProper = true := by simpa [Ty.isProper] using hw
    rw [if_pos hp, if_neg hw]
    show (ofNested _ (NestedList.ofRows shape values) >>= fun literal => .ok literal) = _
    rw [ofNested_ofRows hlen]
    cases ofDense (.tensor shape (.clear w)) values <;> rfl

/-- The text of an integer literal is read as the literal that its value makes directly. -/
theorem parse_spell_integer {ty : Ty} {value : UInt64} (hp : ty.isProper = true) :
    parse (String.ofList (integer ty value).spell) = ofInteger ty value := by
  generalize htext : String.ofList (integer ty value).spell = text
  have hskip : skipBlanks text.toList = digits value.toNat ++ typeTail ty := by
    rw [← htext, String.toList_ofList, spell_integer, skipBlanks_digits_append]
  -- A number starts with a digit, which starts no dense literal.
  have hdense : token? .dense text.toList = none := by
    obtain ⟨c, t, hc, hd⟩ := exists_digits_eq_cons value.toNat
    apply token?_eq_none_of_cons (c := c)
    · rw [hskip, hc, List.cons_append]
    · rintro ⟨⟩
      exact absurd hd (by decide)
  obtain ⟨q, hq, hqr⟩ := exists_number_eq_ok hskip rfl
  obtain ⟨u, hu, hty⟩ := exists_requireToken_typeTail hqr
  obtain ⟨v, hv, hvr⟩ := Ty.exists_read_eq_ok hp hty rfl
  have hread : readInteger text.toList = .ok ((value, ty), []) := by
    unfold readInteger
    rw [hq]
    simp only [Except.ok_bind, hu, hv, hvr]
    rfl
  unfold parse
  rw [hdense]
  simp only [hread]
  show (ofInteger ty value >>= fun literal => .ok literal) = _
  cases ofInteger ty value <;> rfl

end Literal

end CipherFlow
