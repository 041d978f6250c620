import CipherFlow.Proofs.Literal.Building

/-!
# The grammar of literals

`Literal.Spelled` is the grammar of the texts of literals: a number and its type, or a nested list
of numbers and the type of a tensor, with any blanks in front of each token and number. What the
grammar says about a nested list beyond its text is that it has the shape of the type
(`NestedList.HasShape`) and that its numbers, from left to right (`NestedList.leaves`), fit the
width. Main statements: a nested list is flattened exactly if it has the shape, and then to its
numbers (`NestedList.flatten_eq_ok_iff`); what is read as a nested list is a spelling of it and
conversely (`NestedList.exists_spelled_of_read`, `NestedList.Spelled.exists_read_eq_ok`); and a
whole text is read as a literal exactly if it spells the literal (`Literal.parse_iff_isSpelledBy`).
-/

set_option autoImplicit false

namespace CipherFlow

open Text

/-! ## Shapes of nested lists -/

namespace NestedList

mutual

/-- The numbers in a nested list, from left to right. -/
def leaves : NestedList → List UInt64
  | .leaf value => [value]
  | .list items => leavesOfItems items

/-- The numbers in the items of a list, from left to right. -/
def leavesOfItems : List NestedList → List UInt64
  | [] => []
  | item :: items => item.leaves ++ leavesOfItems items

end

/-- A nested list has a shape: it is a number where the shape has no dimension, and otherwise a list
with as many items as the first dimension says, each of the shape that is left. -/
inductive HasShape : NestedList → Shape → Prop
  | leaf {value : UInt64} : HasShape (.leaf value) []
  | list {d : UInt64} {rest : Shape} {items : List NestedList} (hlength : items.length = d.toNat)
      (hitems : ∀ item ∈ items, HasShape item rest) : HasShape (.list items) (d :: rest)

theorem leavesOfItems_eq (items : List NestedList) :
    leavesOfItems items = (items.map leaves).flatten := by
  induction items with
  | nil => rfl
  | cons item items ih => rw [leavesOfItems, ih, List.map_cons, List.flatten_cons]

/-- A nested list of a shape has as many numbers as the shape has elements. -/
theorem HasShape.length_leaves {nested : NestedList} {shape : Shape} (h : nested.HasShape shape) :
    nested.leaves.length = shape.volume := by
  induction h with
  | leaf => rfl
  | @list d rest items hlength hitems ih =>
      have hlengths : (items.map leaves).map List.length
          = List.replicate d.toNat rest.volume := by
        rw [List.map_map, ← hlength]
        exact List.map_eq_replicate_iff.2 ih
      rw [leaves, leavesOfItems_eq, List.length_flatten, hlengths, List.sum_replicate_nat]
      rfl

/-- A nested list is flattened exactly if it has the shape, and then to its numbers. -/
theorem flatten_eq_ok_iff {shape : Shape} {nested : NestedList} {values : List UInt64} :
    flatten shape nested = .ok values ↔ nested.HasShape shape ∧ values = nested.leaves := by
  induction shape generalizing nested values with
  | nil =>
      cases nested with
      | leaf value =>
          have hleaf : (NestedList.leaf value).HasShape [] := .leaf
          simp [flatten, leaves, hleaf, eq_comm]
      | list items =>
          have hlist : ¬ (NestedList.list items).HasShape [] := by rintro ⟨⟩
          simp [flatten, hlist]
  | cons d rest ih =>
      cases nested with
      | leaf value =>
          have hleaf : ¬ (NestedList.leaf value).HasShape (d :: rest) := by rintro ⟨⟩
          simp [flatten, hleaf]
      | list items =>
          -- The items are flattened one by one, each to its own numbers.
          have hitems (rows : List (List UInt64)) : items.mapM (flatten rest) = .ok rows ↔
              (∀ item ∈ items, item.HasShape rest) ∧ items.map leaves = rows := by
            simp only [Except.mapM_eq_ok_iff, ih, List.forall₂_and_left, eq_comm (b := leaves _)]
            rw [← List.forall₂_map_left_iff (R := Eq), List.forall₂_eq_eq_eq]
          have hshape : (NestedList.list items).HasShape (d :: rest) ↔
              items.length = d.toNat ∧ ∀ item ∈ items, item.HasShape rest := by
            constructor
            · intro h
              cases h with
              | list hlength hitems => exact ⟨hlength, hitems⟩
            · rintro ⟨hlength, hitems⟩
              exact .list hlength hitems
          rw [flatten, hshape, leaves, leavesOfItems_eq]
          by_cases hlength : items.length = d.toNat
          · rw [if_pos hlength, Except.map_eq_ok_iff]
            simp only [hitems, hlength, true_and]
            constructor
            · rintro ⟨rows, ⟨hshapes, rfl⟩, rfl⟩
              exact ⟨hshapes, rfl⟩
            · rintro ⟨hshapes, rfl⟩
              exact ⟨_, ⟨hshapes, rfl⟩, rfl⟩
          · simp [hlength]

end NestedList

/-! ## Spellings of nested lists -/

mutual

/-- The spellings of a nested list. -/
inductive NestedList.Spelled : NestedList → List Char → Prop
  | leaf {value : UInt64} {n : List Char} (hn : NumberSpelled value.toNat n) :
      Spelled (.leaf value) n
  | nil {o c : List Char} (ho : Token.openList.Spelled o) (hc : Token.closeList.Spelled c) :
      Spelled (.list []) (o ++ c)
  | list {items : List NestedList} {o s c : List Char} (ho : Token.openList.Spelled o)
      (hs : ItemsSpelled items s) (hc : Token.closeList.Spelled c) :
      Spelled (.list items) (o ++ (s ++ c))

/-- The spellings of the items of a list: at least one, with a comma behind each but the last. -/
inductive NestedList.ItemsSpelled : List NestedList → List Char → Prop
  | last {item : NestedList} {s : List Char} (hs : Spelled item s) : ItemsSpelled [item] s
  | cons {item : NestedList} {items : List NestedList} {s m t : List Char}
      (hs : Spelled item s) (hm : Token.comma.Spelled m) (ht : ItemsSpelled items t) :
      ItemsSpelled (item :: items) (s ++ (m ++ t))

end

namespace NestedList

/-! ### What is read is a spelling -/

/-- What is taken off a text as a nested list, or as items with the bracket behind them, is a
spelling. The two are shown together, because each is read by the other. -/
theorem exists_spelled_of_read_or_readItems (s : List Char) :
    (∀ nested (r : Rest s), read s = .ok (nested, r) → ∃ p, nested.Spelled p ∧ s = p ++ r.1) ∧
      ∀ items (r : Rest s), readItems s = .ok (items, r) →
        ∃ p c, ItemsSpelled items p ∧ Token.closeList.Spelled c ∧ s = p ++ (c ++ r.1) := by
  obtain ⟨n, hn⟩ : ∃ n, s.length = n := ⟨_, rfl⟩
  induction n using Nat.strongRecOn generalizing s with
  | ind n ih =>
      subst hn
      have hread : ∀ nested (r : Rest s), read s = .ok (nested, r) →
          ∃ p, nested.Spelled p ∧ s = p ++ r.1 := by
        intro nested r h
        rw [read] at h
        split at h
        · obtain ⟨⟨value, q⟩, hnumber, h⟩ := Except.bind_eq_ok_iff.1 h
          cases h
          obtain ⟨m, hm, hsm⟩ := exists_spelled_of_number hnumber
          exact ⟨m, .leaf hm, hsm⟩
        · next q hopen =>
            obtain ⟨o, ho, hso⟩ := exists_spelled_of_token? hopen
            split at h
            · next t hclose =>
                cases h
                obtain ⟨c, hc, hqc⟩ := exists_spelled_of_token? hclose
                refine ⟨_, .nil ho hc, ?_⟩
                calc s = o ++ q.1 := hso
                  _ = (o ++ c) ++ t.1 := by simp only [hqc, List.append_assoc]
            · obtain ⟨⟨items, t⟩, hitems, h⟩ := Except.bind_eq_ok_iff.1 h
              cases h
              -- The items are read from a rest of the text.
              obtain ⟨p, c, hp, hc, hqp⟩ := (ih q.1.length q.2 q.1 rfl).2 items t hitems
              refine ⟨_, .list ho hp hc, ?_⟩
              calc s = o ++ q.1 := hso
                _ = (o ++ (p ++ c)) ++ t.1 := by simp only [hqp, List.append_assoc]
      refine ⟨hread, ?_⟩
      intro items r h
      rw [readItems] at h
      obtain ⟨⟨item, q⟩, hitem, h⟩ := Except.bind_eq_ok_iff.1 h
      obtain ⟨p, hp, hsp⟩ := hread item q hitem
      dsimp only at h
      split at h
      · next t hclose =>
          cases h
          obtain ⟨c, hc, hqc⟩ := exists_spelled_of_token? hclose
          refine ⟨p, c, .last hp, hc, ?_⟩
          calc s = p ++ q.1 := hsp
            _ = p ++ (c ++ t.1) := by simp only [hqc]
      · obtain ⟨t, hcomma, h⟩ := Except.bind_eq_ok_iff.1 h
        obtain ⟨⟨others, u⟩, hothers, h⟩ := Except.bind_eq_ok_iff.1 h
        cases h
        have hlt : t.1.length < s.length := Nat.lt_trans t.2 q.2
        obtain ⟨m, hm, hqm⟩ := exists_spelled_of_requireToken hcomma
        obtain ⟨p', c, hp', hc, htp⟩ := (ih t.1.length hlt t.1 rfl).2 others u hothers
        refine ⟨_, c, .cons hp hm hp', hc, ?_⟩
        calc s = p ++ q.1 := hsp
          _ = (p ++ (m ++ p')) ++ (c ++ u.1) := by simp only [hqm, htp, List.append_assoc]

theorem exists_spelled_of_read {nested : NestedList} {s : List Char} {r : Rest s}
    (h : read s = .ok (nested, r)) : ∃ p, nested.Spelled p ∧ s = p ++ r.1 :=
  (exists_spelled_of_read_or_readItems s).1 nested r h

/-! ### A spelling is read -/

/-- No spelling of a nested list starts with the bracket that closes a list. -/
theorem Spelled.token?_closeList_eq_none {nested : NestedList} {p r s : List Char}
    (h : nested.Spelled p) (hs : s = p ++ r) : token? .closeList s = none := by
  cases h with
  | leaf hn => exact token?_eq_none_of_startsWithDigit (hs ▸ hn.startsWithDigit_skipBlanks r)
  | nil ho hc =>
      rw [List.append_assoc] at hs
      exact token?_eq_none_of_cons (hs ▸ ho.skipBlanks_append _) (by decide)
  | list ho hitems hc =>
      rw [List.append_assoc] at hs
      exact token?_eq_none_of_cons (hs ▸ ho.skipBlanks_append _) (by decide)

theorem ItemsSpelled.token?_closeList_eq_none {items : List NestedList} {p r s : List Char}
    (h : ItemsSpelled items p) (hs : s = p ++ r) : token? .closeList s = none := by
  cases h with
  | last hitem => exact hitem.token?_closeList_eq_none hs
  | cons hitem hm hitems =>
      rw [List.append_assoc] at hs
      exact hitem.token?_closeList_eq_none hs

mutual

/-- A nested list is read from its spelling where no digit follows. -/
theorem Spelled.exists_read_eq_ok {nested : NestedList} {p r s : List Char} (h : nested.Spelled p)
    (hr : startsWithDigit r = false) (hs : s = p ++ r) :
    ∃ q, read s = .ok (nested, q) ∧ q.1 = r := by
  cases h with
  | @leaf value _ hn =>
      -- A number starts with a digit, which opens no list.
      have hopen : token? .openList s = none :=
        token?_eq_none_of_startsWithDigit (hs ▸ hn.startsWithDigit_skipBlanks r)
      obtain ⟨q, hq, hqr⟩ := hn.exists_number_eq_ok hr hs
      rw [read, hopen]
      simp only [hq, Except.ok_bind]
      exact ⟨_, rfl, hqr⟩
  | @nil o c ho hc =>
      have hs : s = o ++ (c ++ r) := by rw [hs, List.append_assoc]
      obtain ⟨q, hq, hqr⟩ := ho.exists_token?_eq_some hs
      obtain ⟨t, ht, htr⟩ := hc.exists_token?_eq_some hqr
      rw [read, hq]
      simp only [ht]
      exact ⟨_, rfl, htr⟩
  | @list items o t c ho hitems hc =>
      have hs : s = o ++ (t ++ (c ++ r)) := by simpa only [List.append_assoc] using hs
      obtain ⟨q, hq, hqr⟩ := ho.exists_token?_eq_some hs
      have hclose : token? .closeList q.1 = none := hitems.token?_closeList_eq_none hqr
      obtain ⟨u, hu, hur⟩ := hitems.exists_readItems_eq_ok hc hqr
      rw [read, hq]
      simp only [hclose, hu, Except.ok_bind]
      exact ⟨_, rfl, hur⟩

/-- The items of a list are read from their spelling and the bracket behind it. -/
theorem ItemsSpelled.exists_readItems_eq_ok {items : List NestedList} {p c r s : List Char}
    (h : ItemsSpelled items p) (hc : Token.closeList.Spelled c) (hs : s = p ++ (c ++ r)) :
    ∃ q, readItems s = .ok (items, q) ∧ q.1 = r := by
  cases h with
  | last hitem =>
      obtain ⟨q, hq, hqr⟩ := hitem.exists_read_eq_ok (hc.startsWithDigit_append _) hs
      obtain ⟨t, ht, htr⟩ := hc.exists_token?_eq_some hqr
      rw [readItems, hq]
      simp only [Except.ok_bind, ht]
      exact ⟨_, rfl, htr⟩
  | @cons item items t m u hitem hm hitems =>
      have hs : s = t ++ (m ++ (u ++ (c ++ r))) := by simpa only [List.append_assoc] using hs
      obtain ⟨q, hq, hqr⟩ := hitem.exists_read_eq_ok (hm.startsWithDigit_append _) hs
      have hclose : token? .closeList q.1 = none := by
        have hskip : skipBlanks q.1 = Token.comma.spell ++ (u ++ (c ++ r)) :=
          hqr ▸ hm.skipBlanks_append _
        exact token?_eq_none_of_cons hskip (by decide)
      obtain ⟨v, hv, hvr⟩ := hm.exists_requireToken_eq_ok hqr
      obtain ⟨w, hw, hwr⟩ := hitems.exists_readItems_eq_ok hc hvr
      rw [readItems, hq]
      simp only [Except.ok_bind, hclose, hv, hw]
      exact ⟨_, rfl, hwr⟩

end

end NestedList

/-! ## Literals -/

/-- The spellings of a literal. The number of elements of the shape of a tensor must not be too
large, and all values must fit the width. -/
inductive Literal.Spelled : Literal → List Char → Prop
  | integer {w : UInt32} {value : UInt64} {n c t : List Char} (hn : NumberSpelled value.toNat n)
      (hc : Token.colon.Spelled c) (ht : (Ty.clear w).Spelled t)
      (hvalue : value.toNat < 1 <<< w.toNat) :
      Spelled (.integer (.clear w) value) (n ++ (c ++ t))
  | dense {shape : Shape} {w : UInt32} {nested : NestedList} {d l e c t : List Char}
      (hd : Token.dense.Spelled d) (hl : nested.Spelled l) (he : Token.close.Spelled e)
      (hc : Token.colon.Spelled c) (ht : (Ty.tensor shape (.clear w)).Spelled t)
      (hshape : nested.HasShape shape) (hcount : shape.count?.isSome = true)
      (hvalues : ∀ value ∈ nested.leaves, value.toNat < 1 <<< w.toNat) :
      Spelled (.dense (.tensor shape (.clear w)) nested.leaves) (d ++ (l ++ (e ++ (c ++ t))))

namespace Literal

/-- The texts of a literal: a spelling, and then nothing but blanks. -/
def IsSpelledBy (l : Literal) (text : String) : Prop :=
  ∃ s blanks, l.Spelled s ∧ AllBlank blanks ∧ text.toList = s ++ blanks

/-! ### The parts of a literal -/

/-- A dense literal is made of a nested list exactly if the list has the shape of the type and its
numbers fit. -/
theorem ofNested_eq_ok_iff {ty : Ty} {nested : NestedList} {l : Literal} :
    ofNested ty nested = .ok l ↔
      ∃ shape w, ty = .tensor shape (.clear w) ∧ nested.HasShape shape ∧
        shape.count?.isSome = true ∧ (∀ value ∈ nested.leaves, value.toNat < 1 <<< w.toNat) ∧
        l = dense (.tensor shape (.clear w)) nested.leaves := by
  constructor
  · intro h
    cases ty with
    | clear w => cases h
    | encrypted w => cases h
    | tensor shape element =>
        obtain ⟨values, hvalues, h⟩ := Except.bind_eq_ok_iff.1 h
        obtain ⟨hshape, rfl⟩ := NestedList.flatten_eq_ok_iff.1 (Except.mapError_eq_ok_iff.1 hvalues)
        cases element with
        | encrypted w => cases h
        | tensor shape' element => cases h
        | clear w =>
            obtain ⟨hcount, hfits, rfl⟩ := ofDense_eq_ok_iff.1 h
            exact ⟨shape, w, rfl, hshape, Option.isSome_of_mem hcount, hfits, rfl⟩
  · rintro ⟨shape, w, rfl, hshape, hcount, hfits, rfl⟩
    have hflatten : nested.flatten shape = .ok nested.leaves :=
      NestedList.flatten_eq_ok_iff.2 ⟨hshape, rfl⟩
    -- The number of elements is the number of the list's numbers, by its shape.
    have hcount : shape.count? = some nested.leaves.length := by
      obtain ⟨n, hn⟩ := Option.isSome_iff_exists.1 hcount
      rw [hn, Shape.count?_eq_some hn, hshape.length_leaves]
    have hdense : ofDense (.tensor shape (.clear w)) nested.leaves
        = .ok (dense (.tensor shape (.clear w)) nested.leaves) :=
      ofDense_eq_ok_iff.2 ⟨hcount, hfits, rfl⟩
    exact Except.bind_eq_ok_iff.2 ⟨_, Except.mapError_eq_ok_iff.2 hflatten, hdense⟩

/-- What is taken off a text behind `dense<` is spelled part by part. -/
theorem exists_spelled_of_readDense {nested : NestedList} {ty : Ty} {s r : List Char}
    (h : readDense s = .ok ((nested, ty), r)) :
    ∃ l e c t, nested.Spelled l ∧ Token.close.Spelled e ∧ Token.colon.Spelled c ∧ ty.Spelled t ∧
      s = l ++ (e ++ (c ++ (t ++ r))) := by
  obtain ⟨⟨nested', u⟩, hnested, h⟩ := Except.bind_eq_ok_iff.1 h
  obtain ⟨v, hclose, h⟩ := Except.bind_eq_ok_iff.1 h
  obtain ⟨x, hcolon, h⟩ := Except.bind_eq_ok_iff.1 h
  obtain ⟨⟨ty', y⟩, hty, h⟩ := Except.bind_eq_ok_iff.1 h
  cases h
  obtain ⟨l, hl, hsl⟩ := NestedList.exists_spelled_of_read hnested
  obtain ⟨e, he, hue⟩ := exists_spelled_of_requireToken hclose
  obtain ⟨c, hc, hvc⟩ := exists_spelled_of_requireToken hcolon
  obtain ⟨t, ht, hxt⟩ := Ty.exists_spelled_of_read hty
  refine ⟨l, e, c, t, hl, he, hc, ht, ?_⟩
  calc s = l ++ u.1 := hsl
    _ = l ++ (e ++ (c ++ (t ++ y.1))) := by simp only [hue, hvc, hxt]

theorem readDense_eq_ok {nested : NestedList} {ty : Ty} {l e c t s r : List Char}
    (hl : nested.Spelled l) (he : Token.close.Spelled e) (hc : Token.colon.Spelled c)
    (ht : ty.Spelled t) (hr : startsWithDigit r = false)
    (hs : s = l ++ (e ++ (c ++ (t ++ r)))) : readDense s = .ok ((nested, ty), r) := by
  obtain ⟨u, hu, hur⟩ := hl.exists_read_eq_ok (he.startsWithDigit_append _) hs
  obtain ⟨v, hv, hvr⟩ := he.exists_requireToken_eq_ok hur
  obtain ⟨x, hx, hxr⟩ := hc.exists_requireToken_eq_ok hvr
  obtain ⟨y, hy, hyr⟩ := ht.exists_read_eq_ok hr hxr
  unfold readDense
  simp only [hu, hv, hx, hy, hyr, Except.ok_bind]
  rfl

/-- What is taken off a text as an integer is spelled part by part. -/
theorem exists_spelled_of_readInteger {value : UInt64} {ty : Ty} {s r : List Char}
    (h : readInteger s = .ok ((value, ty), r)) :
    ∃ n c t, NumberSpelled value.toNat n ∧ Token.colon.Spelled c ∧ ty.Spelled t ∧
      s = n ++ (c ++ (t ++ r)) := by
  obtain ⟨⟨value', u⟩, hvalue, h⟩ := Except.bind_eq_ok_iff.1 h
  obtain ⟨v, hcolon, h⟩ := Except.bind_eq_ok_iff.1 h
  obtain ⟨⟨ty', x⟩, hty, h⟩ := Except.bind_eq_ok_iff.1 h
  cases h
  obtain ⟨n, hn, hsn⟩ := exists_spelled_of_number hvalue
  obtain ⟨c, hc, huc⟩ := exists_spelled_of_requireToken hcolon
  obtain ⟨t, ht, hvt⟩ := Ty.exists_spelled_of_read hty
  refine ⟨n, c, t, hn, hc, ht, ?_⟩
  calc s = n ++ u.1 := hsn
    _ = n ++ (c ++ (t ++ x.1)) := by simp only [huc, hvt]

theorem readInteger_eq_ok {value : UInt64} {ty : Ty} {n c t s r : List Char}
    (hn : NumberSpelled value.toNat n) (hc : Token.colon.Spelled c) (ht : ty.Spelled t)
    (hr : startsWithDigit r = false) (hs : s = n ++ (c ++ (t ++ r))) :
    readInteger s = .ok ((value, ty), r) := by
  obtain ⟨u, hu, hur⟩ := hn.exists_number_eq_ok (hc.startsWithDigit_append _) hs
  obtain ⟨v, hv, hvr⟩ := hc.exists_requireToken_eq_ok hur
  obtain ⟨x, hx, hxr⟩ := ht.exists_read_eq_ok hr hvr
  unfold readInteger
  simp only [hu, hv, hx, hxr, Except.ok_bind]
  rfl

/-! ### Whole texts -/

/-- A text that goes on with `dense<` is read as a literal exactly if its nested list and type make
the literal and only blanks follow. -/
theorem parse_eq_ok_iff_readDense {text : String} {l : Literal} {q : Rest text.toList}
    (hdense : token? .dense text.toList = some q) :
    parse text = .ok l ↔ ∃ nested ty r, readDense q.1 = .ok ((nested, ty), r) ∧
      ofNested ty nested = .ok l ∧ AllBlank r := by
  unfold parse
  simp only [hdense, Except.bind_eq_ok_iff, Except.mapError_eq_ok_iff, requireEnd_eq_ok_iff,
    skipBlanks_eq_nil_iff, pure, Except.pure, Except.ok.injEq]
  constructor
  · rintro ⟨⟨⟨nested, ty⟩, r⟩, hread, l', hl, -, hr, rfl⟩
    exact ⟨nested, ty, r, hread, hl, hr⟩
  · rintro ⟨nested, ty, r, hread, hl, hr⟩
    exact ⟨((nested, ty), r), hread, l, hl, (), hr, rfl⟩

theorem parse_eq_ok_iff_readInteger {text : String} {l : Literal}
    (hdense : token? .dense text.toList = none) :
    parse text = .ok l ↔ ∃ value ty r, readInteger text.toList = .ok ((value, ty), r) ∧
      ofInteger ty value = .ok l ∧ AllBlank r := by
  unfold parse
  simp only [hdense, Except.bind_eq_ok_iff, Except.mapError_eq_ok_iff, requireEnd_eq_ok_iff,
    skipBlanks_eq_nil_iff, pure, Except.pure, Except.ok.injEq]
  constructor
  · rintro ⟨⟨⟨value, ty⟩, r⟩, hread, l', hl, -, hr, rfl⟩
    exact ⟨value, ty, r, hread, hl, hr⟩
  · rintro ⟨value, ty, r, hread, hl, hr⟩
    exact ⟨((value, ty), r), hread, l, hl, (), hr, rfl⟩

/-- What is read as a literal spells the literal. -/
theorem isSpelledBy_of_parse {text : String} {l : Literal} (h : parse text = .ok l) :
    l.IsSpelledBy text := by
  cases hdense : token? .dense text.toList with
  | some q =>
      obtain ⟨nested, ty, r, hread, hl, hr⟩ := (parse_eq_ok_iff_readDense hdense).1 h
      obtain ⟨d, hd, hsd⟩ := exists_spelled_of_token? hdense
      obtain ⟨s, e, c, t, hs, he, hc, ht, hq⟩ := exists_spelled_of_readDense hread
      obtain ⟨shape, w, rfl, hshape, hcount, hfits, rfl⟩ := ofNested_eq_ok_iff.1 hl
      refine ⟨_, r, .dense hd hs he hc ht hshape hcount hfits, hr, ?_⟩
      simp only [hsd, hq, List.append_assoc]
  | none =>
      obtain ⟨value, ty, r, hread, hl, hr⟩ := (parse_eq_ok_iff_readInteger hdense).1 h
      obtain ⟨n, c, t, hn, hc, ht, hs⟩ := exists_spelled_of_readInteger hread
      cases ty with
      | encrypted w => cases hl
      | tensor shape element => cases hl
      | clear w =>
          obtain ⟨-, hfits, rfl⟩ := ofInteger_clear_eq_ok_iff.1 hl
          refine ⟨_, r, .integer hn hc ht hfits, hr, ?_⟩
          simp only [hs, List.append_assoc]

theorem parse_eq_ok_of_spelled {text : String} {l : Literal} {s blanks : List Char}
    (hs : l.Spelled s) (hblanks : AllBlank blanks) (htext : text.toList = s ++ blanks) :
    parse text = .ok l := by
  have hend : startsWithDigit blanks = false := startsWithDigit_of_allBlank hblanks
  cases hs with
  | @integer w value n c t hn hc ht hvalue =>
      have htext : text.toList = n ++ (c ++ (t ++ blanks)) := by
        simpa only [List.append_assoc] using htext
      -- A number starts with a digit, which starts no dense literal.
      have hdense : token? .dense text.toList = none :=
        token?_eq_none_of_startsWithDigit (htext ▸ hn.startsWithDigit_skipBlanks _)
      have hw : w ≠ 0 := by
        cases ht with
        | clear hi hm hw => exact hw
      have hread := readInteger_eq_ok hn hc ht hend htext
      have hmade := ofInteger_clear_eq_ok_iff.2 ⟨hw, hvalue, rfl⟩
      exact (parse_eq_ok_iff_readInteger hdense).2 ⟨value, _, blanks, hread, hmade, hblanks⟩
  | @dense shape w nested d l e c t hd hl he hc ht hshape hcount hvalues =>
      have htext : text.toList = d ++ (l ++ (e ++ (c ++ (t ++ blanks)))) := by
        simpa only [List.append_assoc] using htext
      obtain ⟨q, hq, hqr⟩ := hd.exists_token?_eq_some htext
      have hread := readDense_eq_ok hl he hc ht hend hqr
      have hmade := ofNested_eq_ok_iff.2 ⟨shape, w, rfl, hshape, hcount, hvalues, rfl⟩
      exact (parse_eq_ok_iff_readDense hq).2 ⟨nested, _, blanks, hread, hmade, hblanks⟩

/-- A whole text is read as a literal exactly if the grammar says that it spells that literal. -/
theorem parse_iff_isSpelledBy {text : String} {l : Literal} :
    parse text = .ok l ↔ l.IsSpelledBy text := by
  constructor
  · exact isSpelledBy_of_parse
  · rintro ⟨s, blanks, hs, hblanks, htext⟩
    exact parse_eq_ok_of_spelled hs hblanks htext

end Literal

end CipherFlow
