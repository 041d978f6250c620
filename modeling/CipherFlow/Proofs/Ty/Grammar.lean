import CipherFlow.Proofs.Sequencing
import CipherFlow.Proofs.Text.Spelling
import CipherFlow.Ty.Text

/-!
# The grammar of types

`Ty.Spelled` is the grammar of the texts of types, with one rule for each form of a type and any
blanks in front of each token and number. Main statements: what is read as a type is a spelling of
it (`Ty.exists_spelled_of_read`), a spelling is read as its type in front of a text that does not go
on with a digit (`Ty.Spelled.exists_read_eq_ok`), and so a whole text is read as a type exactly if
it is a spelling of the type and then blanks (`Ty.parse_eq_ok_iff`).
-/

set_option autoImplicit false

namespace CipherFlow

open Text

/-- The spellings of the dimensions of a tensor type: a number with `x` behind it for each. -/
inductive Shape.DimsSpelled : Shape → List Char → Prop
  | nil : DimsSpelled [] []
  | cons {d : UInt64} {rest : Shape} {n x s : List Char} (hn : NumberSpelled d.toNat n)
      (hx : Token.times.Spelled x) (hs : DimsSpelled rest s) :
      DimsSpelled (d :: rest) (n ++ (x ++ s))

/-- The spellings of a type. All widths are positive. -/
inductive Ty.Spelled : Ty → List Char → Prop
  | clear {w : UInt32} {i n : List Char} (hi : Token.clear.Spelled i)
      (hn : NumberSpelled w.toNat n) (hw : w ≠ 0) : Spelled (.clear w) (i ++ n)
  | encrypted {w : UInt32} {e n c : List Char} (he : Token.encrypted.Spelled e)
      (hn : NumberSpelled w.toNat n) (hw : w ≠ 0) (hc : Token.close.Spelled c) :
      Spelled (.encrypted w) (e ++ (n ++ c))
  | tensor {shape : Shape} {element : Ty} {t d s c : List Char} (ht : Token.tensor.Spelled t)
      (hd : shape.DimsSpelled d) (hs : element.Spelled s) (hc : Token.close.Spelled c) :
      Spelled (.tensor shape element) (t ++ (d ++ (s ++ c)))

/-- The texts of a type: a spelling, and then nothing but blanks. -/
def Ty.IsSpelledBy (t : Ty) (text : String) : Prop :=
  ∃ s blanks, t.Spelled s ∧ AllBlank blanks ∧ text.toList = s ++ blanks

/-! ## Dimensions -/

namespace Shape

/-- What is taken off a text as dimensions is a spelling of them. -/
theorem exists_dimsSpelled_of_readDims {shape : Shape} {s : List Char}
    {r : { r : List Char // r.length ≤ s.length }} (h : readDims s = .ok (shape, r)) :
    ∃ p, shape.DimsSpelled p ∧ s = p ++ r.1 := by
  obtain ⟨n, hn⟩ : ∃ n, s.length = n := ⟨_, rfl⟩
  -- The dimensions behind the first are read from a rest of the text.
  induction n using Nat.strongRecOn generalizing s shape with
  | ind n ih =>
      subst hn
      rw [readDims] at h
      split at h
      · obtain ⟨⟨d, q⟩, hd, h⟩ := Except.bind_eq_ok_iff.1 h
        obtain ⟨t, ht, h⟩ := Except.bind_eq_ok_iff.1 h
        obtain ⟨⟨rest, u⟩, hrest, h⟩ := Except.bind_eq_ok_iff.1 h
        cases h
        obtain ⟨m, hm, hsm⟩ := exists_spelled_of_number hd
        obtain ⟨x, hx, hqx⟩ := exists_spelled_of_requireToken ht
        obtain ⟨p, hp, htp⟩ := ih t.1.length (Nat.lt_trans t.2 q.2) hrest rfl
        refine ⟨_, .cons hm hx hp, ?_⟩
        calc s = m ++ q.1 := hsm
          _ = (m ++ (x ++ p)) ++ u.1 := by simp only [hqx, htp, List.append_assoc]
      · cases h
        exact ⟨[], .nil, rfl⟩

/-- Dimensions are read from their spelling where no digit follows. -/
theorem DimsSpelled.exists_readDims_eq_ok {shape : Shape} {p r s : List Char}
    (h : shape.DimsSpelled p) (hr : startsWithDigit (skipBlanks r) = false) (hs : s = p ++ r) :
    ∃ q, readDims s = .ok (shape, q) ∧ q.1 = r := by
  induction h generalizing s with
  | nil =>
      have hs : s = r := hs
      subst hs
      rw [readDims, hr]
      exact ⟨_, rfl, rfl⟩
  | @cons d rest n x p hn hx hp ih =>
      have hs : s = n ++ (x ++ (p ++ r)) := by simpa only [List.append_assoc] using hs
      have hdigit : startsWithDigit (skipBlanks s) = true := hs ▸ hn.startsWithDigit_skipBlanks _
      obtain ⟨q, hq, hqr⟩ := hn.exists_number_eq_ok (hx.startsWithDigit_append _) hs
      obtain ⟨t, ht, htr⟩ := hx.exists_requireToken_eq_ok hqr
      obtain ⟨u, hu, hur⟩ := ih htr
      rw [readDims, hdigit]
      simp only [↓reduceIte, hq, ht, hu, Except.ok_bind]
      exact ⟨_, rfl, hur⟩

end Shape

/-! ## Types -/

namespace Ty

/-- What is taken off a text as a type is a spelling of it. -/
theorem exists_spelled_of_read {t : Ty} {s : List Char} {r : Rest s} (h : read s = .ok (t, r)) :
    ∃ p, t.Spelled p ∧ s = p ++ r.1 := by
  obtain ⟨n, hn⟩ : ∃ n, s.length = n := ⟨_, rfl⟩
  -- The element of a tensor is read from a rest of the text.
  induction n using Nat.strongRecOn generalizing s t with
  | ind n ih =>
      subst hn
      rw [read] at h
      split at h
      · next q hq =>
          obtain ⟨⟨w, u⟩, hw, h⟩ := Except.bind_eq_ok_iff.1 h
          obtain ⟨v, hv, h⟩ := Except.bind_eq_ok_iff.1 h
          cases h
          obtain ⟨e, he, hse⟩ := exists_spelled_of_token? hq
          obtain ⟨hpos, m, hm, hqm⟩ := exists_spelled_of_bitWidth hw
          obtain ⟨c, hc, huc⟩ := exists_spelled_of_requireToken hv
          refine ⟨_, .encrypted he hm hpos hc, ?_⟩
          calc s = e ++ q.1 := hse
            _ = (e ++ (m ++ c)) ++ v.1 := by simp only [hqm, huc, List.append_assoc]
      · split at h
        · next q hq =>
            obtain ⟨⟨shape, u⟩, hshape, h⟩ := Except.bind_eq_ok_iff.1 h
            obtain ⟨⟨element, v⟩, helement, h⟩ := Except.bind_eq_ok_iff.1 h
            obtain ⟨y, hy, h⟩ := Except.bind_eq_ok_iff.1 h
            cases h
            have hlt : u.1.length < s.length := Nat.lt_of_le_of_lt u.2 q.2
            obtain ⟨e, he, hue⟩ := ih u.1.length hlt helement rfl
            obtain ⟨b, hb, hsb⟩ := exists_spelled_of_token? hq
            obtain ⟨d, hd, hqd⟩ := Shape.exists_dimsSpelled_of_readDims hshape
            obtain ⟨c, hc, hvc⟩ := exists_spelled_of_requireToken hy
            refine ⟨_, .tensor hb hd he hc, ?_⟩
            calc s = b ++ q.1 := hsb
              _ = (b ++ (d ++ (e ++ c))) ++ y.1 := by
                simp only [hqd, hue, hvc, List.append_assoc]
        · split at h
          · next q hq =>
              obtain ⟨⟨w, u⟩, hw, h⟩ := Except.bind_eq_ok_iff.1 h
              cases h
              obtain ⟨i, hi, hsi⟩ := exists_spelled_of_token? hq
              obtain ⟨hpos, m, hm, hqm⟩ := exists_spelled_of_bitWidth hw
              refine ⟨_, .clear hi hm hpos, ?_⟩
              calc s = i ++ q.1 := hsi
                _ = (i ++ m) ++ u.1 := by simp only [hqm, List.append_assoc]
          · cases h

/-- The spelling of a type starts with a token, so with no digit. -/
theorem Spelled.startsWithDigit_skipBlanks {t : Ty} {p : List Char} (h : t.Spelled p)
    (r : List Char) : startsWithDigit (skipBlanks (p ++ r)) = false := by
  cases h with
  | clear hi hn hw =>
      rw [List.append_assoc, hi.skipBlanks_append]
      exact startsWithDigit_token_append _ _
  | encrypted he hn hw hc =>
      rw [List.append_assoc, he.skipBlanks_append]
      exact startsWithDigit_token_append _ _
  | tensor ht hd hs hc =>
      rw [List.append_assoc, ht.skipBlanks_append]
      exact startsWithDigit_token_append _ _

/-- A type is read from its spelling where no digit follows. -/
theorem Spelled.exists_read_eq_ok {t : Ty} {p r s : List Char} (h : t.Spelled p)
    (hr : startsWithDigit r = false) (hs : s = p ++ r) : ∃ q, read s = .ok (t, q) ∧ q.1 = r := by
  induction h generalizing s r with
  | @clear w i n hi hn hw =>
      have hs : s = i ++ (n ++ r) := by rw [hs, List.append_assoc]
      -- The other two tokens that may start a type differ in their first character.
      have hskip : skipBlanks s = Token.clear.spell ++ (n ++ r) := hs ▸ hi.skipBlanks_append _
      obtain ⟨q, hq, hqr⟩ := hi.exists_token?_eq_some hs
      obtain ⟨u, hu, hur⟩ := hn.exists_bitWidth_eq_ok hw hr hqr
      rw [read, token?_eq_none_of_cons hskip (by decide), token?_eq_none_of_cons hskip (by decide),
        hq]
      simp only [hu, Except.ok_bind]
      exact ⟨_, rfl, hur⟩
  | @encrypted w e n c he hn hw hc =>
      have hs : s = e ++ (n ++ (c ++ r)) := by simpa only [List.append_assoc] using hs
      obtain ⟨q, hq, hqr⟩ := he.exists_token?_eq_some hs
      obtain ⟨u, hu, hur⟩ := hn.exists_bitWidth_eq_ok hw (hc.startsWithDigit_append _) hqr
      obtain ⟨v, hv, hvr⟩ := hc.exists_requireToken_eq_ok hur
      rw [read, hq]
      simp only [hu, hv, Except.ok_bind]
      exact ⟨_, rfl, hvr⟩
  | @tensor shape element t d e c ht hd he hc ih =>
      have hs : s = t ++ (d ++ (e ++ (c ++ r))) := by simpa only [List.append_assoc] using hs
      have hskip : skipBlanks s = Token.tensor.spell ++ (d ++ (e ++ (c ++ r))) :=
        hs ▸ ht.skipBlanks_append _
      obtain ⟨q, hq, hqr⟩ := ht.exists_token?_eq_some hs
      obtain ⟨u, hu, hur⟩ := hd.exists_readDims_eq_ok (he.startsWithDigit_skipBlanks _) hqr
      obtain ⟨v, hv, hvr⟩ := ih (hc.startsWithDigit_append _) hur
      obtain ⟨y, hy, hyr⟩ := hc.exists_requireToken_eq_ok hvr
      rw [read, token?_eq_none_of_cons hskip (by decide), hq]
      simp only [hu, hv, hy, Except.ok_bind]
      exact ⟨_, rfl, hyr⟩

/-- A whole text is read as a type exactly if the grammar says that it spells that type. -/
theorem parse_eq_ok_iff {text : String} {t : Ty} : parse text = .ok t ↔ t.IsSpelledBy text := by
  unfold parse IsSpelledBy
  rw [Except.mapError_eq_ok_iff, Except.bind_eq_ok_iff]
  constructor
  · rintro ⟨⟨t', r⟩, hread, h⟩
    obtain ⟨_, hend, h⟩ := Except.bind_eq_ok_iff.1 h
    cases h
    obtain ⟨p, hp, hs⟩ := exists_spelled_of_read hread
    exact ⟨p, r.1, hp, skipBlanks_eq_nil_iff.1 (requireEnd_eq_ok_iff.1 hend), hs⟩
  · rintro ⟨p, blanks, hp, hblanks, hs⟩
    obtain ⟨q, hq, hqr⟩ := hp.exists_read_eq_ok (startsWithDigit_of_allBlank hblanks) hs
    refine ⟨(t, q), hq, Except.bind_eq_ok_iff.2 ⟨(), requireEnd_eq_ok_iff.2 ?_, rfl⟩⟩
    rw [hqr]
    exact skipBlanks_eq_nil_iff.2 hblanks

end Ty

end CipherFlow
