import CipherFlow.Text.Blank
import CipherFlow.Text.Numeral
import CipherFlow.Text.Token

/-!
# Scanning a text

A place in a text is the rest that is left there. A scanning step takes the text at its place and
gives back what it read with the rest behind it, which is strictly shorter (`Rest`); so a reader
built from steps ends without further argument, and no place lies outside the text. A step that
refuses says where and why (`Fault`); `Fault.locate` turns the place into a byte offset once the
whole text is at hand.
-/

set_option autoImplicit false

namespace CipherFlow.Text

/-! ## Faults -/

/-- What a reader finds missing or wrong at some place of a text. -/
inductive Complaint
  | missing (token : Token)
  | missingNumber
  | numberTooLarge
  | widthTooLarge
  | missingType
  | trailingInput
  deriving DecidableEq, Repr

def Complaint.message : Complaint → String
  | .missing token => s!"expected `{token}`"
  | .missingNumber => "expected an unsigned integer"
  | .numberTooLarge => "number too large to fit in target type"
  | .widthTooLarge => "bit width is too large"
  | .missingType => "expected a type"
  | .trailingInput => "unexpected trailing input"

/-- Why a text is refused: it has an integer type of width zero, or a complaint at a place.
The place is the rest of the text while reading, and a byte offset afterwards. -/
inductive Fault (π : Type)
  | zeroWidth
  | unexpected (place : π) (complaint : Complaint)
  deriving DecidableEq, Repr

def byteSize : List Char → Nat
  | [] => 0
  | c :: s => c.utf8Size + byteSize s

/-- The fault with its place as a byte offset into `text`, of which the place is a rest. -/
def Fault.locate (text : List Char) : Fault (List Char) → Fault Nat
  | .zeroWidth => .zeroWidth
  | .unexpected rest complaint => .unexpected (byteSize text - byteSize rest) complaint

/-! ## Steps -/

/-- What is left of `s` behind at least one character of it. -/
abbrev Rest (s : List Char) := { r : List Char // r.length < s.length }

def Rest.trans {s : List Char} (r : Rest s) (q : Rest r.1) : Rest s :=
  ⟨q.1, Nat.lt_trans q.2 r.2⟩

/-- The text behind `token` and any blanks before it, if it goes on so. -/
def token? (token : Token) (s : List Char) : Option (Rest s) :=
  if h : token.spell <+: skipBlanks s then
    some ⟨(skipBlanks s).drop token.spell.length, by
      have := token.length_spell_pos
      have := h.length_le
      have := length_skipBlanks_le s
      rw [List.length_drop]
      omega⟩
  else
    none

def requireToken (token : Token) (s : List Char) : Except (Fault (List Char)) (Rest s) :=
  match token? token s with
  | some r => .ok r
  | none => .error (.unexpected (skipBlanks s) (.missing token))

def number (s : List Char) : Except (Fault (List Char)) (UInt64 × Rest s) :=
  if h : (skipBlanks s).takeWhile Char.isDigit = [] then
    .error (.unexpected (skipBlanks s) .missingNumber)
  else if small : value ((skipBlanks s).takeWhile Char.isDigit) < UInt64.size then
    .ok (.ofNatLT _ small, ⟨(skipBlanks s).dropWhile Char.isDigit,
      Nat.lt_of_lt_of_le (length_dropWhile_isDigit_lt h) (length_skipBlanks_le s)⟩)
  else
    .error (.unexpected (skipBlanks s) .numberTooLarge)

def bitWidth (s : List Char) : Except (Fault (List Char)) (UInt32 × Rest s) :=
  match number s with
  | .error fault => .error fault
  | .ok (n, r) =>
      -- The place is the end of the number here, while a number too large is reported at its start.
      if UInt32.size ≤ n.toNat then .error (.unexpected r.1 .widthTooLarge)
      else if n = 0 then .error .zeroWidth
      else .ok (n.toUInt32, r)

def requireEnd (s : List Char) : Except (Fault (List Char)) Unit :=
  if skipBlanks s = [] then .ok ()
  else .error (.unexpected (skipBlanks s) .trailingInput)

/-! ## What the steps read -/

theorem token?_eq_some_iff {token : Token} {s : List Char} {r : Rest s} :
    token? token s = some r ↔ skipBlanks s = token.spell ++ r.1 := by
  unfold token?
  split
  · next h =>
      obtain ⟨t, ht⟩ := h
      simp only [Option.some.injEq]
      constructor
      · rintro rfl
        simp [← ht]
      · intro hr
        apply Subtype.ext
        simp [hr]
  · next h =>
      simp only [reduceCtorEq, false_iff]
      intro hr
      exact h ⟨r.1, hr.symm⟩

theorem token?_eq_none_iff {token : Token} {s : List Char} :
    token? token s = none ↔ ¬ token.spell <+: skipBlanks s := by
  simp [token?]

theorem requireToken_eq_ok_iff {token : Token} {s : List Char} {r : Rest s} :
    requireToken token s = .ok r ↔ skipBlanks s = token.spell ++ r.1 := by
  rw [← token?_eq_some_iff]
  unfold requireToken
  split <;> simp_all

/-- A number is read when, behind blanks, the text is a run of digits with that value, and a
rest that does not go on with a digit. -/
theorem number_eq_ok_iff {s : List Char} {n : UInt64} {r : Rest s} :
    number s = .ok (n, r) ↔
      ∃ ds, ds ≠ [] ∧ (∀ c ∈ ds, c.isDigit = true) ∧ startsWithDigit r.1 = false ∧
        skipBlanks s = ds ++ r.1 ∧ value ds = n.toNat := by
  constructor
  · intro h
    unfold number at h
    split at h
    · simp at h
    · next hne =>
        split at h
        · simp only [Except.ok.injEq, Prod.mk.injEq] at h
          obtain ⟨rfl, rfl⟩ := h
          exact ⟨_, hne, fun c hc => List.all_eq_true.1 List.all_takeWhile c hc,
            startsWithDigit_dropWhile _, List.takeWhile_append_dropWhile.symm, by simp⟩
        · simp at h
  · rintro ⟨ds, hne, hds, hr, hs, hv⟩
    have ht : (skipBlanks s).takeWhile Char.isDigit = ds := by
      rw [hs, List.takeWhile_append_of_pos hds, takeWhile_isDigit_eq_nil hr, List.append_nil]
    have hd : (skipBlanks s).dropWhile Char.isDigit = r.1 := by
      rw [hs, List.dropWhile_append_of_pos hds, dropWhile_isDigit_eq_self hr]
    unfold number
    rw [dif_neg (by rw [ht]; exact hne), dif_pos (by rw [ht, hv]; exact n.toNat_lt)]
    simp only [Except.ok.injEq, Prod.mk.injEq]
    refine ⟨?_, Subtype.ext hd⟩
    apply UInt64.toNat_inj.1
    rw [UInt64.toNat_ofNatLT, ht, hv]

theorem bitWidth_eq_ok_iff {s : List Char} {w : UInt32} {r : Rest s} :
    bitWidth s = .ok (w, r) ↔ w ≠ 0 ∧ number s = .ok (w.toUInt64, r) := by
  unfold bitWidth
  split
  · next h => simp [h]
  · next n q h =>
      rw [h]
      have hw : w.toUInt64.toNat = w.toNat := by simp
      have hlt : w.toNat < UInt32.size := w.toNat_lt
      split
      -- A number of more than 32 bits is no width, and no width is widened to it.
      · next hbig =>
          simp only [reduceCtorEq, Except.ok.injEq, Prod.mk.injEq, false_iff, not_and]
          rintro - rfl
          omega
      · next hsmall =>
          -- From here on nothing is lost between the number and the width.
          have hn : n.toUInt32.toNat = n.toNat := by
            simp only [UInt64.toNat_toUInt32]
            exact Nat.mod_eq_of_lt (Nat.lt_of_not_le hsmall)
          split
          · next h0 =>
              subst h0
              simp only [reduceCtorEq, Except.ok.injEq, Prod.mk.injEq, false_iff, not_and]
              intro hne heq
              exact absurd (UInt32.toNat_inj.1 (by rw [← hw, ← heq]; rfl)) hne
          · next h0 =>
              simp only [Except.ok.injEq, Prod.mk.injEq]
              constructor
              · rintro ⟨rfl, rfl⟩
                refine ⟨fun hz => h0 ?_, ?_, rfl⟩
                · apply UInt64.toNat_inj.1
                  rw [← hn, hz]
                  rfl
                · apply UInt64.toNat_inj.1
                  rw [hw, hn]
              · rintro ⟨hne, rfl, rfl⟩
                refine ⟨?_, rfl⟩
                apply UInt32.toNat_inj.1
                rw [hn, hw]

theorem requireEnd_eq_ok_iff {s : List Char} {u : Unit} :
    requireEnd s = .ok u ↔ skipBlanks s = [] := by
  unfold requireEnd
  split <;> simp_all

end CipherFlow.Text
