import CipherFlow.Text.Scan
import Mathlib.Data.List.TakeWhile

/-!
# How tokens and numbers are spelled

The spellings of a token or a number, said without the steps that read them: blanks, and then the
token, or digits that have the value of the number. For each step there are two statements: what it
takes off a text is such a spelling, and such a spelling in front of any rest is taken off, where
the rest behind a number must not go on with a digit.
-/

set_option autoImplicit false

namespace CipherFlow.Text

/-! ## Blanks -/

/-- A text of nothing but blanks. -/
def AllBlank (s : List Char) : Prop := ∀ c ∈ s, isBlank c = true

theorem skipBlanks_eq_nil_iff {s : List Char} : skipBlanks s = [] ↔ AllBlank s := by
  unfold skipBlanks AllBlank
  exact List.dropWhile_eq_nil_iff

theorem skipBlanks_append_of_allBlank {b : List Char} (hb : AllBlank b) (s : List Char) :
    skipBlanks (b ++ s) = skipBlanks s :=
  List.dropWhile_append_of_pos hb

/-- What is skipped is blank. -/
theorem exists_eq_append_skipBlanks (s : List Char) : ∃ b, AllBlank b ∧ s = b ++ skipBlanks s :=
  ⟨s.takeWhile isBlank, fun _ hc => List.all_eq_true.1 List.all_takeWhile _ hc,
    List.takeWhile_append_dropWhile.symm⟩

theorem startsWithDigit_of_allBlank {b : List Char} (hb : AllBlank b) :
    startsWithDigit b = false := by
  cases b with
  | nil => rfl
  | cons c b =>
      have hc : isBlank c = true := hb c List.mem_cons_self
      refine Bool.eq_false_iff.2 fun hd => ?_
      rw [isBlank_of_isDigit hd] at hc
      cases hc

theorem skipBlanks_of_isDigit {c : Char} {s : List Char} (h : c.isDigit = true) :
    skipBlanks (c :: s) = c :: s :=
  skipBlanks_cons_of_not_blank (isBlank_of_isDigit h)

/-! ## Tokens -/

/-- The spellings of a token in a text. -/
inductive Token.Spelled (token : Token) : List Char → Prop
  | mk {blanks : List Char} (hblanks : AllBlank blanks) : Spelled token (blanks ++ token.spell)

/-- No token starts with a blank or a digit. -/
theorem Token.exists_spell_eq_cons (token : Token) :
    ∃ c r, token.spell = c :: r ∧ isBlank c = false ∧ c.isDigit = false := by
  cases token <;> exact ⟨_, _, rfl, by decide, by decide⟩

theorem skipBlanks_token_append (token : Token) (s : List Char) :
    skipBlanks (token.spell ++ s) = token.spell ++ s := by
  obtain ⟨c, r, hc, hb, -⟩ := token.exists_spell_eq_cons
  rw [hc, List.cons_append, skipBlanks_cons_of_not_blank hb]

theorem startsWithDigit_token_append (token : Token) (s : List Char) :
    startsWithDigit (token.spell ++ s) = false := by
  obtain ⟨c, r, hc, -, hd⟩ := token.exists_spell_eq_cons
  rw [hc, List.cons_append, startsWithDigit, hd]

namespace Token.Spelled

variable {token : Token} {p : List Char}

theorem spell (token : Token) : token.Spelled token.spell := @Spelled.mk token [] nofun

/-- More blanks may stand in front. -/
theorem blanks_append (h : token.Spelled p) {b : List Char} (hb : AllBlank b) :
    token.Spelled (b ++ p) := by
  obtain ⟨hblanks⟩ := h
  rw [← List.append_assoc]
  refine .mk fun c hc => ?_
  rcases List.mem_append.1 hc with hc | hc
  · exact hb c hc
  · exact hblanks c hc

theorem skipBlanks_append (h : token.Spelled p) (r : List Char) :
    skipBlanks (p ++ r) = token.spell ++ r := by
  obtain ⟨hblanks⟩ := h
  rw [List.append_assoc, skipBlanks_append_of_allBlank hblanks, skipBlanks_token_append]

/-- A text that goes on with a token goes on with no digit. -/
theorem startsWithDigit_append (h : token.Spelled p) (r : List Char) :
    startsWithDigit (p ++ r) = false := by
  obtain @⟨blanks, hblanks⟩ := h
  cases blanks with
  | nil => exact startsWithDigit_token_append token r
  | cons c blanks =>
      have hdigit : startsWithDigit (c :: blanks) = false := startsWithDigit_of_allBlank hblanks
      exact hdigit

end Token.Spelled

/-! ## Steps that read a token -/

theorem exists_token?_eq_some {token : Token} {s r : List Char}
    (h : skipBlanks s = token.spell ++ r) : ∃ q, token? token s = some q ∧ q.1 = r := by
  have hlt : r.length < s.length := by
    have := length_skipBlanks_le s
    have := token.length_spell_pos
    have := congrArg List.length h
    rw [List.length_append] at this
    omega
  exact ⟨⟨r, hlt⟩, token?_eq_some_iff.2 h, rfl⟩

theorem exists_requireToken_eq_ok {token : Token} {s r : List Char}
    (h : skipBlanks s = token.spell ++ r) : ∃ q, requireToken token s = .ok q ∧ q.1 = r := by
  obtain ⟨q, hq, hr⟩ := exists_token?_eq_some h
  exact ⟨q, requireToken_eq_ok_iff.2 (token?_eq_some_iff.1 hq), hr⟩

/-- A token is not read where the text goes on with a character other than its first. -/
theorem token?_eq_none_of_cons {token : Token} {s t : List Char} {c : Char}
    (h : skipBlanks s = c :: t) (hc : token.spell.head? ≠ some c) : token? token s = none := by
  rw [token?_eq_none_iff, h]
  rintro ⟨r, hr⟩
  cases htok : token.spell with
  | nil => exact token.spell_ne_nil htok
  | cons d r =>
      rw [htok] at hr hc
      simp_all

/-- No token is read where the text goes on with a digit. -/
theorem token?_eq_none_of_startsWithDigit {token : Token} {s : List Char}
    (h : startsWithDigit (skipBlanks s) = true) : token? token s = none := by
  rw [token?_eq_none_iff]
  rintro ⟨r, hr⟩
  rw [← hr, startsWithDigit_token_append] at h
  cases h

/-- What is taken off a text as a token is a spelling of it. -/
theorem exists_spelled_of_token? {token : Token} {s : List Char} {r : Rest s}
    (h : token? token s = some r) : ∃ p, token.Spelled p ∧ s = p ++ r.1 := by
  obtain ⟨b, hb, hs⟩ := exists_eq_append_skipBlanks s
  rw [token?_eq_some_iff.1 h, ← List.append_assoc] at hs
  exact ⟨_, .mk hb, hs⟩

theorem exists_spelled_of_requireToken {token : Token} {s : List Char} {r : Rest s}
    (h : requireToken token s = .ok r) : ∃ p, token.Spelled p ∧ s = p ++ r.1 :=
  exists_spelled_of_token? (token?_eq_some_iff.2 (requireToken_eq_ok_iff.1 h))

theorem Token.Spelled.exists_token?_eq_some {token : Token} {p r s : List Char}
    (h : token.Spelled p) (hs : s = p ++ r) : ∃ q, token? token s = some q ∧ q.1 = r :=
  Text.exists_token?_eq_some (hs ▸ h.skipBlanks_append r)

theorem Token.Spelled.exists_requireToken_eq_ok {token : Token} {p r s : List Char}
    (h : token.Spelled p) (hs : s = p ++ r) : ∃ q, requireToken token s = .ok q ∧ q.1 = r :=
  Text.exists_requireToken_eq_ok (hs ▸ h.skipBlanks_append r)

/-! ## Numbers -/

/-- The spellings of a number in a text, with leading zeros or without. -/
inductive NumberSpelled (n : Nat) : List Char → Prop
  | mk {blanks ds : List Char} (hblanks : AllBlank blanks) (hne : ds ≠ [])
      (hds : ∀ c ∈ ds, c.isDigit = true) (hvalue : value ds = n) : NumberSpelled n (blanks ++ ds)

theorem skipBlanks_digits_append (n : Nat) (s : List Char) :
    skipBlanks (digits n ++ s) = digits n ++ s := by
  obtain ⟨c, r, hc, hd⟩ := exists_digits_eq_cons n
  rw [hc, List.cons_append, skipBlanks_of_isDigit hd]

theorem numberSpelled_digits (n : Nat) : NumberSpelled n (digits n) :=
  @NumberSpelled.mk n [] (digits n) nofun (digits_ne_nil n) (fun _ hc => isDigit_of_mem_digits hc)
    (value_digits n)

theorem NumberSpelled.exists_skipBlanks_eq {n : Nat} {p : List Char} (h : NumberSpelled n p)
    (r : List Char) : ∃ ds, ds ≠ [] ∧ (∀ c ∈ ds, c.isDigit = true) ∧ value ds = n ∧
      skipBlanks (p ++ r) = ds ++ r := by
  obtain @⟨blanks, ds, hblanks, hne, hds, hvalue⟩ := h
  refine ⟨ds, hne, hds, hvalue, ?_⟩
  rw [List.append_assoc, skipBlanks_append_of_allBlank hblanks]
  cases ds with
  | nil => exact absurd rfl hne
  | cons d ds => exact skipBlanks_of_isDigit (hds d List.mem_cons_self)

/-- Behind its blanks, a text that goes on with a number goes on with a digit. -/
theorem NumberSpelled.startsWithDigit_skipBlanks {n : Nat} {p : List Char} (h : NumberSpelled n p)
    (r : List Char) : startsWithDigit (skipBlanks (p ++ r)) = true := by
  obtain ⟨ds, hne, hds, -, hskip⟩ := h.exists_skipBlanks_eq r
  rw [hskip]
  cases ds with
  | nil => exact absurd rfl hne
  | cons d ds => exact hds d List.mem_cons_self

/-! ## Steps that read a number -/

/-- What is taken off a text as a number is a spelling of it. -/
theorem exists_spelled_of_number {s : List Char} {n : UInt64} {r : Rest s}
    (h : number s = .ok (n, r)) : ∃ p, NumberSpelled n.toNat p ∧ s = p ++ r.1 := by
  obtain ⟨ds, hne, hds, -, hskip, hvalue⟩ := number_eq_ok_iff.1 h
  obtain ⟨b, hb, hs⟩ := exists_eq_append_skipBlanks s
  rw [hskip, ← List.append_assoc] at hs
  exact ⟨_, .mk hb hne hds hvalue, hs⟩

theorem exists_spelled_of_bitWidth {s : List Char} {w : UInt32} {r : Rest s}
    (h : bitWidth s = .ok (w, r)) : w ≠ 0 ∧ ∃ p, NumberSpelled w.toNat p ∧ s = p ++ r.1 := by
  obtain ⟨hw, hn⟩ := bitWidth_eq_ok_iff.1 h
  obtain ⟨p, hp, hs⟩ := exists_spelled_of_number hn
  exact ⟨hw, p, by simpa using hp, hs⟩

theorem NumberSpelled.exists_number_eq_ok {n : UInt64} {p r s : List Char}
    (h : NumberSpelled n.toNat p) (hr : startsWithDigit r = false) (hs : s = p ++ r) :
    ∃ q, number s = .ok (n, q) ∧ q.1 = r := by
  obtain ⟨ds, hne, hds, hvalue, hskip⟩ := h.exists_skipBlanks_eq r
  rw [← hs] at hskip
  have hlt : r.length < s.length := by
    have := length_skipBlanks_le s
    have := List.length_pos_iff.2 hne
    have := congrArg List.length hskip
    rw [List.length_append] at this
    omega
  exact ⟨⟨r, hlt⟩, number_eq_ok_iff.2 ⟨ds, hne, hds, hr, hskip, hvalue⟩, rfl⟩

theorem NumberSpelled.exists_bitWidth_eq_ok {w : UInt32} {p r s : List Char}
    (h : NumberSpelled w.toNat p) (hw : w ≠ 0) (hr : startsWithDigit r = false) (hs : s = p ++ r) :
    ∃ q, bitWidth s = .ok (w, q) ∧ q.1 = r := by
  have h : NumberSpelled w.toUInt64.toNat p := by simpa using h
  obtain ⟨q, hq, hqr⟩ := h.exists_number_eq_ok hr hs
  exact ⟨q, bitWidth_eq_ok_iff.2 ⟨hw, hq⟩, hqr⟩

theorem exists_number_eq_ok {s r : List Char} {n : UInt64}
    (h : skipBlanks s = digits n.toNat ++ r) (hr : startsWithDigit r = false) :
    ∃ q, number s = .ok (n, q) ∧ q.1 = r := by
  obtain ⟨b, hb, hs⟩ := exists_eq_append_skipBlanks s
  have hn : NumberSpelled n.toNat (b ++ digits n.toNat) :=
    .mk hb (digits_ne_nil _) (fun _ hc => isDigit_of_mem_digits hc) (value_digits _)
  exact hn.exists_number_eq_ok hr (by rw [List.append_assoc, ← h, ← hs])

/-- A width of zero is refused. -/
theorem bitWidth_eq_zeroWidth {s r : List Char} (h : skipBlanks s = digits 0 ++ r)
    (hr : startsWithDigit r = false) : bitWidth s = .error .zeroWidth := by
  have h : skipBlanks s = digits (0 : UInt64).toNat ++ r := h
  obtain ⟨q, hq, -⟩ := exists_number_eq_ok h hr
  unfold bitWidth
  rw [hq]
  rfl

end CipherFlow.Text
