import CipherFlow.Proofs.Literal.RoundTrip

/-!
# Which literals can be built

An integer fits when it is below the power of two that its width names, and a dense literal is built
when its values fit and are as many as its shape has elements. Main statements: both ways to build a
dense literal, directly and through its text, accept the same values and give the same literal
(`DenseBuilder.build_eq_ok_iff`), and what they refuse they refuse for the same reason
(`DenseBuilder.native_agrees_textual`).
-/

set_option autoImplicit false

namespace CipherFlow

theorem Shape.count_eq_ok_iff {shape : Shape} {n : Nat} :
    shape.count = .ok n ↔ shape.count? = some n := by
  unfold count
  split <;> simp_all

/-- Whether an error is about the width, the values or the way they fit together. The other errors
are about a text or about a way to build. -/
def LiteralError.isAboutParts : LiteralError → Bool
  | zeroWidth => true
  | outOfRange _ _ => true
  | malformed _ => true
  | unsupportedWidth _ => false
  | unexpected _ _ => false

theorem Shape.isAboutParts_of_count_eq_error {shape : Shape} {e : LiteralError}
    (h : shape.count = .error e) : e.isAboutParts = true := by
  unfold count at h
  split at h
  · simp at h
  · cases h
    rfl

namespace Literal

theorem requireFits_eq_ok_iff {w : UInt32} {v : UInt64} {u : Unit} :
    requireFits w v = .ok u ↔ v.toNat < 1 <<< w.toNat := by
  rw [← fits_iff]
  unfold requireFits
  split <;> simp_all

theorem eq_outOfRange_of_requireFits {w : UInt32} {v : UInt64} {e : LiteralError}
    (h : requireFits w v = .error e) : e = .outOfRange v w := by
  unfold requireFits at h
  split at h
  · simp at h
  · cases h
    rfl

/-! ## Integers -/

theorem ofInteger_clear_eq_ok_iff {w : UInt32} {v : UInt64} {l : Literal} :
    ofInteger (.clear w) v = .ok l ↔
      w ≠ 0 ∧ v.toNat < 1 <<< w.toNat ∧ l = integer (.clear w) v := by
  rw [← requireFits_eq_ok_iff (u := ())]
  unfold ofInteger
  by_cases hw : w = 0
  · subst hw
    simp [throw, throwThe, MonadExceptOf.throw]
  · simp only [ne_eq, hw, not_false_eq_true, true_and]
    cases requireFits w v with
    | error e => simp
    | ok u => simp [pure, Except.pure, eq_comm]

theorem isAboutParts_of_ofInteger_clear {w : UInt32} {v : UInt64} {e : LiteralError}
    (h : ofInteger (.clear w) v = .error e) : e.isAboutParts = true := by
  unfold ofInteger at h
  by_cases hw : w = 0
  · subst hw
    cases h
    rfl
  · simp only [if_neg hw] at h
    cases hf : requireFits w v with
    | error e' =>
        rw [hf] at h
        cases h
        rw [eq_outOfRange_of_requireFits hf]
        rfl
    | ok u =>
        rw [hf] at h
        cases h

/-! ## Tensors -/

theorem ofDense_eq_ok_iff {shape : Shape} {w : UInt32} {values : List UInt64} {l : Literal} :
    ofDense (.tensor shape (.clear w)) values = .ok l ↔
      shape.count? = some values.length ∧ (∀ v ∈ values, v.toNat < 1 <<< w.toNat) ∧
        l = dense (.tensor shape (.clear w)) values := by
  have hfits : (∀ v ∈ values, v.toNat < 1 <<< w.toNat) ↔
      values.forM (requireFits w) = .ok () := by
    rw [Except.forM_eq_ok_iff]
    exact forall₂_congr fun v _ => requireFits_eq_ok_iff.symm
  rw [hfits, ← Shape.count_eq_ok_iff]
  simp only [ofDense]
  cases shape.count with
  | error e => simp
  | ok n =>
      simp only [Except.ok_bind, Except.ok.injEq]
      by_cases hn : n = values.length
      · rw [if_neg (not_not_intro hn)]
        simp only [Except.bind_eq_ok_iff, pure, Except.pure, Except.ok.injEq]
        constructor
        · rintro ⟨⟨⟩, hf, rfl⟩
          exact ⟨hn, hf, rfl⟩
        · rintro ⟨-, hf, rfl⟩
          exact ⟨(), hf, rfl⟩
      · simp [hn, throw, throwThe, MonadExceptOf.throw]

theorem isAboutParts_of_ofDense {shape : Shape} {w : UInt32} {values : List UInt64}
    {e : LiteralError} (h : ofDense (.tensor shape (.clear w)) values = .error e) :
    e.isAboutParts = true := by
  unfold ofDense at h
  rcases Except.bind_eq_error_iff.1 h with hc | ⟨n, -, h⟩
  · exact Shape.isAboutParts_of_count_eq_error hc
  · by_cases hn : n = values.length
    · rw [if_neg (not_not_intro hn)] at h
      rcases Except.bind_eq_error_iff.1 h with hf | ⟨-, -, h⟩
      · obtain ⟨v, -, hv⟩ := Except.exists_of_forM_eq_error hf
        rw [eq_outOfRange_of_requireFits hv]
        rfl
      · cases h
    · rw [if_pos hn] at h
      cases h
      rfl

end Literal

/-! ## Builders -/

theorem nestedText_eq_ok_iff {shape : Shape} {values : List UInt64} {text : List Char} :
    nestedText shape values = .ok text ↔
      shape.count? = some values.length ∧ text = spellNested shape values := by
  rw [← Shape.count_eq_ok_iff]
  unfold nestedText
  cases shape.count with
  | error e => simp
  | ok n =>
      simp only [Except.ok_bind, Except.ok.injEq]
      by_cases hn : n = values.length
      · simp [hn, pure, Except.pure, eq_comm]
      · simp [hn, throw, throwThe, MonadExceptOf.throw]

theorem isAboutParts_of_nestedText {shape : Shape} {values : List UInt64} {e : LiteralError}
    (h : nestedText shape values = .error e) : e.isAboutParts = true := by
  unfold nestedText at h
  rcases Except.bind_eq_error_iff.1 h with hc | ⟨n, -, h⟩
  · exact Shape.isAboutParts_of_count_eq_error hc
  · split at h
    · cases h
    · cases h
      rfl

namespace DenseBuilder

theorem build_native {shape : Shape} {w : UInt32} {values : List UInt64}
    (h : native.takes w = true) :
    native.build shape w values
      = if w = 0 then .error .zeroWidth else Literal.ofDense (.tensor shape (.clear w)) values := by
  unfold build
  by_cases hw : w = 0
  · subst hw
    rfl
  · simp [hw, h]

/-- The builder through the text does, if it can write the text, what the direct one does. -/
theorem build_textual {shape : Shape} {w : UInt32} {values : List UInt64} :
    textual.build shape w values
      = nestedText shape values >>= fun _ =>
        if w = 0 then .error .zeroWidth
        else Literal.ofDense (.tensor shape (.clear w)) values := by
  unfold build
  cases h : nestedText shape values with
  | error e => rfl
  | ok text =>
      obtain ⟨hcount, rfl⟩ := nestedText_eq_ok_iff.1 h
      have hparse := Literal.parse_spell_dense (w := w) (Shape.count?_eq_some hcount)
      simpa only [Except.ok_bind, Literal.spell, Ty.shape?, Option.getD_some] using hparse

/-- Every builder builds the literals of positive width whose values fit and fill the shape. -/
theorem build_eq_ok_iff {builder : DenseBuilder} {shape : Shape} {w : UInt32}
    {values : List UInt64} {l : Literal} (h : builder.takes w = true) :
    builder.build shape w values = .ok l ↔
      w ≠ 0 ∧ shape.count? = some values.length ∧ (∀ v ∈ values, v.toNat < 1 <<< w.toNat) ∧
        l = .dense (.tensor shape (.clear w)) values := by
  have hdirect : (if w = 0 then .error .zeroWidth
      else Literal.ofDense (.tensor shape (.clear w)) values) = .ok l ↔
        w ≠ 0 ∧ Literal.ofDense (.tensor shape (.clear w)) values = .ok l := by
    split <;> simp_all
  rw [← Literal.ofDense_eq_ok_iff]
  cases builder with
  | native => rw [build_native h, hdirect]
  | textual =>
      -- The text can be written whenever the literal can be built directly.
      rw [build_textual, Except.bind_eq_ok_iff]
      simp only [hdirect, nestedText_eq_ok_iff]
      constructor
      · rintro ⟨-, -, hl⟩
        exact hl
      · intro hl
        exact ⟨_, ⟨(Literal.ofDense_eq_ok_iff.1 hl.2).1, rfl⟩, hl⟩

/-- A builder that takes the width refuses a literal only for its parts. -/
theorem isAboutParts_of_build {builder : DenseBuilder} {shape : Shape} {w : UInt32}
    {values : List UInt64} {e : LiteralError} (h : builder.takes w = true)
    (he : builder.build shape w values = .error e) : e.isAboutParts = true := by
  have hdirect (h : (if w = 0 then .error .zeroWidth
      else Literal.ofDense (.tensor shape (.clear w)) values) = .error e) :
        e.isAboutParts = true := by
    split at h
    · cases h
      rfl
    · exact Literal.isAboutParts_of_ofDense h
  cases builder with
  | native =>
      rw [build_native h] at he
      exact hdirect he
  | textual =>
      rw [build_textual] at he
      rcases Except.bind_eq_error_iff.1 he with he | ⟨-, -, he⟩
      · exact isAboutParts_of_nestedText he
      · exact hdirect he

/-- A literal is built only by a builder that takes its width. -/
theorem takes_of_build {builder : DenseBuilder} {shape : Shape} {w : UInt32}
    {values : List UInt64} {l : Literal} (h : builder.build shape w values = .ok l) :
    builder.takes w = true := by
  cases builder with
  | textual => rfl
  | native =>
      by_contra htakes
      have htakes : native.takes w = false := by simpa using htakes
      by_cases hw : w = 0 <;> simp [build, hw, htakes, throw, throwThe, MonadExceptOf.throw] at h

end DenseBuilder

/-! ## Refusals of the two builders -/

/-- Errors that differ at most in how parts of a literal fail to fit together. -/
inductive LiteralError.Alike : LiteralError → LiteralError → Prop
  | same (error : LiteralError) : Alike error error
  | malformed (misfit misfit' : Misfit) : Alike (.malformed misfit) (.malformed misfit')

/-- What goes on with the number of elements only if there are so many, is refused as malformed for
any other shape. -/
theorem Shape.exists_count_bind_eq_malformed {α : Type} {shape : Shape} {count : Nat}
    {f : Nat → Except LiteralError α} (h : shape.count? ≠ some count)
    (hf : ∀ n, n ≠ count → ∃ misfit, f n = .error (.malformed misfit)) :
    ∃ misfit, (shape.count >>= f) = .error (.malformed misfit) := by
  unfold Shape.count
  cases hcount : shape.count? with
  | none => exact ⟨_, rfl⟩
  | some n =>
      refine hf n ?_
      rintro rfl
      exact h hcount

theorem Literal.exists_ofDense_eq_malformed {shape : Shape} {w : UInt32} {values : List UInt64}
    (h : shape.count? ≠ some values.length) :
    ∃ misfit, ofDense (.tensor shape (.clear w)) values = .error (.malformed misfit) := by
  refine Shape.exists_count_bind_eq_malformed h fun n hn => ?_
  rw [if_pos hn]
  exact ⟨_, rfl⟩

theorem exists_nestedText_eq_malformed {shape : Shape} {values : List UInt64}
    (h : shape.count? ≠ some values.length) :
    ∃ misfit, nestedText shape values = .error (.malformed misfit) := by
  refine Shape.exists_count_bind_eq_malformed h fun n hn => ?_
  rw [if_neg hn]
  exact ⟨_, rfl⟩

namespace DenseBuilder

theorem takes_native_iff {w : UInt32} : native.takes w = true ↔ w ∈ nativeWidths := by
  simp [takes]

/-- Where there is a direct form, the two builders give the same literal, or they refuse it for the
same reason. -/
theorem native_agrees_textual {w : UInt32} (h : w ∈ nativeWidths) (shape : Shape)
    (values : List UInt64) :
    (∃ l, native.build shape w values = .ok l ∧ textual.build shape w values = .ok l) ∨
      ∃ e e', native.build shape w values = .error e ∧ textual.build shape w values = .error e' ∧
        e.Alike e' := by
  have hw : w ≠ 0 := by
    rintro rfl
    revert h
    decide
  rw [build_native (takes_native_iff.2 h), build_textual, if_neg hw]
  by_cases hcount : shape.count? = some values.length
  · -- The text can be written, and what is read from it is what is built directly.
    rw [nestedText_eq_ok_iff.2 ⟨hcount, rfl⟩, Except.ok_bind]
    cases hdense : Literal.ofDense (.tensor shape (.clear w)) values with
    | ok l => exact Or.inl ⟨l, rfl, rfl⟩
    | error e => exact Or.inr ⟨e, e, rfl, rfl, .same e⟩
  · obtain ⟨misfit, hdense⟩ := Literal.exists_ofDense_eq_malformed (w := w) hcount
    obtain ⟨misfit', htext⟩ := exists_nestedText_eq_malformed hcount
    rw [hdense, htext]
    exact Or.inr ⟨_, _, rfl, rfl, .malformed misfit misfit'⟩

/-- Of two values of eight bits the second is too large, which both builders say. -/
theorem native_agrees_textual_outOfRange :
    8 ∈ nativeWidths ∧ native.build [2] 8 [1, 300] = .error (.outOfRange 300 8) ∧
      textual.build [2] 8 [1, 300] = .error (.outOfRange 300 8) := by
  have hmem : (8 : UInt32) ∈ nativeWidths := by decide
  have hnative : native.build [2] 8 [1, 300] = .error (.outOfRange 300 8) := by decide
  refine ⟨hmem, hnative, ?_⟩
  rcases native_agrees_textual hmem [2] [1, 300] with ⟨l, hl, -⟩ | ⟨e, e', he, he', halike⟩
  · rw [hnative] at hl
    cases hl
  · rw [hnative] at he
    cases he
    cases halike
    exact he'

end DenseBuilder

end CipherFlow
