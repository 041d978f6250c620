import Mathlib.Data.List.Forall2

/-!
# Steps in sequence

What a successful or failed sequence of steps says of each step, for results (`Except`) and for
steps on a state (`EStateM`). A run over a list that fails has come to some item and fails there; an
invariant that each step keeps holds after the run (`forM_induction`). Two sequences whose results
are related so far go on alike (`Except.Related.bind`).
-/

set_option autoImplicit false

namespace CipherFlow

/-- What is on the right of two lists that go together has a partner on the left. -/
theorem exists_mem_of_forall₂ {α β : Type} {r : α → β → Prop} {xs : List α} {ys : List β} {y : β}
    (h : List.Forall₂ r xs ys) (hy : y ∈ ys) : ∃ x ∈ xs, r x y := by
  induction h with
  | nil => cases hy
  | cons hr _ ih =>
      rcases List.mem_cons.1 hy with rfl | hy
      · exact ⟨_, List.mem_cons_self, hr⟩
      · obtain ⟨x, hx, hxy⟩ := ih hy
        exact ⟨x, List.mem_cons_of_mem _ hx, hxy⟩

theorem exists_forall₂ {α β : Type} {r : α → β → Prop} {xs : List α}
    (h : ∀ x ∈ xs, ∃ y, r x y) : ∃ ys, List.Forall₂ r xs ys := by
  induction xs with
  | nil => exact ⟨[], .nil⟩
  | cons x xs ih =>
      obtain ⟨hx, hxs⟩ := List.forall_mem_cons.1 h
      obtain ⟨y, hy⟩ := hx
      obtain ⟨ys, hys⟩ := ih hxs
      exact ⟨y :: ys, .cons hy hys⟩

/-! ## Results -/

section Results

variable {ε α β : Type}

@[simp] theorem Except.ok_bind {a : α} {f : α → Except ε β} : (Except.ok a >>= f) = f a := rfl

@[simp] theorem Except.error_bind {e : ε} {f : α → Except ε β} :
    ((Except.error e : Except ε α) >>= f) = .error e := rfl

theorem Except.exists_eq_ok {x : Except ε α} (h : x.toOption.isSome = true) : ∃ a, x = .ok a := by
  cases x with
  | ok a => exact ⟨a, rfl⟩
  | error e => cases h

theorem Except.bind_eq_ok_iff {x : Except ε α} {f : α → Except ε β} {b : β} :
    (x >>= f) = .ok b ↔ ∃ a, x = .ok a ∧ f a = .ok b := by
  cases x <;> simp [bind, Except.bind]

theorem Except.bind_eq_error_iff {x : Except ε α} {f : α → Except ε β} {e : ε} :
    (x >>= f) = .error e ↔ x = .error e ∨ ∃ a, x = .ok a ∧ f a = .error e := by
  cases x <;> simp [bind, Except.bind]

theorem Except.map_eq_ok_iff {f : α → β} {x : Except ε α} {b : β} :
    f <$> x = .ok b ↔ ∃ a, x = .ok a ∧ f a = b := by
  cases x <;> simp [Functor.map, Except.map]

theorem Except.mapError_eq_ok_iff {ε' : Type} {f : ε → ε'} {x : Except ε α} {a : α} :
    x.mapError f = .ok a ↔ x = .ok a := by
  cases x <;> simp [Except.mapError]

theorem Except.mapError_eq_error_iff {ε' : Type} {f : ε → ε'} {x : Except ε α} {e' : ε'} :
    x.mapError f = .error e' ↔ ∃ e, x = .error e ∧ e' = f e := by
  cases x <;> simp [Except.mapError, eq_comm]

/-- A successful run over a list gives one result for each item. -/
theorem Except.mapM_eq_ok_iff {f : α → Except ε β} {xs : List α} {ys : List β} :
    xs.mapM f = .ok ys ↔ List.Forall₂ (fun x y => f x = .ok y) xs ys := by
  induction xs generalizing ys with
  | nil => cases ys <;> simp [pure, Except.pure]
  | cons x xs ih =>
      rw [List.mapM_cons, Except.bind_eq_ok_iff]
      simp only [Except.bind_eq_ok_iff, pure, Except.pure, Except.ok.injEq]
      constructor
      · rintro ⟨y, hy, ys', hys, rfl⟩
        exact .cons hy (ih.1 hys)
      · intro h
        cases h with
        | cons hy hys => exact ⟨_, hy, _, ih.2 hys, rfl⟩

theorem Except.exists_of_mapM_eq_error {f : α → Except ε β} {xs : List α} {e : ε}
    (h : xs.mapM f = .error e) : ∃ x ∈ xs, f x = .error e := by
  induction xs with
  | nil => simp [pure, Except.pure] at h
  | cons x xs ih =>
      rw [List.mapM_cons, Except.bind_eq_error_iff] at h
      rcases h with h | ⟨y, -, h⟩
      · exact ⟨x, List.mem_cons_self, h⟩
      · rcases Except.bind_eq_error_iff.1 h with h | ⟨ys, -, h⟩
        · obtain ⟨z, hz, he⟩ := ih h
          exact ⟨z, List.mem_cons_of_mem _ hz, he⟩
        · cases h

/-- A run over a list fails with the error of the first item that has one. -/
theorem Except.mapM_eq_error {f : α → Except ε β} {before after : List α} {x : α} {e : ε}
    (hbefore : ∀ y ∈ before, ∃ b, f y = .ok b) (hx : f x = .error e) :
    (before ++ x :: after).mapM f = .error e := by
  induction before with
  | nil => exact Except.bind_eq_error_iff.2 (Or.inl hx)
  | cons y before ih =>
      rw [List.forall_mem_cons] at hbefore
      obtain ⟨b, hb⟩ := hbefore.1
      rw [List.cons_append, List.mapM_cons, hb, Except.ok_bind, ih hbefore.2, Except.error_bind]

theorem Except.forM_eq_ok_iff {f : α → Except ε Unit} {xs : List α} {u : Unit} :
    xs.forM f = .ok u ↔ ∀ x ∈ xs, f x = .ok () := by
  induction xs with
  | nil => simp [pure, Except.pure]
  | cons x xs ih =>
      rw [List.forM, Except.bind_eq_ok_iff, List.forall_mem_cons, ← ih]
      constructor
      · rintro ⟨⟨⟩, hx, hxs⟩
        exact ⟨hx, hxs⟩
      · rintro ⟨hx, hxs⟩
        exact ⟨(), hx, hxs⟩

theorem Except.exists_of_forM_eq_error {f : α → Except ε Unit} {xs : List α} {e : ε}
    (h : xs.forM f = .error e) : ∃ x ∈ xs, f x = .error e := by
  induction xs with
  | nil => simp [pure, Except.pure] at h
  | cons x xs ih =>
      rw [List.forM, Except.bind_eq_error_iff] at h
      rcases h with h | ⟨-, -, h⟩
      · exact ⟨x, List.mem_cons_self, h⟩
      · obtain ⟨y, hy, he⟩ := ih h
        exact ⟨y, List.mem_cons_of_mem _ hy, he⟩

end Results

/-! ## Results of two runs -/

/-- Two results that succeed with related values or fail with related errors. -/
inductive Except.Related {ε α β : Type} (E : ε → ε → Prop) (R : α → β → Prop) :
    Except ε α → Except ε β → Prop
  | ok {a : α} {b : β} (h : R a b) : Related E R (.ok a) (.ok b)
  | error {e e' : ε} (h : E e e') : Related E R (.error e) (.error e')

namespace Except.Related

variable {ε ε' α β γ δ : Type} {E : ε → ε → Prop} {R : α → β → Prop} {S : γ → δ → Prop}

/-- Related results go on alike. -/
theorem bind {x : Except ε α} {y : Except ε β} {f : α → Except ε γ} {f' : β → Except ε δ}
    (h : Related E R x y) (hrest : ∀ a b, R a b → Related E S (f a) (f' b)) :
    Related E S (x >>= f) (y >>= f') := by
  cases h with
  | ok hab => exact hrest _ _ hab
  | error he => exact .error he

theorem mapError {E' : ε' → ε' → Prop} {k : ε → ε'} {x : Except ε α} {y : Except ε β}
    (h : Related E R x y) (hk : ∀ e e', E e e' → E' (k e) (k e')) :
    Related E' R (x.mapError k) (y.mapError k) := by
  cases h with
  | ok hab => exact .ok hab
  | error he => exact .error (hk _ _ he)

/-- One result is related to itself. -/
theorem refl (hE : ∀ e, E e e) (x : Except ε α) : Related E Eq x x := by
  cases x with
  | ok a => exact .ok rfl
  | error e => exact .error (hE e)

end Except.Related

/-! ## Steps on a state -/

section Steps

variable {ε σ α β : Type}

theorem EStateM.bind_of_eq_ok {x : EStateM ε σ α} {f : α → EStateM ε σ β} {s s₁ : σ} {a : α}
    (h : x s = .ok a s₁) : (x >>= f) s = f a s₁ := by
  show EStateM.bind x f s = _
  rw [EStateM.bind, h]

theorem EStateM.bind_of_eq_error {x : EStateM ε σ α} {f : α → EStateM ε σ β} {s s₁ : σ} {e : ε}
    (h : x s = .error e s₁) : (x >>= f) s = .error e s₁ := by
  show EStateM.bind x f s = _
  rw [EStateM.bind, h]

theorem EStateM.bind_eq_ok_iff {x : EStateM ε σ α} {f : α → EStateM ε σ β} {s s' : σ} {b : β} :
    (x >>= f) s = .ok b s' ↔ ∃ a s₁, x s = .ok a s₁ ∧ f a s₁ = .ok b s' := by
  show EStateM.bind x f s = _ ↔ _
  unfold EStateM.bind
  split <;> simp_all

theorem EStateM.bind_eq_error_iff {x : EStateM ε σ α} {f : α → EStateM ε σ β} {s s' : σ} {e : ε} :
    (x >>= f) s = .error e s' ↔
      x s = .error e s' ∨ ∃ a s₁, x s = .ok a s₁ ∧ f a s₁ = .error e s' := by
  show EStateM.bind x f s = _ ↔ _
  unfold EStateM.bind
  split <;> simp_all

theorem EStateM.pure_eq_ok_iff {a b : α} {s s' : σ} :
    (pure a : EStateM ε σ α) s = .ok b s' ↔ a = b ∧ s = s' := by
  show EStateM.Result.ok a s = _ ↔ _
  simp

theorem EStateM.discard_eq_ok_iff {x : EStateM ε σ α} {s s' : σ} {u : Unit} :
    (discard x) s = .ok u s' ↔ ∃ a, x s = .ok a s' := by
  show EStateM.map _ x s = _ ↔ _
  unfold EStateM.map
  split <;> simp_all

/-- An invariant of the items done so far that each step keeps holds after the run. -/
theorem EStateM.forM_induction {f : α → EStateM ε σ Unit} {motive : List α → σ → Prop}
    {xs : List α} {s s' : σ} {u : Unit} (h : xs.forM f s = .ok u s') (start : motive [] s)
    (step : ∀ done x rest s₁ s₂, xs = done ++ x :: rest → motive done s₁ →
      f x s₁ = .ok () s₂ → motive (done ++ [x]) s₂) :
    motive xs s' := by
  -- The induction is on what is left of the list.
  suffices key : ∀ rest done s, xs = done ++ rest → motive done s → rest.forM f s = .ok u s' →
      motive xs s' from key xs [] s rfl start h
  intro rest
  induction rest with
  | nil =>
      intro done s hxs hs h
      obtain ⟨-, rfl⟩ := EStateM.pure_eq_ok_iff.1 h
      simpa [hxs] using hs
  | cons x rest ih =>
      intro done s hxs hs h
      rw [List.forM, EStateM.bind_eq_ok_iff] at h
      obtain ⟨⟨⟩, s₁, hx, h⟩ := h
      exact ih (done ++ [x]) s₁ (by simp [hxs]) (step done x rest s s₁ hxs hs hx) h

/-- A run that fails has done some items and fails at the next. -/
theorem EStateM.exists_of_forM_eq_error {f : α → EStateM ε σ Unit} {xs : List α} {s s' : σ} {e : ε}
    (h : xs.forM f s = .error e s') :
    ∃ before x after s₁, xs = before ++ x :: after ∧ before.forM f s = .ok () s₁ ∧
      f x s₁ = .error e s' := by
  induction xs generalizing s with
  | nil => cases h
  | cons x xs ih =>
      rw [List.forM, EStateM.bind_eq_error_iff] at h
      rcases h with h | ⟨⟨⟩, s₁, hx, h⟩
      · exact ⟨[], x, xs, s, rfl, rfl, h⟩
      · obtain ⟨before, y, after, s₂, rfl, hb, hy⟩ := ih h
        refine ⟨x :: before, y, after, s₂, rfl, ?_, hy⟩
        rw [List.forM, EStateM.bind_eq_ok_iff]
        exact ⟨(), s₁, hx, hb⟩

/-- A run that comes to an item at which it fails, fails with the error of that item. -/
theorem EStateM.forM_eq_error {f : α → EStateM ε σ Unit} {before after : List α} {x : α}
    {s s₁ s' : σ} {e : ε} (hbefore : before.forM f s = .ok () s₁) (hx : f x s₁ = .error e s') :
    (before ++ x :: after).forM f s = .error e s' := by
  induction before generalizing s with
  | nil =>
      obtain ⟨-, rfl⟩ := EStateM.pure_eq_ok_iff.1 hbefore
      exact EStateM.bind_of_eq_error hx
  | cons y before ih =>
      rw [List.forM, EStateM.bind_eq_ok_iff] at hbefore
      obtain ⟨⟨⟩, s₂, hy, hbefore⟩ := hbefore
      rw [List.cons_append, List.forM, EStateM.bind_of_eq_ok hy]
      exact ih hbefore

/-- A run succeeds alike if each step that succeeds does so alike. -/
theorem EStateM.forM_eq_ok_of_imp {f f' : α → EStateM ε σ Unit}
    (hstep : ∀ x s s', f x s = .ok () s' → f' x s = .ok () s') {xs : List α} {s s' : σ} {u : Unit}
    (h : xs.forM f s = .ok u s') : xs.forM f' s = .ok u s' := by
  induction xs generalizing s with
  | nil => exact h
  | cons x xs ih =>
      rw [List.forM, EStateM.bind_eq_ok_iff] at h
      obtain ⟨⟨⟩, s₁, hx, h⟩ := h
      rw [List.forM, EStateM.bind_of_eq_ok (hstep x s s₁ hx)]
      exact ih h

end Steps

end CipherFlow
