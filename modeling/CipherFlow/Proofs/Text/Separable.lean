import CipherFlow.Text.Numeral
import CipherFlow.Text.Sequence

/-!
# Spellings that are told apart

Spellings are separable if two texts that begin with them can be equal only if they begin with the
same one, where nothing that follows goes on with a digit. Numerals are separable, and so are lists
of separable items up to the parenthesis that closes them (`Separable.list`).
-/

set_option autoImplicit false

namespace CipherFlow.Text

variable {α β : Type}

/-- Whether spellings are told apart in front of texts that do not go on with a digit. -/
def Separable (spell : α → List Char) : Prop :=
  ∀ ⦃a b : α⦄ ⦃r s : List Char⦄, startsWithDigit r = false → startsWithDigit s = false →
    spell a ++ r = spell b ++ s → a = b ∧ r = s

theorem separable_digits : Separable digits := by
  intro m n r s hr hs h
  have htake := congrArg (List.takeWhile Char.isDigit) h
  have hdrop := congrArg (List.dropWhile Char.isDigit) h
  rw [takeWhile_digits_append m hr, takeWhile_digits_append n hs] at htake
  rw [dropWhile_digits_append m hr, dropWhile_digits_append n hs] at hdrop
  exact ⟨digits_injective htake, hdrop⟩

/-- Different texts stay told apart if all of them begin alike. -/
theorem Separable.append_left {spell : α → List Char} (h : Separable spell) (p : List Char) :
    Separable fun a => p ++ spell a := by
  intro a b r s hr hs heq
  simp only [List.append_assoc, List.append_cancel_left_eq] at heq
  exact h hr hs heq

/-- Texts that are equal up to and behind the first of some character are equal on both sides. -/
theorem append_cons_inj {c : Char} {x y r s : List Char} (hx : c ∉ x) (hy : c ∉ y)
    (h : x ++ c :: r = y ++ c :: s) : x = y ∧ r = s := by
  induction x generalizing y with
  | nil =>
      cases y with
      | nil => exact ⟨rfl, (List.cons.inj h).2⟩
      | cons d y =>
          have hd : c = d := (List.cons.inj h).1
          exact absurd (hd ▸ List.mem_cons_self) hy
  | cons d x ih =>
      cases y with
      | nil =>
          have hd : d = c := (List.cons.inj h).1
          exact absurd (hd ▸ List.mem_cons_self) hx
      | cons e y =>
          obtain ⟨rfl, htail⟩ := List.cons.inj h
          obtain ⟨rfl, hrest⟩ := ih (fun hc => hx (List.mem_cons_of_mem d hc))
            (fun hc => hy (List.mem_cons_of_mem d hc)) htail
          exact ⟨rfl, hrest⟩

/-! ## Lists -/

/-- What follows an item of a list in parentheses: the others, and then the parenthesis. -/
def itemsTail (spell : α → List Char) (xs : List α) (r : List Char) : List Char :=
  match xs with
  | [] => ')' :: r
  | x :: xs => ',' :: ' ' :: (spell x ++ itemsTail spell xs r)

theorem startsWithDigit_itemsTail (spell : α → List Char) (xs : List α) (r : List Char) :
    startsWithDigit (itemsTail spell xs r) = false := by
  cases xs <;> rfl

theorem commaSeparated_cons_append (spell : α → List Char) (x : α) (xs : List α) (r : List Char) :
    commaSeparated ((x :: xs).map spell) ++ ')' :: r = spell x ++ itemsTail spell xs r := by
  induction xs generalizing x with
  | nil => simp [itemsTail]
  | cons y xs ih =>
      rw [List.map_cons, List.map_cons, commaSeparated_cons_cons, ← List.map_cons]
      simp only [List.append_assoc, List.cons_append]
      rw [ih y, itemsTail]

theorem Separable.itemsTail_inj {spell : α → List Char} (h : Separable spell) {xs ys : List α}
    {r s : List Char} (heq : itemsTail spell xs r = itemsTail spell ys s) : xs = ys ∧ r = s := by
  induction xs generalizing ys with
  | nil =>
      cases ys with
      | nil => exact ⟨rfl, (List.cons.inj heq).2⟩
      | cons y ys => exact absurd (List.cons.inj heq).1 (by decide)
  | cons x xs ih =>
      cases ys with
      | nil => exact absurd (List.cons.inj heq).1 (by decide)
      | cons y ys =>
          have heq := (List.cons.inj (List.cons.inj heq).2).2
          obtain ⟨rfl, htail⟩ := h (startsWithDigit_itemsTail spell xs r)
            (startsWithDigit_itemsTail spell ys s) heq
          obtain ⟨rfl, hrest⟩ := ih htail
          exact ⟨rfl, hrest⟩

/-- A list is told apart up to the parenthesis behind it, if its items are and none of them begins
with a parenthesis. -/
theorem Separable.list {spell : α → List Char} (h : Separable spell)
    (hstart : ∀ a r, (spell a ++ r).head? ≠ some ')') {xs ys : List α} {r s : List Char}
    (heq : commaSeparated (xs.map spell) ++ ')' :: r = commaSeparated (ys.map spell) ++ ')' :: s) :
    xs = ys ∧ r = s := by
  cases xs with
  | nil =>
      cases ys with
      | nil => exact ⟨rfl, (List.cons.inj heq).2⟩
      | cons y ys =>
          rw [commaSeparated_cons_append spell y ys s] at heq
          exact absurd (congrArg List.head? heq.symm) (hstart y _)
  | cons x xs =>
      rw [commaSeparated_cons_append spell x xs r] at heq
      cases ys with
      | nil => exact absurd (congrArg List.head? heq) (hstart x _)
      | cons y ys =>
          rw [commaSeparated_cons_append spell y ys s] at heq
          obtain ⟨rfl, htail⟩ := h (startsWithDigit_itemsTail spell xs r)
            (startsWithDigit_itemsTail spell ys s) heq
          obtain ⟨rfl, hrest⟩ := h.itemsTail_inj htail
          exact ⟨rfl, hrest⟩

end CipherFlow.Text
