import CipherFlow.Proofs.Literal.Building
import CipherFlow.Proofs.Ty.Cursor

/-!
# Literals under a cursor

The readers of nested lists and of literals, said with a cursor over the bytes of the text. Main
statement: `cursor_runs_safe`, for types and literals.
-/

set_option autoImplicit false

namespace CipherFlow

open Text

/-! ## Nested lists -/

/-- An item, and whether the bracket comes behind it instead of a comma. -/
def NestedList.scanItem (text : String) (scan : Scan (Fault Nat) NestedList) :
    Scan (Fault Nat) (NestedList × Bool) :=
  Cursor.during .item do
    let item ← scan
    if ← Cursor.eat text .closeList then
      return (item, true)
    else
      Cursor.expect text .comma
      return (item, false)

/-- The items of a list up to the bracket behind the last. -/
def NestedList.scanItems (text : String) (scan : Scan (Fault Nat) NestedList) :
    Nat → Scan (Fault Nat) (List NestedList)
  | 0 => throw .exhausted
  | budget + 1 => do
      let (item, last) ← scanItem text scan
      if last then
        return [item]
      else
        let items ← scanItems text scan budget
        return item :: items

/-- The number or nested list that comes next. -/
def NestedList.scan (text : String) : Nat → Scan (Fault Nat) NestedList
  | 0 => throw .exhausted
  | budget + 1 => Cursor.during .nested do
      if ← Cursor.eat text .openList then
        if ← Cursor.eat text .closeList then
          return .list []
        else
          let items ← scanItems text (NestedList.scan text budget) budget
          return .list items
      else
        let value ← Cursor.number text
        return .leaf value

namespace NestedList

variable {text : String} {c : Cursor} {s : List Char} {budget : Nat}

/-- An item, and whether the bracket comes behind it instead of a comma. -/
def readItem (s : List Char) : Except (Fault (List Char)) ((NestedList × Bool) × Rest s) := do
  let (item, r) ← read s
  match token? .closeList r.1 with
  | some q => return ((item, true), r.trans q)
  | none =>
      let q ← requireToken .comma r.1
      return ((item, false), r.trans q)

theorem readItems_eq (s : List Char) :
    readItems s = (readItem s >>= fun b =>
      if b.1.2 then .ok ([b.1.1], b.2)
      else readItems b.2.1 >>= fun b' => .ok (b.1.1 :: b'.1, b.2.trans b'.2)) := by
  rw [readItems, readItem, bind_assoc]
  apply bind_congr
  rintro ⟨item, r⟩
  dsimp only
  cases token? .closeList r.1 with
  | some q => rfl
  | none =>
      simp only [bind_assoc, pure_bind]
      rfl

theorem follows_scanItem {scan : Scan (Fault Nat) NestedList} (hc : StandsNear text c s)
    (hready : ∀ activity, c.Ready activity)
    (hscan : ∀ c', StandsNear text c' s → c'.Ready .nested →
      Follows text placed (read s) (scan c')) :
    Follows text placed (readItem s) (scanItem text scan c) := by
  refine Cursor.follows_during hc (hready _) fun c₁ hc₁ hkept => ?_
  -- The item starts where the round over it does, which is no nested list.
  refine (hscan c₁ hc₁ (hkept _ (by decide) (hready _))).bind ?_
  rintro ⟨item, r⟩ c₂ - hc₂
  refine Cursor.follows_choice hc₂.near (fun q c₃ hclose hc₃ => ?_) fun c₃ hclose hc₃ _ => ?_
  · simp only [hclose]
    exact .ok hc₃
  · simp only [hclose]
    refine (Cursor.follows_expect hc₃.near_of_skipBlanks).bind fun q c₄ _ hc₄ => ?_
    exact .ok hc₄

/-- Items are followed if a nested list is, in what is left of the text. -/
theorem follows_scanItems {scan : Scan (Fault Nat) NestedList} (hbudget : s.length < budget)
    (hc : StandsNear text c s) (hready : ∀ activity, c.Ready activity)
    (hscan : ∀ t c', t.length ≤ s.length → StandsNear text c' t → c'.Ready .nested →
      Follows text placed (read t) (scan c')) :
    Follows text placed (readItems s) (scanItems text scan budget c) := by
  induction budget generalizing s c with
  | zero => exact absurd hbudget (Nat.not_lt_zero _)
  | succ budget ih =>
      rw [readItems_eq]
      refine (follows_scanItem hc hready fun c' => hscan s c' (Nat.le_refl _)).bind ?_
      rintro ⟨⟨item, last⟩, r⟩ c₁ - hc₁
      cases last with
      | true => exact .ok hc₁
      | false =>
          have hr : r.1.length < budget := Nat.lt_of_lt_of_le r.2 (Nat.le_of_lt_succ hbudget)
          have hitems := ih hr hc₁.near hc₁.ready fun t c' ht =>
            hscan t c' (Nat.le_trans ht (Nat.le_of_lt r.2))
          refine hitems.bind ?_
          rintro ⟨items, q⟩ c₂ - hc₂
          exact .ok hc₂

/-- A budget above the length of the text is enough, for the nested calls and for each loop. -/
theorem follows_scan (hbudget : s.length < budget) (hc : StandsNear text c s)
    (hready : c.Ready .nested) :
    Follows text placed (read s) (scan text budget c) := by
  induction budget generalizing s c with
  | zero => exact absurd hbudget (Nat.not_lt_zero _)
  | succ budget ih =>
      rw [scan]
      refine Cursor.follows_during hc hready fun c₁ hc₁ _ => ?_
      refine Cursor.follows_choice hc₁ (fun r c₂ hopen hc₂ => ?_) fun c₂ hopen hc₂ _ => ?_
      · refine Cursor.follows_choice hc₂.near (fun q c₃ hclose hc₃ => ?_)
          fun c₃ hclose hc₃ hkept => ?_
        · rw [read, hopen]
          simp only [hclose]
          exact .ok hc₃
        · rw [read, hopen]
          simp only [hclose]
          have hr : r.1.length < budget := Nat.lt_of_lt_of_le r.2 (Nat.le_of_lt_succ hbudget)
          have hitems := follows_scanItems hr hc₃.near_of_skipBlanks
            (fun activity => hkept activity (hc₂.ready activity))
            fun t c' ht => ih (Nat.lt_of_le_of_lt ht hr)
          refine hitems.bind ?_
          rintro ⟨items, q⟩ c₄ - hc₄
          exact .ok hc₄
      · rw [read, hopen]
        refine (Cursor.follows_number hc₂.near_of_skipBlanks).bind ?_
        rintro ⟨value, r⟩ c₃ - hc₃
        exact .ok hc₃

end NestedList

/-! ## Literals -/

/-- The byte offset that an error names. -/
def LiteralError.offset? : LiteralError → Option Nat
  | unexpected offset _ => some offset
  | _ => none

namespace Literal

section Steps

variable {α β : Type} (text : String)

/-- A step of reading, with the errors of literals. -/
def located (step : Scan (Fault Nat) α) : Scan LiteralError α :=
  EStateM.adaptExcept (Halt.map LiteralError.ofFault) step

/-- What is read is built into a literal before the text must be at its end. -/
def scanWhole (parts : Scan (Fault Nat) β) (build : β → Except LiteralError Literal) :
    Scan LiteralError Literal := do
  let b ← located parts
  match build b with
  | .error e => throw (.refused e)
  | .ok literal =>
      located (Cursor.requireEnd text)
      return literal

/-- What follows `dense<`: a nested list and, behind `>` and `:`, a type. -/
def scanDense (budget : Nat) : Scan (Fault Nat) (NestedList × Ty) := do
  let nested ← NestedList.scan text budget
  Cursor.expect text .close
  Cursor.expect text .colon
  let ty ← Ty.scan text budget
  return (nested, ty)

/-- A number and, behind `:`, a type. -/
def scanInteger (budget : Nat) : Scan (Fault Nat) (UInt64 × Ty) := do
  let value ← Cursor.number text
  Cursor.expect text .colon
  let ty ← Ty.scan text budget
  return (value, ty)

/-- The literal that the whole text spells. -/
def scanAll : Scan LiteralError Literal := do
  if ← located (Cursor.eat text .dense) then
    scanWhole text (scanDense text (text.utf8ByteSize + 1)) fun (nested, ty) => ofNested ty nested
  else
    scanWhole text (scanInteger text (text.utf8ByteSize + 1)) fun (value, ty) => ofInteger ty value

end Steps

/-! ### Refusals when building -/

theorem isAboutParts_of_ofInteger {ty : Ty} {value : UInt64} {e : LiteralError}
    (h : ofInteger ty value = .error e) : e.isAboutParts = true := by
  cases ty with
  | clear w => exact isAboutParts_of_ofInteger_clear h
  | encrypted w =>
      cases h
      rfl
  | tensor shape element =>
      cases h
      rfl

theorem isAboutParts_of_ofNested {ty : Ty} {nested : NestedList} {e : LiteralError}
    (h : ofNested ty nested = .error e) : e.isAboutParts = true := by
  cases ty with
  | clear w =>
      cases h
      rfl
  | encrypted w =>
      cases h
      rfl
  | tensor shape element =>
      rcases Except.bind_eq_error_iff.1 h with h | ⟨values, -, h⟩
      · obtain ⟨misfit, -, rfl⟩ := Except.mapError_eq_error_iff.1 h
        rfl
      · cases element with
        | clear w => exact isAboutParts_of_ofDense h
        | encrypted w =>
            cases h
            rfl
        | tensor shape' element =>
            cases h
            rfl

theorem offset?_of_isAboutParts {e : LiteralError} (h : e.isAboutParts = true) :
    e.offset? = none := by
  cases e with
  | unexpected offset complaint => cases h
  | _ => rfl

/-! ### The readers are followed -/

variable {text : String} {c : Cursor} {s : List Char} {budget : Nat}

theorem follows_scanDense (hbudget : s.length < budget) (hc : StandsNear text c s)
    (hready : c.Ready .nested) :
    Follows text id (readDense s) (scanDense text budget c) := by
  refine (NestedList.follows_scan hbudget hc hready).bind ?_
  rintro ⟨nested, r⟩ c₁ - hc₁
  refine (Cursor.follows_expect hc₁.near).bind fun q c₂ _ hc₂ => ?_
  refine (Cursor.follows_expect hc₂.near).bind fun t c₃ _ hc₃ => ?_
  have ht : t.1.length < budget :=
    Nat.lt_trans t.2 (Nat.lt_trans q.2 (Nat.lt_trans r.2 hbudget))
  refine (Ty.follows_scan ht hc₃.near (hc₃.ready _)).bind ?_
  rintro ⟨ty, u⟩ c₄ - hc₄
  exact .ok hc₄

theorem follows_scanInteger (hbudget : s.length < budget) (hc : StandsNear text c s) :
    Follows text id (readInteger s) (scanInteger text budget c) := by
  refine (Cursor.follows_number hc).bind ?_
  rintro ⟨value, r⟩ c₁ - hc₁
  refine (Cursor.follows_expect hc₁.near).bind fun q c₂ _ hc₂ => ?_
  have hq : q.1.length < budget := Nat.lt_trans q.2 (Nat.lt_trans r.2 hbudget)
  refine (Ty.follows_scan hq hc₂.near (hc₂.ready _)).bind ?_
  rintro ⟨ty, t⟩ c₃ - hc₃
  exact .ok hc₃

theorem located_of_eq_ok {α : Type} {step : Scan (Fault Nat) α} {a : α} {c' : Cursor}
    (h : step c = .ok a c') : located step c = .ok a c' := by
  show EStateM.adaptExcept _ step c = _
  rw [EStateM.adaptExcept, h]

theorem located_of_eq_error {α : Type} {step : Scan (Fault Nat) α} {fault : Fault Nat} {c' : Cursor}
    (h : step c = .error (.refused fault) c') :
    located step c = .error (.refused (.ofFault fault)) c' := by
  show EStateM.adaptExcept _ step c = _
  rw [EStateM.adaptExcept, h]
  rfl

/-- A step that follows a reader goes on safely if the rest does. -/
theorem safe_located {α β : Type} {view : β → α × List Char}
    {x : Except (Fault (List Char)) β} {step : Scan (Fault Nat) α}
    {f : β → Except LiteralError Literal} {g : α → Scan LiteralError Literal}
    (h : Follows text view x (step c))
    (hrest : ∀ b c', Settled text c' (view b).2 →
      Safe text LiteralError.offset? (f b) (g (view b).1 c')) :
    Safe text LiteralError.offset?
      (x.mapError (fun fault => LiteralError.ofFault (fault.locate text.toList)) >>= f)
      ((located step >>= g) c) := by
  generalize hr : step c = r at h
  cases h with
  | ok h =>
      rw [EStateM.bind_of_eq_ok (located_of_eq_ok hr)]
      exact hrest _ _ h
  | zeroWidth h =>
      rw [EStateM.bind_of_eq_error (located_of_eq_error hr)]
      exact .error h nofun
  | unexpected h =>
      rw [EStateM.bind_of_eq_error (located_of_eq_error hr)]
      show Safe text _ (.error (LiteralError.ofFault (Fault.locate text.toList _))) _
      rw [h.locate]
      refine .error h.sound fun offset hoffset => ?_
      cases hoffset
      exact h.isBoundary

/-- A literal is read and built safely if its parts are read as by a reader, and refused when it is
built for the way its parts fit together only. -/
theorem safe_scanWhole {β : Type} {x : Except (Fault (List Char)) (β × List Char)}
    {parts : Scan (Fault Nat) β} {build : β → Except LiteralError Literal}
    (h : Follows text id x (parts c))
    (hbuild : ∀ b e, build b = .error e → e.isAboutParts = true) :
    Safe text LiteralError.offset?
      (x.mapError (fun fault => LiteralError.ofFault (fault.locate text.toList)) >>= fun b =>
        build b.1 >>= fun literal =>
          (requireEnd b.2).mapError (fun fault => LiteralError.ofFault (fault.locate text.toList))
            >>= fun _ => .ok literal)
      (scanWhole text parts build c) := by
  refine safe_located h ?_
  rintro ⟨b, s⟩ c' hc'
  cases hliteral : build b with
  | error e =>
      simp only [id, hliteral]
      refine .error hc'.sound fun offset hoffset => ?_
      rw [offset?_of_isAboutParts (hbuild b e hliteral)] at hoffset
      cases hoffset
  | ok literal =>
      simp only [id, hliteral]
      refine safe_located (Cursor.follows_requireEnd hc'.near hc'.ready) fun _ c'' hc'' => ?_
      exact .ok hc''.sound

/-- The literal of a text is read safely. -/
theorem safe_scanAll (text : String) :
    Safe text LiteralError.offset? (parse text) (scanAll text .start) := by
  have hstart := settled_start text
  unfold parse scanAll
  cases hdense : token? .dense text.toList with
  | some r =>
      obtain ⟨c₁, heat, hc₁⟩ := Cursor.exists_eat_of_some hstart.near hdense
      rw [EStateM.bind_of_eq_ok (located_of_eq_ok heat)]
      have hr : r.1.length < text.utf8ByteSize + 1 := Nat.lt_trans r.2 (length_toList_lt text)
      exact safe_scanWhole (follows_scanDense hr hc₁.near (hc₁.ready _)) fun b e =>
        isAboutParts_of_ofNested
  | none =>
      obtain ⟨c₁, heat, hc₁, hready⟩ := Cursor.exists_eat_of_none hstart.near hdense
      rw [EStateM.bind_of_eq_ok (located_of_eq_ok heat)]
      exact safe_scanWhole
        (follows_scanInteger (length_toList_lt text) hc₁.near_of_skipBlanks) fun b e =>
          isAboutParts_of_ofInteger

end Literal

end CipherFlow
