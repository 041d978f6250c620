import CipherFlow.Proofs.Text.Cursor
import CipherFlow.Ty.Text

/-!
# Types under a cursor

The reader of types, said with a cursor over the bytes of the text. Its loop and its recursion are
bounded by a budget; one more than the text has bytes is never spent (`Ty.follows_scan`). Main
statement: `Ty.safe_scanAll`.
-/

set_option autoImplicit false

namespace CipherFlow

open Text

/-! ## Reading -/

/-- A dimension and the `x` behind it. -/
def Shape.scanDim (text : String) : Scan (Fault Nat) UInt64 :=
  Cursor.during .dimension do
    let d ← Cursor.number text
    Cursor.expect text .times
    return d

/-- Dimensions, as long as digits come next. -/
def Shape.scanDims (text : String) : Nat → Scan (Fault Nat) Shape
  | 0 => throw .exhausted
  | budget + 1 => do
      if ← Cursor.facesDigit text then
        let d ← scanDim text
        let rest ← scanDims text budget
        return d :: rest
      else
        return []

/-- The type that comes next. -/
def Ty.scan (text : String) : Nat → Scan (Fault Nat) Ty
  | 0 => throw .exhausted
  | budget + 1 => Cursor.during .type do
      if ← Cursor.eat text .encrypted then
        let w ← Cursor.bitWidth text
        Cursor.expect text .close
        return .encrypted w
      else if ← Cursor.eat text .tensor then
        let shape ← Shape.scanDims text budget
        let element ← Ty.scan text budget
        Cursor.expect text .close
        return .tensor shape element
      else if ← Cursor.eat text .clear then
        let w ← Cursor.bitWidth text
        return .clear w
      else
        Cursor.refuse .missingType

/-- The type that the whole text spells. -/
def Ty.scanAll (text : String) : Scan (Fault Nat) Ty := do
  let t ← Ty.scan text (text.utf8ByteSize + 1)
  Cursor.requireEnd text
  return t

/-! ## The readers are followed -/

variable {text : String} {c : Cursor} {s : List Char} {budget : Nat}

namespace Shape

/-- A dimension and the `x` behind it. -/
def readDim (s : List Char) : Except (Fault (List Char)) (UInt64 × Rest s) := do
  let (d, r) ← number s
  let r' ← requireToken .times r.1
  return (d, r.trans r')

theorem readDims_of_digit (h : startsWithDigit (skipBlanks s) = true) :
    readDims s = (readDim s >>= fun b => readDims b.2.1 >>= fun b' =>
      .ok (b.1 :: b'.1, ⟨b'.2.1, Nat.le_trans b'.2.2 (Nat.le_of_lt b.2.2)⟩)) := by
  rw [readDims, if_pos h, readDim]
  simp only [bind_assoc, pure_bind]
  rfl

theorem follows_scanDim (hc : StandsNear text c s) (hready : c.Ready .dimension) :
    Follows text placed (readDim s) (scanDim text c) := by
  refine Cursor.follows_during hc hready fun c₁ hc₁ _ => ?_
  refine (Cursor.follows_number hc₁).bind ?_
  rintro ⟨d, r⟩ c₂ - hc₂
  refine (Cursor.follows_expect hc₂.near).bind fun r' c₃ _ hc₃ => ?_
  exact .ok hc₃

/-- Behind the dimensions the cursor has skipped the blanks. -/
theorem follows_scanDims (hbudget : s.length < budget) (hc : StandsNear text c s)
    (hready : ∀ activity, c.Ready activity) :
    Follows text (fun b => (b.1, skipBlanks b.2.1)) (readDims s) (scanDims text budget c) := by
  induction budget generalizing s c with
  | zero => exact absurd hbudget (Nat.not_lt_zero _)
  | succ budget ih =>
      obtain ⟨c₁, hfaces, hc₁, hkept⟩ := Cursor.exists_facesDigit hc
      have hready₁ : ∀ activity, c₁.Ready activity := fun a => hkept a (hready a)
      rw [scanDims, EStateM.bind_of_eq_ok hfaces]
      cases hdigit : startsWithDigit (skipBlanks s) with
      | false =>
          rw [readDims, hdigit]
          exact .ok ⟨hc₁, hready₁⟩
      | true =>
          rw [readDims_of_digit hdigit]
          refine (follows_scanDim hc₁.near_of_skipBlanks (hready₁ _)).bind ?_
          rintro ⟨d, r⟩ c₂ - hc₂
          have hr : r.1.length < budget := Nat.lt_of_lt_of_le r.2 (Nat.le_of_lt_succ hbudget)
          refine (ih hr hc₂.near hc₂.ready).bind ?_
          rintro ⟨rest, q⟩ c₃ - hc₃
          exact .ok hc₃

end Shape

namespace Ty

/-- A budget above the length of the text is enough, as each nested call has less of both. -/
theorem follows_scan (hbudget : s.length < budget) (hc : StandsNear text c s)
    (hready : c.Ready .type) :
    Follows text placed (read s) (scan text budget c) := by
  induction budget generalizing s c with
  | zero => exact absurd hbudget (Nat.not_lt_zero _)
  | succ budget ih =>
      rw [scan]
      refine Cursor.follows_during hc hready fun c₁ hc₁ _ => ?_
      -- The tokens are tried one after another, each behind the blanks that the last try skipped.
      refine Cursor.follows_choice hc₁ (fun r c₂ hencrypted hc₂ => ?_)
        fun c₂ hencrypted hc₂ _ => ?_
      · rw [read, hencrypted]
        refine (Cursor.follows_bitWidth hc₂.near).bind ?_
        rintro ⟨w, q⟩ c₃ - hc₃
        refine (Cursor.follows_expect hc₃.near).bind fun t c₄ _ hc₄ => ?_
        exact .ok hc₄
      refine Cursor.follows_choice hc₂.near_of_skipBlanks (fun r c₃ htensor hc₃ => ?_)
        fun c₃ htensor hc₃ _ => ?_
      · rw [read, hencrypted, htensor]
        have hr : r.1.length < budget := Nat.lt_of_lt_of_le r.2 (Nat.le_of_lt_succ hbudget)
        refine (Shape.follows_scanDims hr hc₃.near hc₃.ready).bind ?_
        rintro ⟨shape, q⟩ c₄ - hc₄
        have hq : q.1.length < budget := Nat.lt_of_le_of_lt q.2 hr
        refine (ih hq hc₄.near_of_skipBlanks (hc₄.ready _)).bind ?_
        rintro ⟨element, t⟩ c₅ - hc₅
        refine (Cursor.follows_expect hc₅.near).bind fun u c₆ _ hc₆ => ?_
        exact .ok hc₆
      refine Cursor.follows_choice hc₃.near_of_skipBlanks (fun r c₄ hclear hc₄ => ?_)
        fun c₄ hclear hc₄ _ => ?_
      · rw [read, hencrypted, htensor, hclear]
        refine (Cursor.follows_bitWidth hc₄.near).bind ?_
        rintro ⟨w, q⟩ c₅ - hc₅
        exact .ok hc₅
      · rw [read, hencrypted, htensor, hclear]
        exact .unexpected hc₄

/-- The type of a text is read safely. -/
theorem safe_scanAll (text : String) :
    Safe text Fault.offset? (parse text) (scanAll text .start) := by
  have hstart := settled_start text
  have hread : Follows text (fun t : Ty => (t, []))
      (read text.toList >>= fun b => requireEnd b.2.1 >>= fun _ => .ok b.1)
      (scanAll text .start) := by
    refine (follows_scan (length_toList_lt text) hstart.near (hstart.ready _)).bind ?_
    rintro ⟨t, r⟩ c₁ - hc₁
    refine (Cursor.follows_requireEnd hc₁.near hc₁.ready).bind fun _ c₂ _ hc₂ => ?_
    exact .ok hc₂
  exact hread.safe

/-- The blank before the width has three bytes. -/
example : scanAll "i\u20038" .start
    = .ok (.clear 8) ⟨5, [⟨.started .type, 0⟩, ⟨.moved, 0⟩, ⟨.moved, 0⟩, ⟨.moved, 0⟩, ⟨.moved, 1⟩,
        ⟨.moved, 4⟩, ⟨.moved, 5⟩, ⟨.finished .type, 5⟩, ⟨.moved, 5⟩]⟩ := by cbv

end Ty

end CipherFlow
