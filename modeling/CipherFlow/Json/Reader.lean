import CipherFlow.Json.Basic
import CipherFlow.Text.Scan

/-!
# Reading JSON

Every well-formed text is read, however deep it nests; what a value is good for is left to those who
use it. Inside a string, the escapes with four hexadecimal digits stand for units of UTF-16. They
are read as units first (`readPieces`) and put together afterwards (`assemble`).
-/

set_option autoImplicit false

namespace CipherFlow.Json

open Text

/-! ## Blanks and words -/

def isSpace (c : Char) : Bool := c = ' ' || c = '\n' || c = '\t' || c = '\r'

def next? (s : List Char) : Option (Char × Rest s) :=
  match h : s.dropWhile isSpace with
  | [] => none
  | c :: r => some (c, ⟨r, by
      have := (List.dropWhile_suffix (l := s) isSpace).length_le
      rw [h, List.length_cons] at this
      exact this⟩)

/-- What follows a word, if the text goes on with it. -/
def strip? (word s : List Char) : Option { r : List Char // r.length ≤ s.length } :=
  if word <+: s then some ⟨s.drop word.length, by simp⟩ else none

/-! ## Numbers -/

def skipDigits? (s : List Char) : Option (Rest s) :=
  if h : s.takeWhile Char.isDigit ≠ [] then
    some ⟨s.dropWhile Char.isDigit, length_dropWhile_isDigit_lt h⟩
  else
    none

def skipFraction? : (s : List Char) → Option { r : List Char // r.length ≤ s.length }
  | '.' :: s => (skipDigits? s).map fun r =>
      ⟨r.1, by have := r.2; rw [List.length_cons]; omega⟩
  | s => some ⟨s, Nat.le_refl _⟩

def skipSign (s : List Char) : { r : List Char // r.length ≤ s.length } :=
  if s.head? = some '+' ∨ s.head? = some '-' then ⟨s.drop 1, by simp⟩ else ⟨s, Nat.le_refl _⟩

def skipExponent? (s : List Char) : Option { r : List Char // r.length ≤ s.length } :=
  if s.head? = some 'e' ∨ s.head? = some 'E' then
    (skipDigits? (skipSign (s.drop 1)).1).map fun r =>
      ⟨r.1, by
        have := (skipSign (s.drop 1)).2
        have := List.length_drop (i := 1) (l := s)
        have := r.2
        omega⟩
  else
    some ⟨s, Nat.le_refl _⟩

/-- A number without its sign: digits without a leading zero, and then perhaps a fraction and an
exponent. -/
def readMagnitude (negative : Bool) (s : List Char) : Option (Json × Rest s) := do
  let ds := s.takeWhile Char.isDigit
  -- A zero in front stands alone.
  if ds.head? = some '0' ∧ ds ≠ ['0'] then none
  let r ← skipDigits? s
  let q ← skipFraction? r.1
  let t ← skipExponent? q.1
  -- Nothing behind the digits means neither a fraction nor an exponent.
  let json := if t.1.length = r.1.length then .integer negative (value ds) else .decimal
  return (json, ⟨t.1, by have := r.2; have := q.2; have := t.2; omega⟩)

def readNumber : (s : List Char) → Option (Json × Rest s)
  | '-' :: s => (readMagnitude true s).map fun (json, r) =>
      (json, ⟨r.1, by have := r.2; rw [List.length_cons]; omega⟩)
  | s => readMagnitude false s

/-! ## Strings -/

/-- A part of a string: a character, or a unit of UTF-16 given by an escape. -/
inductive Piece
  | char (c : Char)
  | unit (u : Nat)
  deriving DecidableEq, Repr

def hexValue? (c : Char) : Option Nat :=
  if '0' ≤ c ∧ c ≤ '9' then some (c.toNat - '0'.toNat)
  else if 'a' ≤ c ∧ c ≤ 'f' then some (c.toNat - 'a'.toNat + 10)
  else if 'A' ≤ c ∧ c ≤ 'F' then some (c.toNat - 'A'.toNat + 10)
  else none

def unit? (a b c d : Char) : Option Nat := do
  let a ← hexValue? a
  let b ← hexValue? b
  let c ← hexValue? c
  let d ← hexValue? d
  return ((a * 16 + b) * 16 + c) * 16 + d

def unescape? (c : Char) : Option Char :=
  if c = '"' ∨ c = '\\' ∨ c = '/' then some c
  else if c = 'n' then some '\n'
  else if c = 'r' then some '\r'
  else if c = 't' then some '\t'
  else if c = 'b' then some '\x08'
  else if c = 'f' then some '\x0c'
  else none

def readPieces : (s : List Char) → Option (List Piece × Rest s)
  | [] => none
  | '"' :: s => some ([], ⟨s, by simp⟩)
  | '\\' :: 'u' :: a :: b :: c :: d :: s => do
      let u ← unit? a b c d
      let (pieces, r) ← readPieces s
      return (.unit u :: pieces, ⟨r.1, by have := r.2; simp only [List.length_cons]; omega⟩)
  | '\\' :: c :: s => do
      let c ← unescape? c
      let (pieces, r) ← readPieces s
      return (.char c :: pieces, ⟨r.1, by have := r.2; simp only [List.length_cons]; omega⟩)
  | c :: s =>
      if c.toNat < 0x20 ∨ c = '\\' then none
      else do
        let (pieces, r) ← readPieces s
        return (.char c :: pieces, ⟨r.1, by have := r.2; simp only [List.length_cons]; omega⟩)

/-- The characters of a string: a high surrogate and the low one behind it make one character, and
one of them alone makes none. -/
def assemble : List Piece → Option (List Char)
  | [] => some []
  | .char c :: pieces => (c :: ·) <$> assemble pieces
  | .unit u :: pieces =>
      if u < 0xD800 ∨ 0xDFFF < u then (Char.ofNat u :: ·) <$> assemble pieces
      else
        match pieces with
        | .unit v :: pieces =>
            if u ≤ 0xDBFF ∧ 0xDC00 ≤ v ∧ v ≤ 0xDFFF then
              (Char.ofNat (0x10000 + (u - 0xD800) * 0x400 + (v - 0xDC00)) :: ·) <$> assemble pieces
            else none
        | _ => none

def readString (s : List Char) : Option (Option String × Rest s) := do
  let (pieces, r) ← readPieces s
  return ((assemble pieces).map String.ofList, r)

/-! ## Values -/

mutual

def readValue (s : List Char) : Option (Json × Rest s) := do
  let (c, r) ← next? s
  if c = '[' then
    match next? r.1 with
    | some (']', q) => return (.array [], r.trans q)
    | _ =>
        let (items, q) ← readItems r.1
        return (.array items, r.trans q)
  else if c = '\x7b' then
    match next? r.1 with
    | some ('\x7d', q) => return (.object [], r.trans q)
    | _ =>
        let (members, q) ← readMembers r.1
        return (.object members, r.trans q)
  else if c = '"' then
    let (text, q) ← readString r.1
    return (.string text, r.trans q)
  else if c = 't' then
    let q ← strip? "rue".toList r.1
    return (.bool true, ⟨q.1, Nat.lt_of_le_of_lt q.2 r.2⟩)
  else if c = 'f' then
    let q ← strip? "alse".toList r.1
    return (.bool false, ⟨q.1, Nat.lt_of_le_of_lt q.2 r.2⟩)
  else if c = 'n' then
    let q ← strip? "ull".toList r.1
    return (.null, ⟨q.1, Nat.lt_of_le_of_lt q.2 r.2⟩)
  else
    let (number, q) ← readNumber (c :: r.1)
    return (number, ⟨q.1, by have h := q.2; have := r.2; simp only [List.length_cons] at h; omega⟩)
termination_by 2 * s.length
decreasing_by
  all_goals
    have := r.2
    omega

def readItems (s : List Char) : Option (List Json × Rest s) := do
  let (item, r) ← readValue s
  let (c, q) ← next? r.1
  if c = ']' then
    return ([item], r.trans q)
  else if c = ',' then
    let (items, t) ← readItems q.1
    return (item :: items, (r.trans q).trans t)
  else
    none
termination_by 2 * s.length + 1
decreasing_by
  · omega
  · have := r.2
    have := q.2
    omega

def readMembers (s : List Char) : Option (List (Option String × Json) × Rest s) := do
  let (quote, r) ← next? s
  if quote ≠ '"' then none
  let (key, q) ← readString r.1
  let (colon, t) ← next? q.1
  if colon ≠ ':' then none
  let (value, u) ← readValue t.1
  let (c, w) ← next? u.1
  let rest : Rest s := (((r.trans q).trans t).trans u).trans w
  if c = '\x7d' then
    return ([(key, value)], rest)
  else if c = ',' then
    let (members, x) ← readMembers w.1
    return ((key, value) :: members, rest.trans x)
  else
    none
termination_by 2 * s.length + 1
decreasing_by
  · have := r.2
    have := q.2
    have := t.2
    omega
  · have := r.2
    have := q.2
    have := t.2
    have := u.2
    have := w.2
    omega

end

/-- The value that a whole text spells, with blanks around it or not. -/
def parse (text : String) : Option Json := do
  let (json, r) ← readValue text.toList
  if r.1.dropWhile isSpace = [] then some json else none

end CipherFlow.Json
