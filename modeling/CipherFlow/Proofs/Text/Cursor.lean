import CipherFlow.Proofs.Sequencing
import CipherFlow.Text.Scan
import Mathlib.Data.List.Perm.Subperm

/-!
# A cursor over the bytes of a text

A place in a text is a byte offset here, and what is left there is cut off anew for each look at it,
which halts the run where the offset is inside a character. The steps are those of the scanner, said
with such offsets, and each of them follows its counterpart there (`Follows`). The cursor leaves a
trail of all the places it comes to, with the starts and ends of what may be done again and again; a
trail is sound if it never goes back and nothing is ended, or started again, where it was started
(`Sound`). What carries this through a run is that a step which takes something off the text moves
the cursor on, so that whatever was started was started before the place where it stands then
(`Settled`).
-/

set_option autoImplicit false

namespace CipherFlow.Text

/-! ## Bytes -/

theorem byteSize_append (s t : List Char) : byteSize (s ++ t) = byteSize s + byteSize t := by
  induction s with
  | nil => simp [byteSize]
  | cons c s ih => simp [byteSize, ih, Nat.add_assoc]

/-- A character has at least one byte. -/
theorem length_le_byteSize (s : List Char) : s.length ≤ byteSize s := by
  induction s with
  | nil => exact Nat.le_refl 0
  | cons c s ih =>
      have := c.utf8Size_pos
      rw [List.length_cons, byteSize]
      omega

theorem byteSize_pos {s : List Char} (h : s ≠ []) : 0 < byteSize s :=
  Nat.lt_of_lt_of_le (List.length_pos_iff.2 h) (length_le_byteSize s)

theorem utf8ByteSize_ofList (s : List Char) : (String.ofList s).utf8ByteSize = byteSize s := by
  induction s with
  | nil => rfl
  | cons c s ih =>
      rw [String.ofList_cons, String.utf8ByteSize_append, String.utf8ByteSize_singleton, ih,
        byteSize]

theorem byteSize_toList (text : String) : byteSize text.toList = text.utf8ByteSize := by
  rw [← utf8ByteSize_ofList, String.ofList_toList]

theorem length_toList_lt (text : String) : text.toList.length < text.utf8ByteSize + 1 := by
  rw [← byteSize_toList]
  exact Nat.lt_succ_of_le (length_le_byteSize _)

/-- The text before and behind a byte offset, which must be a character boundary. -/
def splitBytes? : List Char → Nat → Option (List Char × List Char)
  | s, 0 => some ([], s)
  | [], _ => none
  | c :: s, n =>
      if c.utf8Size ≤ n then
        (splitBytes? s (n - c.utf8Size)).map fun (p, r) => (c :: p, r)
      else
        none

theorem splitBytes?_byteSize (p r : List Char) :
    splitBytes? (p ++ r) (byteSize p) = some (p, r) := by
  induction p with
  | nil => simp [byteSize, splitBytes?]
  | cons c p ih =>
      have hc := c.utf8Size_pos
      rw [List.cons_append, byteSize, splitBytes?, if_pos (Nat.le_add_right _ _),
        Nat.add_sub_cancel_left, ih, Option.map_some]
      omega

/-- Whether a byte offset is a character boundary of a text, its end included. -/
def IsBoundary (text : String) (offset : Nat) : Prop :=
  offset ≤ text.utf8ByteSize ∧ (String.Pos.Raw.mk offset).IsValid text

theorem isBoundary_byteSize {text : String} {p s : List Char} (h : text.toList = p ++ s) :
    IsBoundary text (byteSize p) := by
  have hvalid : (String.Pos.Raw.mk (byteSize p)).IsValid text := by
    refine String.Pos.Raw.isValid_iff_exists_append.2 ⟨.ofList p, .ofList s, ?_, ?_⟩
    · rw [← String.ofList_append, ← h, String.ofList_toList]
    · rw [← utf8ByteSize_ofList]
      rfl
  exact ⟨hvalid.le_utf8ByteSize, hvalid⟩

/-! ## Steps of a cursor -/

/-- What may be done again and again over a text. -/
inductive Activity
  /-- Reading a type, or the type of its elements. -/
  | type
  /-- Reading one more dimension. -/
  | dimension
  /-- Reading a nested list, or an item of it as one. -/
  | nested
  /-- Reading one more item. -/
  | item
  deriving DecidableEq, Repr

/-- What a cursor does at a place. -/
inductive Event
  | moved
  | started (activity : Activity)
  | finished (activity : Activity)
  deriving DecidableEq, Repr

/-- An event and the place it leaves the cursor at. -/
structure Visit where
  event : Event
  position : Nat
  deriving DecidableEq, Repr

/-- A byte offset into a text, and all that has been done on the way to it. -/
structure Cursor where
  position : Nat
  trail : List Visit

/-- Why a run does not come to its end. -/
inductive Halt (ε : Type)
  /-- The text is refused. -/
  | refused (error : ε)
  /-- A text is cut where it has no character boundary. -/
  | badSlice (offset : Nat)
  /-- The budget for the calls and rounds under way is spent. -/
  | exhausted
  deriving DecidableEq, Repr

def Halt.map {ε ε' : Type} (f : ε → ε') : Halt ε → Halt ε'
  | .refused error => .refused (f error)
  | .badSlice offset => .badSlice offset
  | .exhausted => .exhausted

/-- A run of a cursor, which gives a value or halts. -/
abbrev Scan (ε : Type) := EStateM (Halt ε) Cursor

namespace Cursor

def start : Cursor := ⟨0, []⟩

/-- Every change of the place is a visit to the new one. -/
def visit (c : Cursor) (event : Event) (position : Nat) : Cursor :=
  ⟨position, c.trail ++ [⟨event, position⟩]⟩

section Steps

variable {ε α : Type} (text : String)

def moveTo (position : Nat) : Scan ε Unit := modify fun c => c.visit .moved position

def mark (event : Event) : Scan ε Unit := modify fun c => c.visit event c.position

/-- A step between the start and the end of an activity. -/
def during (activity : Activity) (step : Scan ε α) : Scan ε α := do
  mark (.started activity)
  let a ← step
  mark (.finished activity)
  return a

/-- What is left of the text. -/
def rest : Scan ε (List Char) := do
  let position := (← get).position
  match splitBytes? text.toList position with
  | some (_, s) => return s
  | none => throw (.badSlice position)

def skip : Scan ε Unit := do
  let s ← rest text
  moveTo (text.utf8ByteSize - byteSize (skipBlanks s))

def advance (bytes : Nat) : Scan ε Unit := do
  moveTo ((← get).position + bytes)

def refuse (complaint : Complaint) : Scan (Fault Nat) α := do
  throw (.refused (.unexpected (← get).position complaint))

/-- Whether the token comes next, behind blanks; then it is taken off. -/
def eat (token : Token) : Scan (Fault Nat) Bool := do
  skip text
  let s ← rest text
  if token.spell <+: s then
    advance (byteSize token.spell)
    return true
  else
    return false

def expect (token : Token) : Scan (Fault Nat) Unit := do
  if ← eat text token then return ()
  else refuse (.missing token)

/-- Whether a digit comes next, behind blanks. -/
def facesDigit : Scan (Fault Nat) Bool := do
  skip text
  return startsWithDigit (← rest text)

def number : Scan (Fault Nat) UInt64 := do
  skip text
  let s ← rest text
  let length := byteSize (s.takeWhile Char.isDigit)
  if length = 0 then
    refuse .missingNumber
  else
    match splitBytes? s length with
    | none => throw (.badSlice length)
    | some (ds, _) =>
        if small : value ds < UInt64.size then
          advance length
          return .ofNatLT (value ds) small
        else
          refuse .numberTooLarge

def bitWidth : Scan (Fault Nat) UInt32 := do
  let n ← number text
  if UInt32.size ≤ n.toNat then refuse .widthTooLarge
  else if n = 0 then throw (.refused .zeroWidth)
  else return n.toUInt32

def requireEnd : Scan (Fault Nat) Unit := do
  skip text
  if (← rest text) = [] then return ()
  else refuse .trailingInput

end Steps

end Cursor

/-! ## Sound trails -/

/-- What may come behind a visit: nothing before it, and an activity that is started there is ended,
or started again, only further on. -/
def Precedes (v w : Visit) : Prop :=
  v.position ≤ w.position ∧ ∀ activity, v.event = .started activity →
    w.event = .started activity ∨ w.event = .finished activity → v.position < w.position

/-- The trail of a cursor leads forward from boundary to boundary, up to where it stands. -/
structure Sound (text : String) (c : Cursor) : Prop where
  forward : c.trail.Pairwise Precedes
  behind : ∀ v ∈ c.trail, v.position ≤ c.position
  boundary : ∀ v ∈ c.trail, IsBoundary text v.position

/-- Whether an activity may be started or ended here. -/
def Cursor.Ready (c : Cursor) (activity : Activity) : Prop :=
  ∀ v ∈ c.trail, v.event = .started activity → v.position < c.position

/-- A cursor with a sound trail stands at the rest of the text. -/
structure Stands (text : String) (c : Cursor) (s : List Char) : Prop where
  sound : Sound text c
  place : ∃ p, text.toList = p ++ s ∧ byteSize p = c.position

/-- A cursor with a sound trail stands at the rest of the text, up to blanks. -/
def StandsNear (text : String) (c : Cursor) (s : List Char) : Prop :=
  ∃ t, Stands text c t ∧ skipBlanks t = skipBlanks s

/-- A cursor stands at the rest of the text, and any activity may be started or ended there. -/
structure Settled (text : String) (c : Cursor) (s : List Char) : Prop extends
    Stands text c s where
  ready : ∀ activity, c.Ready activity

section Trails

variable {text : String} {c : Cursor} {s t : List Char}

theorem Stands.isBoundary (h : Stands text c s) : IsBoundary text c.position := by
  obtain ⟨p, hp, hposition⟩ := h.place
  rw [← hposition]
  exact isBoundary_byteSize hp

theorem settled_start (text : String) : Settled text .start text.toList where
  sound := ⟨.nil, nofun, nofun⟩
  place := ⟨[], rfl, rfl⟩
  ready := nofun

theorem Stands.near (h : Stands text c s) : StandsNear text c s := ⟨s, h, rfl⟩

/-- The places of a fault and of the cursor agree. -/
theorem Stands.locate (h : Stands text c s) (complaint : Complaint) :
    (Fault.unexpected s complaint).locate text.toList = .unexpected c.position complaint := by
  obtain ⟨p, hp, hposition⟩ := h.place
  rw [Fault.locate, hp, byteSize_append, Nat.add_sub_cancel, hposition]

theorem Stands.near_of_skipBlanks (h : Stands text c (skipBlanks s)) : StandsNear text c s :=
  ⟨skipBlanks s, h, skipBlanks_skipBlanks s⟩

theorem Cursor.forall_mem_visit {p : Visit → Prop} {event : Event} {position : Nat} :
    (∀ v ∈ (c.visit event position).trail, p v) ↔ (∀ v ∈ c.trail, p v) ∧ p ⟨event, position⟩ := by
  rw [visit, List.forall_mem_append, List.forall_mem_singleton]

/-- A visit further on, or of an activity that may be started and ended, keeps the trail sound. -/
theorem Sound.visit (h : Sound text c) {event : Event} {position : Nat}
    (hle : c.position ≤ position) (hboundary : IsBoundary text position)
    (hready : ∀ activity, event = .started activity ∨ event = .finished activity →
      c.Ready activity) : Sound text (c.visit event position) where
  forward := by
    refine List.pairwise_append.2 ⟨h.forward, List.pairwise_singleton _ _, ?_⟩
    intro v hv w hw
    cases List.mem_singleton.1 hw
    refine ⟨Nat.le_trans (h.behind v hv) hle, fun activity hstarted hw => ?_⟩
    exact Nat.lt_of_lt_of_le (hready activity hw v hv hstarted) hle
  behind := Cursor.forall_mem_visit.2
    ⟨fun v hv => Nat.le_trans (h.behind v hv) hle, Nat.le_refl _⟩
  boundary := Cursor.forall_mem_visit.2 ⟨h.boundary, hboundary⟩

/-- An activity that may be started still may be behind a visit that does not start it. -/
theorem Cursor.Ready.visit {activity : Activity} (h : c.Ready activity) {event : Event}
    {position : Nat} (hle : c.position ≤ position) (hevent : event ≠ .started activity) :
    (c.visit event position).Ready activity :=
  Cursor.forall_mem_visit.2 ⟨fun v hv hstarted => Nat.lt_of_lt_of_le (h v hv hstarted) hle,
    fun hstarted => absurd hstarted hevent⟩

/-- Further on, any activity may be started or ended. -/
theorem Sound.ready_visit_moved (h : Sound text c) {position : Nat} (hlt : c.position < position)
    (activity : Activity) : (c.visit .moved position).Ready activity :=
  Cursor.forall_mem_visit.2 ⟨fun v hv _ => Nat.lt_of_le_of_lt (h.behind v hv) hlt, nofun⟩

/-- The cursor moves over a part of the text. -/
theorem Stands.advance {p : List Char} (h : Stands text c (p ++ s)) :
    Stands text (c.visit .moved (c.position + byteSize p)) s := by
  obtain ⟨q, hq, hposition⟩ := h.place
  have hq : text.toList = (q ++ p) ++ s := by rw [hq, List.append_assoc]
  have hsize : byteSize (q ++ p) = c.position + byteSize p := by rw [byteSize_append, hposition]
  exact ⟨h.sound.visit (Nat.le_add_right _ _) (hsize ▸ isBoundary_byteSize hq) nofun,
    q ++ p, hq, hsize⟩

theorem Stands.settled_advance {p : List Char} (h : Stands text c (p ++ s)) (hp : p ≠ []) :
    Settled text (c.visit .moved (c.position + byteSize p)) s :=
  ⟨h.advance, h.sound.ready_visit_moved (Nat.lt_add_of_pos_right (byteSize_pos hp))⟩

theorem Stands.mark (h : Stands text c s) {event : Event}
    (hready : ∀ activity, event = .started activity ∨ event = .finished activity →
      c.Ready activity) : Stands text (c.visit event c.position) s :=
  ⟨h.sound.visit (Nat.le_refl _) h.isBoundary hready, h.place⟩

end Trails

/-! ## Following the scanner -/

/-- A run of the cursor does what a reader of the text does: it gives the same value and stands at
the same rest, or is refused for the same fault, at its place. -/
inductive Follows {α β : Type} (text : String) (view : β → α × List Char) :
    Except (Fault (List Char)) β → EStateM.Result (Halt (Fault Nat)) Cursor α → Prop
  | ok {b : β} {c : Cursor} (h : Settled text c (view b).2) :
      Follows text view (.ok b) (.ok (view b).1 c)
  | zeroWidth {c : Cursor} (h : Sound text c) :
      Follows text view (.error .zeroWidth) (.error (.refused .zeroWidth) c)
  | unexpected {c : Cursor} {s : List Char} {complaint : Complaint} (h : Stands text c s) :
      Follows text view (.error (.unexpected s complaint))
        (.error (.refused (.unexpected c.position complaint)) c)

/-- What a reader gives, and the rest that it leaves. -/
abbrev placed {α : Type} {s : List Char} (b : α × Rest s) : α × List Char := (b.1, b.2.1)

/-- Steps that follow each other's counterparts do so in sequence. -/
theorem Follows.bind {α β α' β' : Type} {text : String} {view : β → α × List Char}
    {view' : β' → α' × List Char} {x : Except (Fault (List Char)) β}
    {f : β → Except (Fault (List Char)) β'} {y : Scan (Fault Nat) α} {g : α → Scan (Fault Nat) α'}
    {c : Cursor} (h : Follows text view x (y c))
    (hrest : ∀ b c', x = .ok b → Settled text c' (view b).2 →
      Follows text view' (f b) (g (view b).1 c')) :
    Follows text view' (x >>= f) ((y >>= g) c) := by
  generalize hy : y c = r at h
  cases h with
  | ok h =>
      rw [EStateM.bind_of_eq_ok hy]
      exact hrest _ _ rfl h
  | zeroWidth h =>
      rw [EStateM.bind_of_eq_error hy]
      exact .zeroWidth h
  | unexpected h =>
      rw [EStateM.bind_of_eq_error hy]
      exact .unexpected h

/-! ## Safe runs -/

/-- A run over a text comes to what is expected of it, which is a value or a refusal at a boundary
of the text, and leaves a sound trail. It is halted for no other reason. -/
inductive Safe {ε α : Type} (text : String) (offset? : ε → Option Nat) :
    Except ε α → EStateM.Result (Halt ε) Cursor α → Prop
  | ok {a : α} {c : Cursor} (h : Sound text c) : Safe text offset? (.ok a) (.ok a c)
  | error {e : ε} {c : Cursor} (h : Sound text c)
      (hoffset : ∀ offset, offset? e = some offset → IsBoundary text offset) :
      Safe text offset? (.error e) (.error (.refused e) c)

/-- The byte offset that a fault names. -/
def Fault.offset? : Fault Nat → Option Nat
  | .zeroWidth => none
  | .unexpected offset _ => some offset

/-- A run that follows a reader of the whole text is safe. -/
theorem Follows.safe {α : Type} {text : String} {x : Except (Fault (List Char)) α}
    {r : EStateM.Result (Halt (Fault Nat)) Cursor α} (h : Follows text (fun a => (a, [])) x r) :
    Safe text Fault.offset? (x.mapError (Fault.locate text.toList)) r := by
  cases h with
  | ok h => exact .ok h.sound
  | zeroWidth h => exact .error h nofun
  | unexpected h =>
      show Safe text _ (.error (Fault.locate text.toList _)) _
      rw [h.locate]
      refine .error h.sound fun offset hoffset => ?_
      cases hoffset
      exact h.isBoundary

/-! ## The steps follow the scanner -/

namespace Cursor

variable {text : String} {c : Cursor} {s : List Char}

theorem rest_eq {ε : Type} (h : Stands text c s) :
    (rest text : Scan ε (List Char)) c = .ok s c := by
  obtain ⟨p, hp, hposition⟩ := h.place
  have hget : (get : Scan ε Cursor) c = .ok c c := rfl
  rw [rest, EStateM.bind_of_eq_ok hget, hp, ← hposition, splitBytes?_byteSize]
  rfl

/-- Blanks are skipped, and what could be started or ended before them can be behind them. -/
theorem exists_skip {ε : Type} (h : StandsNear text c s) :
    ∃ c', (skip text : Scan ε Unit) c = .ok () c' ∧ Stands text c' (skipBlanks s) ∧
      ∀ activity, c.Ready activity → c'.Ready activity := by
  obtain ⟨t, ht, hts⟩ := h
  have hsplit : t.takeWhile isBlank ++ skipBlanks t = t := List.takeWhile_append_dropWhile
  have hposition : text.utf8ByteSize - byteSize (skipBlanks t)
      = c.position + byteSize (t.takeWhile isBlank) := by
    obtain ⟨p, hp, hc⟩ := ht.place
    rw [← byteSize_toList, hp, byteSize_append, ← congrArg byteSize hsplit, byteSize_append, hc]
    omega
  refine ⟨c.visit .moved (c.position + byteSize (t.takeWhile isBlank)), ?_, ?_, ?_⟩
  · rw [skip, EStateM.bind_of_eq_ok (rest_eq ht), hposition]
    rfl
  · rw [← hts]
    exact Stands.advance (hsplit.symm ▸ ht)
  · exact fun activity hready => hready.visit (Nat.le_add_right _ _) nofun

/-- A token that comes next is taken off. -/
theorem exists_eat_of_some {token : Token} {r : Rest s} (h : StandsNear text c s)
    (ht : token? token s = some r) :
    ∃ c', eat text token c = .ok true c' ∧ Settled text c' r.1 := by
  obtain ⟨c₁, hskip, hc₁, -⟩ := exists_skip h
  rw [token?_eq_some_iff.1 ht] at hc₁
  refine ⟨_, ?_, hc₁.settled_advance token.spell_ne_nil⟩
  rw [eat, EStateM.bind_of_eq_ok hskip, EStateM.bind_of_eq_ok (rest_eq hc₁),
    if_pos (List.prefix_append _ _)]
  rfl

/-- A token that does not come next leaves the cursor behind the blanks. -/
theorem exists_eat_of_none {token : Token} (h : StandsNear text c s) (ht : token? token s = none) :
    ∃ c', eat text token c = .ok false c' ∧ Stands text c' (skipBlanks s) ∧
      ∀ activity, c.Ready activity → c'.Ready activity := by
  obtain ⟨c₁, hskip, hc₁, hready⟩ := exists_skip h
  refine ⟨c₁, ?_, hc₁, hready⟩
  rw [eat, EStateM.bind_of_eq_ok hskip, EStateM.bind_of_eq_ok (rest_eq hc₁),
    if_neg (token?_eq_none_iff.1 ht)]
  rfl

/-- A choice on whether a token comes next. -/
theorem follows_choice {α β : Type} {view : β → α × List Char} {token : Token}
    {x : Except (Fault (List Char)) β} {y z : Scan (Fault Nat) α} (h : StandsNear text c s)
    (hsome : ∀ r c', token? token s = some r → Settled text c' r.1 → Follows text view x (y c'))
    (hnone : ∀ c', token? token s = none → Stands text c' (skipBlanks s) →
      (∀ activity, c.Ready activity → c'.Ready activity) → Follows text view x (z c')) :
    Follows text view x ((do if ← eat text token then y else z) c) := by
  cases ht : token? token s with
  | some r =>
      obtain ⟨c', heat, hc'⟩ := exists_eat_of_some h ht
      rw [EStateM.bind_of_eq_ok heat]
      exact hsome r c' ht hc'
  | none =>
      obtain ⟨c', heat, hc', hready⟩ := exists_eat_of_none h ht
      rw [EStateM.bind_of_eq_ok heat]
      exact hnone c' ht hc' hready

theorem follows_expect {token : Token} (h : StandsNear text c s) :
    Follows text (fun r : Rest s => ((), r.1)) (requireToken token s) (expect text token c) := by
  refine follows_choice h (fun r c' ht hc' => ?_) fun c' ht hc' _ => ?_
  · rw [requireToken, ht]
    exact .ok hc'
  · rw [requireToken, ht]
    exact .unexpected hc'

theorem exists_facesDigit (h : StandsNear text c s) :
    ∃ c', facesDigit text c = .ok (startsWithDigit (skipBlanks s)) c' ∧
      Stands text c' (skipBlanks s) ∧ ∀ activity, c.Ready activity → c'.Ready activity := by
  obtain ⟨c', hskip, hc', hready⟩ := exists_skip h
  refine ⟨c', ?_, hc', hready⟩
  rw [facesDigit, EStateM.bind_of_eq_ok hskip, EStateM.bind_of_eq_ok (rest_eq hc')]
  rfl

theorem follows_number (h : StandsNear text c s) :
    Follows text placed (Text.number s) (number text c) := by
  obtain ⟨c', hskip, hc', -⟩ := exists_skip h
  have hsplit : (skipBlanks s).takeWhile Char.isDigit ++ (skipBlanks s).dropWhile Char.isDigit
      = skipBlanks s := List.takeWhile_append_dropWhile
  have hcut := splitBytes?_byteSize ((skipBlanks s).takeWhile Char.isDigit)
    ((skipBlanks s).dropWhile Char.isDigit)
  rw [hsplit] at hcut
  rw [number, EStateM.bind_of_eq_ok hskip, EStateM.bind_of_eq_ok (rest_eq hc')]
  unfold Text.number
  split
  · next hnil =>
      rw [hnil]
      exact .unexpected hc'
  · next hne =>
      rw [if_neg (Nat.ne_of_gt (byteSize_pos hne)), hcut]
      split
      · next hsmall =>
          have hmoved : Settled text _ ((skipBlanks s).dropWhile Char.isDigit) :=
            Stands.settled_advance (hsplit.symm ▸ hc') hne
          simp only [dif_pos hsmall]
          exact .ok hmoved
      · next hlarge =>
          simp only [dif_neg hlarge]
          exact .unexpected hc'

theorem follows_bitWidth (h : StandsNear text c s) :
    Follows text placed (Text.bitWidth s) (bitWidth text c) := by
  have hbind : Text.bitWidth s = Text.number s >>= fun b =>
      if UInt32.size ≤ b.1.toNat then .error (.unexpected b.2.1 .widthTooLarge)
      else if b.1 = 0 then .error .zeroWidth
      else .ok (b.1.toUInt32, b.2) := by
    unfold Text.bitWidth
    cases Text.number s <;> rfl
  rw [hbind]
  refine (follows_number h).bind ?_
  rintro ⟨n, r⟩ c' - hc'
  by_cases hlarge : UInt32.size ≤ n.toNat
  · simp only [if_pos hlarge]
    exact .unexpected hc'.toStands
  · by_cases hzero : n = 0
    · simp only [if_neg hlarge, if_pos hzero]
      exact .zeroWidth hc'.sound
    · simp only [if_neg hlarge, if_neg hzero]
      exact .ok hc'

theorem follows_requireEnd (h : StandsNear text c s) (hc : ∀ activity, c.Ready activity) :
    Follows text (fun u : Unit => (u, [])) (Text.requireEnd s) (requireEnd text c) := by
  obtain ⟨c', hskip, hc', hready⟩ := exists_skip h
  rw [requireEnd, EStateM.bind_of_eq_ok hskip, EStateM.bind_of_eq_ok (rest_eq hc')]
  unfold Text.requireEnd
  split
  · next hnil =>
      rw [hnil] at hc'
      exact .ok ⟨hc', fun activity => hready activity (hc activity)⟩
  · exact .unexpected hc'

/-- An activity can be started where it may be, and what takes something off the text meanwhile lets
it be ended. -/
theorem follows_during {α β : Type} {view : β → α × List Char} {x : Except (Fault (List Char)) β}
    {step : Scan (Fault Nat) α} {activity : Activity} (h : StandsNear text c s)
    (hready : c.Ready activity)
    (hstep : ∀ c', StandsNear text c' s →
      (∀ other, other ≠ activity → c.Ready other → c'.Ready other) →
      Follows text view x (step c')) :
    Follows text view x (during activity step c) := by
  obtain ⟨t, ht, hts⟩ := h
  -- The start is a visit to the place where the cursor is; only the end comes further on.
  have hstarted : Stands text (c.visit (.started activity) c.position) t := by
    refine ht.mark fun other hother => ?_
    rcases hother with hother | hother <;> cases hother
    exact hready
  have hfollows := hstep _ ⟨t, hstarted, hts⟩ fun other hne hother =>
    hother.visit (Nat.le_refl _) fun heq => hne (Event.started.inj heq).symm
  unfold during
  rw [EStateM.bind_of_eq_ok (show mark (.started activity) c = .ok () _ from rfl)]
  generalize hy : step (c.visit (.started activity) c.position) = y at hfollows
  cases hfollows with
  | zeroWidth hc' =>
      rw [EStateM.bind_of_eq_error hy]
      exact .zeroWidth hc'
  | unexpected hc' =>
      rw [EStateM.bind_of_eq_error hy]
      exact .unexpected hc'
  | ok hc' =>
      rw [EStateM.bind_of_eq_ok hy]
      exact .ok ⟨hc'.toStands.mark fun other _ => hc'.ready other,
        fun other => (hc'.ready other).visit (Nat.le_refl _) nofun⟩

end Cursor

end CipherFlow.Text
