import CipherFlow.Proofs.Literal.Separable
import CipherFlow.Routine.Listing

/-!
# What a listing says

The contents of a listing, apart from the routine that is listed: the arguments, the types of the
results and the lines, with values under their labels. Main statement: contents whose literals are
well formed are told apart by their text (`Routine.Contents.spell_inj`).
-/

set_option autoImplicit false

namespace CipherFlow.Routine

open Text

/-! ## Labels and types -/

/-- The name of a value in a listing: the position of an argument, the index of any other value. -/
inductive Label
  | argument (position : Nat)
  | value (index : Nat)
  deriving DecidableEq, Repr

/-- The text of a label. -/
def Label.spell : Label → List Char
  | argument position => "%arg".toList ++ digits position
  | value index => '%' :: digits index

/-- The text of the type of a value, which may have none. -/
def spellType : Option Ty → List Char
  | some t => t.spell
  | none => "<unknown>".toList

/-- The text of an argument in the first line. -/
def spellArgument (argument : Label × Option Ty) : List Char :=
  argument.1.spell ++ ": ".toList ++ spellType argument.2

theorem Label.separable_spell : Separable Label.spell := by
  intro a b r s hr hs h
  cases a with
  | argument p =>
      cases b with
      | argument q =>
          obtain ⟨rfl, hrest⟩ := (separable_digits.append_left "%arg".toList) hr hs h
          exact ⟨rfl, hrest⟩
      | value w =>
          -- An index begins with a digit.
          obtain ⟨c, t, hc, hd⟩ := exists_digits_eq_cons w
          have hcons : 'a' = c := by
            simp only [spell, hc] at h
            exact (List.cons.inj (List.cons.inj h).2).1
          exact absurd (hcons ▸ hd) (by decide)
  | value v =>
      cases b with
      | argument q =>
          obtain ⟨c, t, hc, hd⟩ := exists_digits_eq_cons v
          have hcons : c = 'a' := by
            simp only [spell, hc] at h
            exact (List.cons.inj (List.cons.inj h).2).1
          exact absurd (hcons ▸ hd) (by decide)
      | value w =>
          obtain ⟨rfl, hrest⟩ := separable_digits hr hs (List.cons.inj h).2
          exact ⟨rfl, hrest⟩

/-- A type begins with none of the characters that begin the text for no type. -/
theorem head?_spell_ne (t : Ty) (r : List Char) (c : Char)
    (hc : c ≠ 'i' ∧ c ≠ '!' ∧ c ≠ 't') : (t.spell ++ r).head? ≠ some c := by
  intro h
  cases t with
  | clear w => exact hc.1 (Option.some.inj h).symm
  | encrypted w => exact hc.2.1 (Option.some.inj h).symm
  | tensor shape element => exact hc.2.2 (Option.some.inj h).symm

theorem separable_spellType : Separable spellType := by
  intro a b r s hr hs h
  cases a with
  | none =>
      cases b with
      | none => exact ⟨rfl, List.append_cancel_left h⟩
      | some u =>
          exact absurd (congrArg List.head? h.symm) (head?_spell_ne u s '<' (by decide))
  | some t =>
      cases b with
      | none => exact absurd (congrArg List.head? h) (head?_spell_ne t r '<' (by decide))
      | some u =>
          obtain ⟨rfl, hrest⟩ := Ty.separable_spell hr hs h
          exact ⟨rfl, hrest⟩

theorem head?_spellType_ne (t : Option Ty) (r : List Char) :
    (spellType t ++ r).head? ≠ some ')' := by
  cases t with
  | none =>
      intro h
      exact absurd (Option.some.inj h) (by decide)
  | some t => exact head?_spell_ne t r ')' (by decide)

theorem head?_labelSpell_ne (a : Label) (r : List Char) : (a.spell ++ r).head? ≠ some ')' := by
  intro h
  cases a <;> exact absurd (Option.some.inj h) (by decide)

theorem separable_spellArgument : Separable spellArgument := by
  rintro ⟨a, t⟩ ⟨b, u⟩ r s hr hs h
  simp only [spellArgument, List.append_assoc] at h
  obtain ⟨rfl, htype⟩ := Label.separable_spell rfl rfl h
  obtain ⟨rfl, hrest⟩ := separable_spellType hr hs (List.append_cancel_left htype)
  exact ⟨rfl, hrest⟩

/-! ## Lines -/

/-- What the line of an instruction says. The line of a return does not name its index. -/
inductive Line
  | constant (index : Nat) (literal : Literal) (ty : Ty)
  | primitive (index : Nat) (p : Primitive) (operands : List Label) (types : List (Option Ty))
      (result : Ty)
  | ret (operands : List Label) (types : List (Option Ty))
  deriving DecidableEq, Repr

namespace Line

/-- The text of operands with their types, from behind the parenthesis that opens the operands up to
that which closes the types. -/
def spellOperands (operands : List Label) (types : List (Option Ty)) : List Char :=
  commaSeparated (operands.map Label.spell) ++ ") : (".toList
    ++ commaSeparated (types.map spellType) ++ [')']

/-- The text of the line of a value, with what follows the name of its operation. -/
def spellValue (index : Nat) (mnemonic : String) (rest : List Char) : List Char :=
  "  ".toList ++ (Label.value index).spell ++ " = \"".toList ++ mnemonic.toList ++ '"' :: rest

/-- The text of the line of a constant. -/
def spellConstant (index : Nat) (literal : Literal) (ty : Ty) : List Char :=
  spellValue index "std.constant" <|
    "() \x7bvalue = ".toList ++ literal.spell ++ closingBrace :: " : () -> ".toList ++ ty.spell
      ++ ['\n']

/-- The text of the line of a primitive. -/
def spellPrimitive (index : Nat) (p : Primitive) (operands : List Label) (types : List (Option Ty))
    (result : Ty) : List Char :=
  spellValue index p.mnemonic <|
    '(' :: spellOperands operands types ++ " -> ".toList ++ result.spell ++ ['\n']

/-- The text of the line of a return. -/
def spellReturn (operands : List Label) (types : List (Option Ty)) : List Char :=
  "  ".toList ++ '"' :: "return\"(".toList ++ spellOperands operands types ++ " -> ()\n".toList

/-- The text of a line. -/
def spell : Line → List Char
  | constant index literal ty => spellConstant index literal ty
  | primitive index p operands types result => spellPrimitive index p operands types result
  | ret operands types => spellReturn operands types

/-- Whether the literal of a line, if it has one, is well formed. -/
def WellFormed : Line → Prop
  | constant _ literal _ => literal.WellFormed
  | primitive _ _ _ _ _ => True
  | ret _ _ => True

theorem spellOperands_append_inj {operands operands' : List Label} {types types' : List (Option Ty)}
    {r s : List Char}
    (h : spellOperands operands types ++ r = spellOperands operands' types' ++ s) :
    operands = operands' ∧ types = types' ∧ r = s := by
  simp only [spellOperands, String.reduceToList, List.append_assoc, List.cons_append,
    List.nil_append] at h
  obtain ⟨rfl, hbetween⟩ := Label.separable_spell.list head?_labelSpell_ne h
  simp only [List.cons.injEq, true_and] at hbetween
  obtain ⟨rfl, hrest⟩ := separable_spellType.list head?_spellType_ne hbetween
  exact ⟨rfl, rfl, hrest⟩

/-- The line of a value is told apart up to the name of its operation. -/
theorem spellValue_append_inj {index index' : Nat} {name name' : String}
    {rest rest' r s : List Char} (hname : '"' ∉ name.toList) (hname' : '"' ∉ name'.toList)
    (h : spellValue index name rest ++ r = spellValue index' name' rest' ++ s) :
    index = index' ∧ name = name' ∧ rest ++ r = rest' ++ s := by
  simp only [spellValue, List.append_assoc, List.cons_append] at h
  obtain ⟨hindex, htail⟩ := Label.separable_spell rfl rfl (List.append_cancel_left h)
  obtain ⟨hnames, hrest⟩ := append_cons_inj hname hname' (List.append_cancel_left htail)
  exact ⟨Label.value.inj hindex, String.toList_inj.1 hnames, hrest⟩

theorem quote_notMem_mnemonic (p : Primitive) : '"' ∉ p.mnemonic.toList := by
  cases p <;> decide

theorem mnemonic_injective {p q : Primitive} (h : p.mnemonic = q.mnemonic) : p = q := by
  cases p <;> cases q <;> first | rfl | exact absurd h (by decide)

theorem spellConstant_append_inj {index index' : Nat} {literal literal' : Literal} {ty ty' : Ty}
    {r s : List Char} (hl : literal.WellFormed) (hl' : literal'.WellFormed)
    (h : spellConstant index literal ty ++ r = spellConstant index' literal' ty' ++ s) :
    constant index literal ty = constant index' literal' ty' ∧ r = s := by
  obtain ⟨rfl, -, hvalue⟩ := spellValue_append_inj (by decide) (by decide) h
  simp only [List.append_assoc, List.cons_append] at hvalue
  obtain ⟨rfl, htype⟩ := hl.spell_append_brace_inj hl' (List.append_cancel_left hvalue)
  obtain ⟨rfl, hend⟩ := Ty.separable_spell rfl rfl (List.append_cancel_left htype)
  exact ⟨rfl, (List.cons.inj hend).2⟩

theorem spellPrimitive_append_inj {index index' : Nat} {p p' : Primitive}
    {operands operands' : List Label} {types types' : List (Option Ty)} {result result' : Ty}
    {r s : List Char}
    (h : spellPrimitive index p operands types result ++ r
      = spellPrimitive index' p' operands' types' result' ++ s) :
    primitive index p operands types result = primitive index' p' operands' types' result' ∧
      r = s := by
  obtain ⟨rfl, hname, hrest⟩ :=
    spellValue_append_inj (quote_notMem_mnemonic p) (quote_notMem_mnemonic p') h
  obtain rfl := mnemonic_injective hname
  simp only [List.append_assoc, List.cons_append] at hrest
  obtain ⟨rfl, rfl, hresult⟩ := spellOperands_append_inj (List.cons.inj hrest).2
  obtain ⟨rfl, hend⟩ := Ty.separable_spell rfl rfl (List.append_cancel_left hresult)
  exact ⟨rfl, (List.cons.inj hend).2⟩

theorem spellReturn_append_inj {operands operands' : List Label} {types types' : List (Option Ty)}
    {r s : List Char}
    (h : spellReturn operands types ++ r = spellReturn operands' types' ++ s) :
    ret operands types = ret operands' types' ∧ r = s := by
  simp only [spellReturn, List.append_assoc, List.cons_append] at h
  have hquote := (List.cons.inj (List.append_cancel_left h)).2
  obtain ⟨rfl, rfl, hend⟩ := spellOperands_append_inj (List.append_cancel_left hquote)
  exact ⟨rfl, List.append_cancel_left hend⟩

/-- No primitive has the name of a constant. -/
theorem spellConstant_append_ne {index index' : Nat} {literal : Literal} {ty result : Ty}
    {p : Primitive} {operands : List Label} {types : List (Option Ty)} {r s : List Char} :
    spellConstant index literal ty ++ r
      ≠ spellPrimitive index' p operands types result ++ s := by
  intro h
  have hname := (spellValue_append_inj (by decide) (quote_notMem_mnemonic p) h).2.1
  cases p <;> exact absurd hname (by decide)

/-- The line of a return begins with no index. -/
theorem spellReturn_append_ne {operands : List Label} {types : List (Option Ty)} {index : Nat}
    {name : String} {rest r s : List Char} :
    spellReturn operands types ++ r ≠ spellValue index name rest ++ s := by
  intro h
  simp only [spellReturn, spellValue, Label.spell, List.append_assoc, List.cons_append] at h
  exact absurd (List.cons.inj (List.append_cancel_left h)).1 (by decide)

/-- Lines are told apart by their text, whatever follows them. -/
theorem spell_append_inj {l l' : Line} {r s : List Char} (hl : l.WellFormed) (hl' : l'.WellFormed)
    (h : l.spell ++ r = l'.spell ++ s) : l = l' ∧ r = s := by
  cases l with
  | constant index literal ty =>
      cases l' with
      | constant index' literal' ty' => exact spellConstant_append_inj hl hl' h
      | primitive index' p operands types result => exact absurd h spellConstant_append_ne
      | ret operands types => exact absurd h.symm spellReturn_append_ne
  | primitive index p operands types result =>
      cases l' with
      | constant index' literal ty => exact absurd h.symm spellConstant_append_ne
      | primitive index' p' operands' types' result' => exact spellPrimitive_append_inj h
      | ret operands' types' => exact absurd h.symm spellReturn_append_ne
  | ret operands types =>
      cases l' with
      | constant index literal ty => exact absurd h spellReturn_append_ne
      | primitive index p operands' types' result => exact absurd h spellReturn_append_ne
      | ret operands' types' => exact spellReturn_append_inj h

theorem flatMap_spell_append_inj {lines lines' : List Line} {r s : List Char}
    (hlines : ∀ l ∈ lines, l.WellFormed) (hlines' : ∀ l ∈ lines', l.WellFormed)
    (h : lines.flatMap spell ++ closingBrace :: r = lines'.flatMap spell ++ closingBrace :: s) :
    lines = lines' ∧ r = s := by
  -- No line begins with the brace that closes the listing.
  have hstart (l : Line) (rest text : List Char) : closingBrace :: text ≠ l.spell ++ rest := by
    intro heq
    cases l <;> exact absurd (List.cons.inj heq).1 (by decide)
  induction lines generalizing lines' with
  | nil =>
      cases lines' with
      | nil => exact ⟨rfl, (List.cons.inj h).2⟩
      | cons l' lines' =>
          rw [List.flatMap_cons, List.append_assoc] at h
          exact absurd h (hstart l' _ r)
  | cons l lines ih =>
      rw [List.flatMap_cons, List.append_assoc] at h
      cases lines' with
      | nil => exact absurd h.symm (hstart l _ s)
      | cons l' lines' =>
          rw [List.flatMap_cons, List.append_assoc] at h
          obtain ⟨hl, htail⟩ := List.forall_mem_cons.1 hlines
          obtain ⟨hl', htail'⟩ := List.forall_mem_cons.1 hlines'
          obtain ⟨rfl, hrest⟩ := spell_append_inj hl hl' h
          obtain ⟨rfl, hend⟩ := ih htail htail' hrest
          exact ⟨rfl, hend⟩

end Line

/-! ## Contents -/

/-- What a listing says behind the name of the routine. -/
structure Contents where
  /-- The arguments with their types. -/
  arguments : List (Label × Option Ty)
  /-- The types of the results. -/
  results : List (Option Ty)
  /-- The lines, one for each instruction that is no argument. -/
  lines : List Line
  deriving DecidableEq, Repr

/-- The text of contents. -/
def Contents.spell (c : Contents) : List Char :=
  '(' :: commaSeparated (c.arguments.map spellArgument) ++ ") -> (".toList
    ++ commaSeparated (c.results.map spellType) ++ ") \x7b\n".toList ++ c.lines.flatMap Line.spell
    ++ [closingBrace]

/-- Contents whose literals are well formed are told apart by their text. -/
theorem Contents.spell_inj {c c' : Contents} (hc : ∀ l ∈ c.lines, l.WellFormed)
    (hc' : ∀ l ∈ c'.lines, l.WellFormed) (h : c.spell = c'.spell) : c = c' := by
  obtain ⟨arguments, results, lines⟩ := c
  obtain ⟨arguments', results', lines'⟩ := c'
  have hstart (argument : Label × Option Ty) (r : List Char) :
      (spellArgument argument ++ r).head? ≠ some ')' := by
    rw [spellArgument, List.append_assoc, List.append_assoc]
    exact head?_labelSpell_ne argument.1 _
  simp only [spell, List.append_assoc, List.cons_append, List.cons.injEq, true_and] at h
  obtain ⟨rfl, hresults⟩ := separable_spellArgument.list hstart h
  obtain ⟨rfl, hlines⟩ :=
    separable_spellType.list head?_spellType_ne (List.append_cancel_left hresults)
  obtain ⟨rfl, -⟩ := Line.flatMap_spell_append_inj hc hc' (List.append_cancel_left hlines)
  rfl

end CipherFlow.Routine
