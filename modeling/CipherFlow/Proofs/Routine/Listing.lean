import CipherFlow.Proofs.Routine.Contents
import CipherFlow.Proofs.Routine.SingleAssignment

/-!
# A listing determines its routine

An argument has no line of its own: it shows in the first line only, and the indices that no line
has are those of the arguments, in order. A return does not name its index, but it stands last. So a
routine that calls made is known from what its listing says (`Routine.Listable.eq_of_contents_eq`),
and this is known from the text. Main statement: `Routine.ofCalls_eq_of_toString_eq`.
-/

set_option autoImplicit false

namespace CipherFlow.Routine

open Text

/-! ## What the listing of a routine says -/

/-- Whether an instruction stands for an argument. -/
def isArgument (r : Routine) (v : Nat) : Bool :=
  match r.instruction? v with
  | some ⟨.argument _, _, _⟩ => true
  | _ => false

/-- The label of a value. -/
def label (r : Routine) (v : Nat) : Label :=
  match r.instruction? v with
  | some ⟨.argument position, _, _⟩ => .argument position
  | _ => .value v

/-- What the line of an instruction says; an argument has none. -/
def line? (r : Routine) (v : Nat) : Option Line :=
  match r.instruction? v with
  | some ⟨.constant literal, _, some t⟩ => some (.constant v literal t)
  | some ⟨.primitive p, operands, some t⟩ =>
      some (.primitive v p (operands.map r.label) (operands.map r.type?) t)
  | some ⟨.ret, operands, _⟩ => some (.ret (operands.map r.label) (operands.map r.type?))
  | _ => none

/-- What the listing of a routine says behind its name. -/
def contents (r : Routine) : Contents where
  arguments := r.arguments.map fun a => (r.label a, r.type? a)
  results := r.results.map r.type?
  lines := (List.range r.size).filterMap r.line?

variable {r r' : Routine} {v : Nat} {l : Line}

theorem spell_label (r : Routine) (v : Nat) : (r.label v).spell = r.valueName v := by
  unfold label valueName
  rcases r.instruction? v with - | ⟨op, operands, result⟩
  · rfl
  · cases op <;> rfl

theorem spellType_type? (r : Routine) (v : Nat) : spellType (r.type? v) = r.valueType v := by
  unfold spellType valueType
  cases r.type? v <;> rfl

theorem spellOperands_eq (r : Routine) (vs : List Nat) :
    Line.spellOperands (vs.map r.label) (vs.map r.type?)
      = r.valueNames vs ++ ") : (".toList ++ r.valueTypes vs ++ [')'] := by
  have hlabels : (vs.map r.label).map Label.spell = vs.map r.valueName := by
    rw [List.map_map]
    exact List.map_congr_left fun v _ => r.spell_label v
  have htypes : (vs.map r.type?).map spellType = vs.map r.valueType := by
    rw [List.map_map]
    exact List.map_congr_left fun v _ => r.spellType_type? v
  rw [Line.spellOperands, hlabels, htypes]
  rfl

/-- The text of an instruction is that of its line. -/
theorem line_eq_spell {i : Instruction} (h : r.instruction? v = some i) (hi : r.Admits i) :
    r.line v i = ((r.line? v).map Line.spell).getD [] := by
  cases hi with
  | @argument position ty =>
      have hline : r.line? v = none := by simp only [line?, h]
      rw [hline]
      rfl
  | @constant literal =>
      have hline : r.line? v = some (.constant v literal literal.ty) := by simp only [line?, h]
      have hname : r.valueName v = (Label.value v).spell := by
        rw [← spell_label]
        simp only [label, h]
      rw [hline]
      simp only [line, hname, Op.mnemonic, Option.map_some, Option.getD_some, Line.spell,
        Line.spellConstant, Line.spellValue, closingBrace, String.reduceToList, List.append_assoc,
        List.cons_append, List.nil_append]
  | @primitive p left right leftTy rightTy result hleft hright htakes =>
      have hline : r.line? v = some (.primitive v p ([left, right].map r.label)
          ([left, right].map r.type?) result) := by simp only [line?, h]
      have hname : r.valueName v = (Label.value v).spell := by
        rw [← spell_label]
        simp only [label, h]
      rw [hline]
      simp only [line, hname, Op.mnemonic, Option.map_some, Option.getD_some, Line.spell,
        Line.spellPrimitive, Line.spellValue, spellOperands_eq, String.reduceToList,
        List.append_assoc, List.cons_append, List.nil_append]
  | @ret values hvalues =>
      have hline : r.line? v = some (.ret (values.map r.label) (values.map r.type?)) := by
        simp only [line?, h]
      rw [hline]
      simp only [line, Op.mnemonic, Option.map_some, Option.getD_some, Line.spell,
        Line.spellReturn, spellOperands_eq, String.reduceToList, List.append_assoc,
        List.cons_append, List.nil_append]

/-- The lines that are not empty are those of the contents. -/
theorem flatMap_line_eq (h : ∀ v i, r.instruction? v = some i → r.Admits i) :
    (r.instructions.toList.zipIdx.flatMap fun (i, v) => r.line v i)
      = r.contents.lines.flatMap Line.spell := by
  have hline : ∀ p ∈ r.instructions.toList.zipIdx,
      r.line p.2 p.1 = ((r.line? p.2).map Line.spell).getD [] := by
    intro p hp
    have hi : r.instruction? p.2 = some p.1 := by
      rw [← getElem?_instructions, ← Array.getElem?_toList]
      exact List.mk_mem_zipIdx_iff_getElem?.1 hp
    exact line_eq_spell hi (h p.2 p.1 hi)
  have hrange : List.range r.size = r.instructions.toList.zipIdx.map Prod.snd := by
    rw [List.zipIdx_map_snd, Array.length_toList, size_instructions, List.range_eq_range']
  calc (r.instructions.toList.zipIdx.flatMap fun (i, v) => r.line v i)
      = r.instructions.toList.zipIdx.flatMap fun p =>
          ((r.line? p.2).map Line.spell).getD [] := by
        rw [List.flatMap_def, List.flatMap_def, List.map_congr_left hline]
    _ = (List.range r.size).flatMap fun v => ((r.line? v).map Line.spell).getD [] := by
        rw [hrange, List.flatMap_map]
    _ = r.contents.lines.flatMap Line.spell := by
        rw [contents, List.filterMap_eq_flatMap_toList, List.flatMap_assoc, List.flatMap_def,
          List.flatMap_def]
        refine congrArg List.flatten (List.map_congr_left fun v _ => ?_)
        cases r.line? v with
        | none => rfl
        | some l => exact (List.append_nil l.spell).symm

theorem listing_eq (h : ∀ v i, r.instruction? v = some i → r.Admits i) :
    r.listing = "func @".toList ++ r.name.toList ++ r.contents.spell := by
  have harguments : (r.arguments.map fun a => r.valueName a ++ ": ".toList ++ r.valueType a)
      = r.contents.arguments.map spellArgument := by
    rw [contents, List.map_map]
    refine List.map_congr_left fun a _ => ?_
    rw [Function.comp_apply, spellArgument, spell_label, spellType_type?]
  have hresults : r.valueTypes r.results = commaSeparated (r.contents.results.map spellType) := by
    rw [contents, List.map_map]
    exact congrArg commaSeparated (List.map_congr_left fun a _ => (r.spellType_type? a).symm)
  calc r.listing
      = "func @".toList ++ r.name.toList ++ ['(']
          ++ commaSeparated (r.arguments.map fun a =>
            r.valueName a ++ ": ".toList ++ r.valueType a)
          ++ ") -> (".toList ++ r.valueTypes r.results ++ ") \x7b\n".toList
          ++ (r.instructions.toList.zipIdx.flatMap fun (i, v) => r.line v i)
          ++ "\x7d".toList := rfl
    _ = "func @".toList ++ r.name.toList ++ r.contents.spell := by
        rw [harguments, hresults, flatMap_line_eq h, Contents.spell]
        simp only [closingBrace, String.reduceToList, List.append_assoc, List.cons_append,
          List.nil_append]

/-! ## Routines that calls make -/

/-- What a listing relies on to determine a routine. -/
structure Listable (r : Routine) : Prop extends r.SingleAssignment where
  /-- The arguments are listed in the order of their indices. -/
  arguments_eq : r.arguments = (List.range r.size).filter r.isArgument
  wellFormed : ∀ v i literal, r.instruction? v = some i → i.op = .constant literal →
    literal.WellFormed

theorem isArgument_congr (h : r.instruction? v = r'.instruction? v) :
    r.isArgument v = r'.isArgument v := by
  unfold isArgument
  rw [h]

/-- A call adds an index to those of the arguments exactly if it adds an argument. -/
theorem arguments_extend (h : r.arguments = (List.range r.size).filter r.isArgument)
    (c : Emission.Call) :
    (c.extend r).arguments = (List.range (c.extend r).size).filter (c.extend r).isArgument := by
  have hbefore : (List.range r.size).filter (c.extend r).isArgument = r.arguments := by
    rw [h]
    refine List.filter_congr fun v hv => isArgument_congr ?_
    rw [Emission.Call.instruction?_extend, instruction?_push,
      if_neg (Nat.ne_of_lt (List.mem_range.1 hv))]
  have hnew : (c.extend r).instruction? r.size = some (c.instruction r.arguments.length) := by
    rw [Emission.Call.instruction?_extend, instruction?_push_size]
  rw [Emission.Call.size_extend, List.range_succ, List.filter_append, hbefore,
    List.filter_singleton, isArgument, hnew]
  cases c with
  | argument ty => rfl
  | constant literal => exact (List.append_nil r.arguments).symm
  | primitive p result left right => exact (List.append_nil r.arguments).symm
  | ret values => exact (List.append_nil r.arguments).symm

namespace Listable

theorem empty (name : String) : (Routine.empty name).Listable where
  toSingleAssignment := SingleAssignment.empty name
  arguments_eq := rfl
  wellFormed _ _ _ hi := nomatch hi

/-- An accepted call keeps what a listing relies on. -/
theorem extend (h : r.Listable) {c : Emission.Call} (hc : c.check r = .ok ())
    (hliteral : ∀ literal, c = .constant literal → literal.WellFormed) :
    (c.extend r).Listable where
  toSingleAssignment := h.toSingleAssignment.extend hc
  arguments_eq := arguments_extend h.arguments_eq c
  wellFormed v i literal hi hop := by
    rw [Emission.Call.instruction?_extend] at hi
    rcases instruction?_push_eq_some hi with ⟨-, rfl⟩ | hi
    · cases c with
      | constant literal' =>
          cases hop
          exact hliteral literal rfl
      | argument ty => nomatch hop
      | primitive p result left right => nomatch hop
      | ret values => nomatch hop
    · exact h.wellFormed v i literal hi hop

theorem call (h : r.Listable) {c : Emission.Call}
    (hliteral : ∀ literal, c = .constant literal → literal.WellFormed) : (r.call c).Listable := by
  rcases r.call_cases c with ⟨hc, -, hcall⟩ | ⟨e, -, -, hcall⟩
  · rw [hcall]
    exact h.extend hc hliteral
  · rwa [hcall]

theorem foldl_call (h : r.Listable) {calls : List Emission.Call}
    (hcalls : ∀ literal, .constant literal ∈ calls → literal.WellFormed) :
    (calls.foldl Routine.call r).Listable := by
  induction calls generalizing r with
  | nil => exact h
  | cons c calls ih =>
      refine ih (h.call fun literal hc => ?_) fun literal hc => ?_
      · exact hcalls literal (hc ▸ List.mem_cons_self)
      · exact hcalls literal (List.mem_cons_of_mem c hc)

end Listable

/-! ## Labels and lines read back -/

theorem exists_instruction? (hv : v < r.size) : ∃ i, r.instruction? v = some i := by
  rw [instruction?, Array.getElem?_eq_getElem hv]
  exact ⟨_, rfl⟩

theorem label_eq_value (hv : r.isArgument v = false) : r.label v = .value v := by
  unfold isArgument at hv
  unfold label
  rcases hi : r.instruction? v with - | ⟨op, operands, result⟩
  · rfl
  · rw [hi] at hv
    cases op with
    | argument position => cases hv
    | constant literal => rfl
    | primitive p => rfl
    | ret => rfl

theorem exists_instruction?_of_label {position : Nat} (hv : r.label v = .argument position) :
    ∃ i, r.instruction? v = some i ∧ i.op = .argument position := by
  unfold label at hv
  split at hv
  · next hi => exact ⟨_, hi, congrArg Op.argument (Label.argument.inj hv)⟩
  · cases hv

/-- No two values have the same label. -/
theorem SingleAssignment.label_injective (h : r.SingleAssignment) :
    Function.Injective r.label := by
  have hvalue {a w : Nat} (ha : r.label a = .value w) : a = w := by
    unfold label at ha
    split at ha
    · cases ha
    · exact Label.value.inj ha
  intro a b hab
  cases hb : r.label b with
  | argument position =>
      have ha := (h.arguments_iff position a).2 (exists_instruction?_of_label (hab.trans hb))
      have hb := (h.arguments_iff position b).2 (exists_instruction?_of_label hb)
      exact Option.some.inj (ha.symm.trans hb)
  | value w => rw [hvalue hb, hvalue (hab.trans hb)]

/-- Whether a line is that of an instruction, where values have the given labels. -/
def Line.IsOf (label : Nat → Label) : Line → Instruction → Prop
  | constant _ literal t, i => i = ⟨.constant literal, [], some t⟩
  | primitive _ p operands _ t, i =>
      ∃ values, values.map label = operands ∧ i = ⟨.primitive p, values, some t⟩
  | ret operands _, i => ∃ values, values.map label = operands ∧ i = ⟨.ret, values, none⟩

theorem Line.IsOf.unique {label : Nat → Label} (hlabel : Function.Injective label)
    {i j : Instruction} (hi : l.IsOf label i) (hj : l.IsOf label j) : i = j := by
  cases l with
  | constant w literal t => exact Eq.trans hi (Eq.symm hj)
  | primitive w p operands types t =>
      obtain ⟨values, hvalues, rfl⟩ := hi
      obtain ⟨values', hvalues', rfl⟩ := hj
      rw [List.map_injective_iff.2 hlabel (hvalues.trans hvalues'.symm)]
  | ret operands types =>
      obtain ⟨values, hvalues, rfl⟩ := hi
      obtain ⟨values', hvalues', rfl⟩ := hj
      rw [List.map_injective_iff.2 hlabel (hvalues.trans hvalues'.symm)]

theorem isOf_of_line? {i : Instruction} (hi : r.instruction? v = some i) (hadmits : r.Admits i)
    (hl : r.line? v = some l) : l.IsOf r.label i := by
  rw [line?, hi] at hl
  cases hadmits with
  | argument => cases hl
  | constant =>
      cases hl
      rfl
  | primitive hleft hright htakes =>
      cases hl
      exact ⟨_, rfl, rfl⟩
  | ret hvalues =>
      cases hl
      exact ⟨_, rfl, rfl⟩

theorem Admits.eq_of_op_eq_argument {i : Instruction} {position : Nat} (h : r.Admits i)
    (hop : i.op = .argument position) : i = ⟨.argument position, [], i.result⟩ := by
  cases h with
  | argument =>
      cases hop
      rfl
  | constant => nomatch hop
  | primitive hleft hright htakes => nomatch hop
  | ret hvalues => nomatch hop

theorem returned_eq (r : Routine) :
    r.returned = if r.isTerminated then some r.results else none := by
  unfold isTerminated results
  cases r.returned <;> rfl

/-! ## From the contents back to the routine -/

/-- The index of the instruction that a line is about, in a routine of the given size. -/
def Line.index (size : Nat) : Line → Nat
  | constant v _ _ => v
  | primitive v _ _ _ _ => v
  | ret _ _ => size - 1

namespace Listable

/-- The instructions that are no arguments have a line, which is about them. -/
theorem map_index_line? (h : r.Listable) (hv : v < r.size) :
    (r.line? v).map (Line.index r.size) = Option.guard (fun v => !r.isArgument v) v := by
  obtain ⟨i, hi⟩ := exists_instruction? hv
  simp only [line?, isArgument, Option.guard, hi]
  cases h.admits v i hi with
  | argument => rfl
  | constant => rfl
  | primitive hleft hright htakes => rfl
  | ret hvalues =>
      obtain ⟨hlast, -⟩ := h.ret_last v _ hi rfl
      show some (r.size - 1) = some v
      rw [← hlast, Nat.add_sub_cancel]

theorem map_index_lines (h : r.Listable) :
    r.contents.lines.map (Line.index r.size) = (List.range r.size).filter (!r.isArgument ·) := by
  rw [contents, List.map_filterMap, ← List.filterMap_eq_filter]
  exact List.filterMap_congr fun v hv => h.map_index_line? (List.mem_range.1 hv)

/-- Each instruction is an argument or has a line. -/
theorem size_eq (h : r.Listable) :
    r.size = r.contents.arguments.length + r.contents.lines.length := by
  calc r.size
      = (List.range r.size).length := (List.length_range).symm
    _ = ((List.range r.size).filter r.isArgument).length
          + ((List.range r.size).filter (!r.isArgument ·)).length :=
        List.length_eq_length_filter_add r.isArgument
    _ = r.contents.arguments.length + r.contents.lines.length := by
        rw [← h.arguments_eq, ← h.map_index_lines, List.length_map, contents, List.length_map]

theorem mem_arguments_iff (h : r.Listable) : v ∈ r.arguments ↔ r.isArgument v = true := by
  rw [h.arguments_eq, List.mem_filter, List.mem_range, and_iff_right_iff_imp]
  intro hv
  by_contra hsize
  rw [isArgument, instruction?_eq_none (Nat.le_of_not_lt hsize)] at hv
  cases hv

/-- Every line is the line of the index that it is about. -/
theorem line?_eq_some_iff (h : r.Listable) :
    r.line? v = some l ↔ l ∈ r.contents.lines ∧ l.index r.size = v := by
  have hindex {w : Nat} (hw : w < r.size) (hl : r.line? w = some l) : l.index r.size = w := by
    have hguard := h.map_index_line? hw
    rw [hl, Option.map_some, eq_comm, Option.guard_eq_some_iff] at hguard
    exact hguard.1.symm
  simp only [contents, List.mem_filterMap, List.mem_range]
  constructor
  · intro hl
    have hv : v < r.size := by
      by_contra hsize
      rw [line?, instruction?_eq_none (Nat.le_of_not_lt hsize)] at hl
      cases hl
    exact ⟨⟨v, hv, hl⟩, hindex hv hl⟩
  · rintro ⟨⟨w, hw, hl⟩, rfl⟩
    rwa [hindex hw hl]

variable (h : r.Listable) (h' : r'.Listable) (hc : r.contents = r'.contents)
include h h' hc

theorem size_congr : r.size = r'.size := by
  rw [h.size_eq, h'.size_eq, hc]

/-- The indices without a line are those of the arguments. -/
theorem arguments_congr : r.arguments = r'.arguments := by
  have hindices : (List.range r.size).filter (!r.isArgument ·)
      = (List.range r.size).filter (!r'.isArgument ·) := by
    rw [← h.map_index_lines, size_congr h h' hc, ← h'.map_index_lines, hc]
  rw [h.arguments_eq, h'.arguments_eq, ← size_congr h h' hc]
  refine List.filter_congr fun v hv => ?_
  have hmem : v ∈ (List.range r.size).filter (!r.isArgument ·) ↔
      v ∈ (List.range r.size).filter (!r'.isArgument ·) := by rw [hindices]
  simpa [List.mem_range.1 hv] using hmem

/-- The first line names the arguments and their types. -/
theorem argument_eq {a : Nat} (ha : a ∈ r.arguments) :
    r.label a = r'.label a ∧ r.type? a = r'.type? a := by
  have harguments := congrArg Contents.arguments hc
  simp only [contents, ← arguments_congr h h' hc] at harguments
  exact Prod.mk.inj (List.map_inj_left.1 harguments a ha)

theorem label_congr : r.label = r'.label := by
  funext v
  by_cases hv : v ∈ r.arguments
  · exact (argument_eq h h' hc hv).1
  · have hv' : v ∉ r'.arguments := arguments_congr h h' hc ▸ hv
    rw [h.mem_arguments_iff, Bool.not_eq_true] at hv
    rw [h'.mem_arguments_iff, Bool.not_eq_true] at hv'
    rw [label_eq_value hv, label_eq_value hv']

theorem line?_congr : r.line? v = r'.line? v := by
  ext l
  rw [h.line?_eq_some_iff, h'.line?_eq_some_iff, hc, size_congr h h' hc]

/-- Both routines have the same instructions. -/
theorem instruction?_of_contents_eq {i : Instruction} (hi : r.instruction? v = some i) :
    r'.instruction? v = some i := by
  have hv : v < r.size := lt_size_of_instruction? hi
  obtain ⟨i', hi'⟩ := exists_instruction? (size_congr h h' hc ▸ hv : v < r'.size)
  have hadmits := h.admits v i hi
  have hadmits' := h'.admits v i' hi'
  obtain rfl : i = i' := by
    by_cases hargument : v ∈ r.arguments
    · -- An argument is known by its position and its type.
      obtain ⟨position, hposition⟩ := List.mem_iff_getElem?.1 hargument
      have hposition' := hposition
      rw [arguments_congr h h' hc] at hposition'
      obtain ⟨j, hj, hop⟩ := (h.arguments_iff position v).1 hposition
      obtain ⟨j', hj', hop'⟩ := (h'.arguments_iff position v).1 hposition'
      obtain rfl := Option.some.inj (hi.symm.trans hj)
      obtain rfl := Option.some.inj (hi'.symm.trans hj')
      have htype := (argument_eq h h' hc hargument).2
      rw [type?_of_instruction? hi, type?_of_instruction? hi'] at htype
      rw [hadmits.eq_of_op_eq_argument hop, hadmits'.eq_of_op_eq_argument hop', htype]
    · rw [h.mem_arguments_iff, Bool.not_eq_true] at hargument
      have hindex := h.map_index_line? hv
      obtain ⟨l, hl, -⟩ : ∃ l, r.line? v = some l ∧ l.index r.size = v := by
        rw [← Option.map_eq_some_iff, hindex]
        simp [hargument]
      have hl' : r'.line? v = some l := line?_congr h h' hc ▸ hl
      have hisOf' := isOf_of_line? hi' hadmits' hl'
      rw [← label_congr h h' hc] at hisOf'
      exact (isOf_of_line? hi hadmits hl).unique h.label_injective hisOf'
  exact hi'

theorem isTerminated_congr : r.isTerminated = r'.isTerminated := by
  rw [Bool.eq_iff_iff, h.isTerminated_iff, h'.isTerminated_iff]
  constructor
  · rintro ⟨v, i, hi, hop⟩
    exact ⟨v, i, instruction?_of_contents_eq h h' hc hi, hop⟩
  · rintro ⟨v, i, hi, hop⟩
    exact ⟨v, i, instruction?_of_contents_eq h' h hc.symm hi, hop⟩

theorem returned_congr : r.returned = r'.returned := by
  rw [returned_eq r, returned_eq r', ← isTerminated_congr h h' hc]
  by_cases hterminated : r.isTerminated = true
  · -- Both return the operands of the one instruction that returns.
    obtain ⟨v, i, hi, hop⟩ := h.isTerminated_iff.1 hterminated
    have hi' := instruction?_of_contents_eq h h' hc hi
    rw [← (h.ret_last v i hi hop).2, ← (h'.ret_last v i hi' hop).2]
  · rw [if_neg hterminated, if_neg hterminated]

theorem entries_congr : r.entries = r'.entries := by
  refine Array.ext_getElem? fun v => ?_
  have hinstruction : r.instruction? v = r'.instruction? v := Option.ext fun i =>
    ⟨instruction?_of_contents_eq h h' hc, instruction?_of_contents_eq h' h hc.symm⟩
  rw [getElem?_entries, getElem?_entries, hinstruction]

theorem links_congr : r.links = r'.links := by
  rw [h.links_eq, h'.links_eq, ← size_congr h h' hc]
  refine List.flatMap_congr fun v hv => ?_
  obtain ⟨i, hi⟩ := exists_instruction? (List.mem_range.1 hv)
  rw [operands_of_instruction? hi,
    operands_of_instruction? (instruction?_of_contents_eq h h' hc hi)]

/-- A routine is determined by its name and what its listing says. -/
theorem eq_of_contents_eq (hname : r.name = r'.name) : r = r' := by
  have hentries := entries_congr h h' hc
  have hlinks := links_congr h h' hc
  have harguments := arguments_congr h h' hc
  have hreturned := returned_congr h h' hc
  obtain ⟨name, entries, links, arguments, returned, htarget⟩ := r
  obtain ⟨name', entries', links', arguments', returned', htarget'⟩ := r'
  cases hname
  cases hentries
  cases hlinks
  cases harguments
  cases hreturned
  rfl

end Listable

/-! ## Listings -/

/-- No call changes the name. -/
theorem name_foldl_call (r : Routine) (calls : List Emission.Call) :
    (calls.foldl call r).name = r.name := by
  have hcall (r : Routine) (c : Emission.Call) : (r.call c).name = r.name := by
    rcases r.call_cases c with ⟨-, -, h⟩ | ⟨e, -, -, h⟩
    · rw [h]
      cases c <;> rfl
    · rw [h]
  induction calls generalizing r with
  | nil => rfl
  | cons c calls ih => rw [List.foldl_cons, ih, hcall]

theorem Listable.wellFormed_of_mem_lines (h : r.Listable) :
    ∀ l ∈ r.contents.lines, l.WellFormed := by
  intro l hl
  obtain ⟨v, hv, hl⟩ := List.mem_filterMap.1 hl
  obtain ⟨i, hi⟩ := exists_instruction? (List.mem_range.1 hv)
  have hisOf := isOf_of_line? hi (h.admits v i hi) hl
  cases l with
  | constant w literal t =>
      obtain rfl : i = ⟨.constant literal, [], some t⟩ := hisOf
      exact h.wellFormed v _ literal hi rfl
  | primitive w p operands types result => trivial
  | ret operands types => trivial

theorem Listable.eq_of_listing_eq (h : r.Listable) (h' : r'.Listable) (hname : r.name = r'.name)
    (hlisting : r.listing = r'.listing) : r = r' := by
  rw [listing_eq h.admits, listing_eq h'.admits, hname] at hlisting
  have hc := Contents.spell_inj h.wellFormed_of_mem_lines h'.wellFormed_of_mem_lines
    (List.append_cancel_left hlisting)
  exact eq_of_contents_eq h h' hc hname

/-- Two routines of one name, each made by any calls whose constants are well formed, of which some
may be refused, are the same if they have the same text. -/
theorem ofCalls_eq_of_toString_eq (name : String) {calls calls' : List Emission.Call}
    (h : ∀ literal, .constant literal ∈ calls → literal.WellFormed)
    (h' : ∀ literal, .constant literal ∈ calls' → literal.WellFormed)
    (htext : toString (ofCalls name calls) = toString (ofCalls name calls')) :
    ofCalls name calls = ofCalls name calls' := by
  have hlistable := (Listable.empty name).foldl_call h
  have hlistable' := (Listable.empty name).foldl_call h'
  have hname : (ofCalls name calls).name = (ofCalls name calls').name :=
    (name_foldl_call _ calls).trans (name_foldl_call _ calls').symm
  exact hlistable.eq_of_listing_eq hlistable' hname (String.ofList_injective htext)

/-- Calls that add an argument behind a constant. -/
def lateArgument : List Emission.Call :=
  [.constant (.integer (.clear 5) 3), .argument (.clear 8), .ret [1]]

/-- The same calls among four that are refused. -/
def lateArgumentAmongRefused : List Emission.Call :=
  [.ret [0], .constant (.integer (.clear 5) 3), .primitive .add (.encrypted 4) 0 0,
    .argument (.clear 8), .primitive .addClear (.clear 4) 1 0, .ret [1], .argument (.clear 8)]

theorem ofCalls_lateArgument_eq :
    toString (ofCalls "f" lateArgument)
        = "func @f(%arg0: i8) -> (i8) \x7b\n  %0 = \"std.constant\"() \x7bvalue = 3 : i5\x7d : "
          ++ "() -> i5\n  \"return\"(%arg0) : (i8) -> ()\n\x7d" ∧
      ofCalls "f" lateArgument = ofCalls "f" lateArgumentAmongRefused := by
  have hliteral : (Literal.integer (.clear 5) 3).WellFormed := .integer (by decide) (by decide)
  refine ⟨by decide +kernel, ofCalls_eq_of_toString_eq "f" (fun literal h => ?_)
    (fun literal h => ?_) rfl⟩
  · obtain rfl : literal = .integer (.clear 5) 3 := by simpa [lateArgument] using h
    exact hliteral
  · obtain rfl : literal = .integer (.clear 5) 3 := by simpa [lateArgumentAmongRefused] using h
    exact hliteral

end CipherFlow.Routine
