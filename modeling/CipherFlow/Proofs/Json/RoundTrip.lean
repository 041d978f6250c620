import CipherFlow.Proofs.Json.Scalars

/-!
# JSON that is read back

Every value is read back from its text, in front of any text that does not go on with a number. The
rules `reads_array`, `reads_items_cons` and so on say what the reader does at each form of a text;
the round trip is one case for each form of a value. Main statement: `parse_compress`.
-/

set_option autoImplicit false

namespace CipherFlow.Json

open Text

/-! ## Rules of the reader -/

variable {s t r : List Char}

theorem next?_cons {c : Char} (hc : isSpace c = false) (s : List Char) :
    next? (c :: s) = some (c, ⟨s, Nat.lt_succ_self _⟩) := by
  have hdrop : (c :: s).dropWhile isSpace = c :: s := List.dropWhile_cons_of_neg (by simp [hc])
  unfold next?
  split
  · next h => rw [hdrop] at h; cases h
  · next h =>
      rw [hdrop] at h
      cases h
      rfl

theorem strip?_append (word r : List Char) :
    strip? word (word ++ r) = some ⟨r, (List.suffix_append word r).length_le⟩ := by
  rw [strip?, if_pos (List.prefix_append word r)]
  simp only [List.drop_left]

/-- The words that stand for values, without their first letters. -/
inductive Keyword : Char → List Char → Json → Prop
  | null : Keyword 'n' "ull".toList .null
  | true : Keyword 't' "rue".toList (.bool true)
  | false : Keyword 'f' "alse".toList (.bool false)

theorem reads_keyword {c : Char} {word : List Char} {value : Json} (h : Keyword c word value)
    (r : List Char) : Reads readValue (c :: (word ++ r)) value r := by
  have hstrip := strip?_append word r
  have hless := Nat.lt_succ_of_le (List.suffix_append word r).length_le
  refine ⟨⟨r, hless⟩, ?_, rfl⟩
  cases h <;>
    (rw [readValue, next?_cons rfl]
     simp only [Option.bind_eq_bind, Option.bind_some, Char.reduceEq, if_false, if_true, hstrip]
     rfl)

theorem reads_text {text : Option String} (h : Reads readString s text r) :
    Reads readValue ('"' :: s) (.string text) r := by
  obtain ⟨q, hq, hrest⟩ := h
  refine ⟨⟨q.1, Nat.lt_succ_of_lt q.2⟩, ?_, hrest⟩
  rw [readValue, next?_cons rfl]
  simp only [Option.bind_eq_bind, Option.bind_some, Char.reduceEq, if_false, if_true,
    hq]
  rfl

/-- A digit or a sign is neither a blank nor the beginning of any other value. -/
theorem ne_of_isDigit_or_sign {c d : Char} (hc : c.isDigit = true ∨ c = '-')
    (hd : ¬ (d.isDigit = true ∨ d = '-')) : c ≠ d := by
  rintro rfl
  exact hd hc

theorem isSpace_of_isDigit_or_sign {c : Char} (hc : c.isDigit = true ∨ c = '-') :
    isSpace c = false := by
  have hne {d : Char} := ne_of_isDigit_or_sign (d := d) hc
  simp only [isSpace, Bool.or_eq_false_iff, decide_eq_false_iff_not]
  exact ⟨⟨⟨hne (by decide), hne (by decide)⟩, hne (by decide)⟩, hne (by decide)⟩

theorem reads_number {c : Char} {number : Json} (hc : c.isDigit = true ∨ c = '-')
    (h : Reads readNumber (c :: s) number r) : Reads readValue (c :: s) number r := by
  obtain ⟨q, hq, hrest⟩ := h
  have hne {d : Char} := ne_of_isDigit_or_sign (d := d) hc
  refine ⟨q, ?_, hrest⟩
  rw [readValue, next?_cons (isSpace_of_isDigit_or_sign hc)]
  simp only [Option.bind_eq_bind, Option.bind_some, hne (d := '[') (by decide),
    hne (d := '\x7b') (by decide), hne (d := '"') (by decide), hne (d := 't') (by decide),
    hne (d := 'f') (by decide), hne (d := 'n') (by decide), if_false, hq]
  rfl

theorem reads_array_nil (r : List Char) : Reads readValue ('[' :: ']' :: r) (.array []) r := by
  refine ⟨⟨r, by simp only [List.length_cons]; omega⟩, ?_, rfl⟩
  rw [readValue, next?_cons rfl]
  simp only [Option.bind_eq_bind, Option.bind_some, Char.reduceEq, if_false, if_true,
    next?_cons (c := ']') rfl]
  rfl

theorem reads_array {c : Char} {items : List Json} (hspace : isSpace c = false) (hc : c ≠ ']')
    (h : Reads readItems (c :: s) items r) : Reads readValue ('[' :: c :: s) (.array items) r := by
  obtain ⟨q, hq, hrest⟩ := h
  refine ⟨⟨q.1, Nat.lt_succ_of_lt q.2⟩, ?_, hrest⟩
  rw [readValue, next?_cons rfl]
  simp only [Option.bind_eq_bind, Option.bind_some, Char.reduceEq, if_false, if_true,
    next?_cons hspace, hq]
  split
  · next hclose => exact absurd (congrArg Prod.fst (Option.some.inj hclose)) hc
  · rfl

theorem reads_object_nil (r : List Char) :
    Reads readValue ('\x7b' :: '\x7d' :: r) (.object []) r := by
  refine ⟨⟨r, by simp only [List.length_cons]; omega⟩, ?_, rfl⟩
  rw [readValue, next?_cons rfl]
  simp only [Option.bind_eq_bind, Option.bind_some, Char.reduceEq, if_false, if_true,
    next?_cons (c := '\x7d') rfl]
  rfl

theorem reads_object {members : List (Option String × Json)}
    (h : Reads readMembers ('"' :: s) members r) :
    Reads readValue ('\x7b' :: '"' :: s) (.object members) r := by
  obtain ⟨q, hq, hrest⟩ := h
  refine ⟨⟨q.1, Nat.lt_succ_of_lt q.2⟩, ?_, hrest⟩
  rw [readValue, next?_cons rfl]
  simp only [Option.bind_eq_bind, Option.bind_some, Char.reduceEq, if_false, if_true,
    next?_cons (c := '"') rfl, hq]
  rfl

theorem reads_items_last {item : Json} (h : Reads readValue s item (']' :: r)) :
    Reads readItems s [item] r := by
  obtain ⟨⟨q, hlt⟩, hq, hrest⟩ := h
  obtain rfl : q = ']' :: r := hrest
  refine ⟨⟨r, Nat.lt_of_succ_lt hlt⟩, ?_, rfl⟩
  rw [readItems, hq]
  simp only [Option.bind_eq_bind, Option.bind_some, Char.reduceEq, if_false, if_true,
    next?_cons (c := ']') rfl]
  rfl

theorem reads_items_cons {item : Json} {items : List Json} (h : Reads readValue s item (',' :: t))
    (ht : Reads readItems t items r) : Reads readItems s (item :: items) r := by
  obtain ⟨⟨q, hlt⟩, hq, hrest⟩ := h
  obtain rfl : q = ',' :: t := hrest
  obtain ⟨q, hitems, hrest⟩ := ht
  refine ⟨⟨q.1, Nat.lt_trans q.2 (Nat.lt_of_succ_lt hlt)⟩, ?_, hrest⟩
  rw [readItems, hq]
  simp only [Option.bind_eq_bind, Option.bind_some, Char.reduceEq, if_false, if_true,
    next?_cons (c := ',') rfl, hitems]
  rfl

theorem reads_members_last {key : Option String} {value : Json} {body : List Char}
    (hkey : Reads readString body key (':' :: s)) (h : Reads readValue s value ('\x7d' :: r)) :
    Reads readMembers ('"' :: body) [(key, value)] r := by
  obtain ⟨⟨q, hlt⟩, hq, hrest⟩ := hkey
  obtain rfl : q = ':' :: s := hrest
  obtain ⟨⟨q, hlt'⟩, hq', hrest⟩ := h
  obtain rfl : q = '\x7d' :: r := hrest
  have hless : r.length < ('"' :: body).length := by
    simp only [List.length_cons] at hlt hlt' ⊢
    omega
  refine ⟨⟨r, hless⟩, ?_, rfl⟩
  rw [readMembers, next?_cons rfl]
  simp only [Option.bind_eq_bind, Option.bind_some, Char.reduceEq, if_false, if_true,
    hq, next?_cons (c := ':') rfl, hq', next?_cons (c := '\x7d') rfl]
  rfl

theorem reads_members_cons {key : Option String} {value : Json} {body : List Char}
    {members : List (Option String × Json)}
    (hkey : Reads readString body key (':' :: s)) (h : Reads readValue s value (',' :: t))
    (ht : Reads readMembers t members r) :
    Reads readMembers ('"' :: body) ((key, value) :: members) r := by
  obtain ⟨⟨q, hlt⟩, hq, hrest⟩ := hkey
  obtain rfl : q = ':' :: s := hrest
  obtain ⟨⟨q, hlt'⟩, hq', hrest⟩ := h
  obtain rfl : q = ',' :: t := hrest
  obtain ⟨q, hmembers, hrest⟩ := ht
  have hless : q.1.length < ('"' :: body).length := by
    have := q.2
    simp only [List.length_cons] at hlt hlt' ⊢
    omega
  refine ⟨⟨q.1, hless⟩, ?_, hrest⟩
  rw [readMembers, next?_cons rfl]
  simp only [Option.bind_eq_bind, Option.bind_some, Char.reduceEq, if_false, if_true,
    hq, next?_cons (c := ':') rfl, hq', next?_cons (c := ',') rfl, hmembers]
  rfl

/-! ## What is written is read back -/

/-- The text of a number begins with a digit or a sign. -/
theorem exists_renderInteger_eq_cons (negative : Bool) (n : Nat) :
    ∃ c t, (integer negative n).render = c :: t ∧ (c.isDigit = true ∨ c = '-') := by
  cases negative with
  | true => exact ⟨'-', digits n, rfl, Or.inr rfl⟩
  | false =>
      obtain ⟨c, t, hc, hd⟩ := exists_digits_eq_cons n
      exact ⟨c, t, hc, Or.inl hd⟩

/-- No text of a value begins with a blank or a bracket that closes an array. -/
theorem exists_render_eq_cons (json : Json) :
    ∃ c t, json.render = c :: t ∧ isSpace c = false ∧ c ≠ ']' := by
  cases json with
  | null => exact ⟨'n', _, rfl, rfl, by decide⟩
  | bool b => cases b <;> exact ⟨_, _, rfl, rfl, by decide⟩
  | integer negative n =>
      obtain ⟨c, t, hrender, hc⟩ := exists_renderInteger_eq_cons negative n
      exact ⟨c, t, hrender, isSpace_of_isDigit_or_sign hc, ne_of_isDigit_or_sign hc (by decide)⟩
  | decimal => exact ⟨'0', _, rfl, rfl, by decide⟩
  | string text =>
      obtain ⟨body, hbody, -⟩ := exists_renderString_eq text
      exact ⟨'"', body, hbody, rfl, by decide⟩
  | array items => exact ⟨'[', _, rfl, rfl, by decide⟩
  | object members => exact ⟨'\x7b', _, rfl, rfl, by decide⟩

theorem exists_renderItems_eq_cons (item : Json) (items : List Json) :
    ∃ c t, renderItems (item :: items) = c :: t ∧ isSpace c = false ∧ c ≠ ']' := by
  obtain ⟨c, t, hrender, hspace, hne⟩ := exists_render_eq_cons item
  cases items with
  | nil => exact ⟨c, t, hrender, hspace, hne⟩
  | cons next items => exact ⟨c, _, by rw [renderItems, hrender, List.cons_append], hspace, hne⟩

theorem exists_renderMembers_eq_cons (member : Option String × Json)
    (members : List (Option String × Json)) :
    ∃ t, renderMembers (member :: members) = '"' :: t := by
  obtain ⟨key, value⟩ := member
  obtain ⟨body, hbody, -⟩ := exists_renderString_eq key
  cases members with
  | nil => exact ⟨_, by rw [renderMembers, hbody, List.cons_append]⟩
  | cons next members => exact ⟨_, by rw [renderMembers, hbody, List.cons_append]⟩

mutual

/-- A value is read back in front of any text that does not go on with a number. -/
theorem reads_render : (json : Json) → {r : List Char} → continuesNumber r = false →
    Reads readValue (json.render ++ r) json r
  | .null, r, _ => reads_keyword .null r
  | .bool true, r, _ => reads_keyword .true r
  | .bool false, r, _ => reads_keyword .false r
  | .integer negative n, r, hr => by
      obtain ⟨c, t, hrender, hc⟩ := exists_renderInteger_eq_cons negative n
      have h := reads_integer negative n hr
      rw [hrender] at h ⊢
      exact reads_number hc h
  | .decimal, r, hr => reads_number (Or.inl rfl) (reads_decimal hr)
  | .string text, r, _ => by
      obtain ⟨body, hbody, hreads⟩ := exists_renderString_eq text
      rw [render, hbody]
      exact reads_text (hreads r)
  | .array [], r, _ => reads_array_nil r
  | .array (item :: items), r, _ => by
      have hitems := reads_renderItems (item :: items) (List.cons_ne_nil item items) r
      obtain ⟨c, t, hc, hspace, hne⟩ := exists_renderItems_eq_cons item items
      rw [hc] at hitems
      rw [render, hc, List.cons_append, List.append_assoc]
      exact reads_array hspace hne hitems
  | .object [], r, _ => reads_object_nil r
  | .object (member :: members), r, _ => by
      have hmembers := reads_renderMembers (member :: members) (List.cons_ne_nil member members) r
      obtain ⟨t, ht⟩ := exists_renderMembers_eq_cons member members
      rw [ht] at hmembers
      rw [render, ht, List.cons_append, List.append_assoc]
      exact reads_object hmembers

/-- The items of an array are read back in front of the bracket that closes it. -/
theorem reads_renderItems : (items : List Json) → items ≠ [] → (r : List Char) →
    Reads readItems (renderItems items ++ ']' :: r) items r
  | [], hne, _ => absurd rfl hne
  | [item], _, r => reads_items_last (reads_render item rfl)
  | item :: next :: items, _, r => by
      have hitems := reads_renderItems (next :: items) (List.cons_ne_nil next items) r
      rw [renderItems, List.append_assoc]
      exact reads_items_cons (reads_render item rfl) hitems

/-- The members of an object are read back in front of the brace that closes it. -/
theorem reads_renderMembers : (members : List (Option String × Json)) → members ≠ [] →
    (r : List Char) → Reads readMembers (renderMembers members ++ '\x7d' :: r) members r
  | [], hne, _ => absurd rfl hne
  | [(key, value)], _, r => by
      obtain ⟨body, hbody, hreads⟩ := exists_renderString_eq key
      rw [renderMembers, hbody, List.append_assoc]
      exact reads_members_last (hreads _) (reads_render value rfl)
  | (key, value) :: next :: members, _, r => by
      obtain ⟨body, hbody, hreads⟩ := exists_renderString_eq key
      have hmembers := reads_renderMembers (next :: members) (List.cons_ne_nil next members) r
      have hvalue :=
        reads_render value (r := ',' :: (renderMembers (next :: members) ++ '\x7d' :: r)) rfl
      rw [renderMembers, hbody, List.append_assoc]
      refine reads_members_cons (hreads _) ?_ hmembers
      rw [List.append_eq, List.append_assoc]
      exact hvalue

end

/-- Every value is read back from its text. -/
theorem parse_compress (json : Json) : parse json.compress = some json := by
  have hreads : Reads readValue json.compress.toList json [] := by
    rw [compress, String.toList_ofList, ← List.append_nil json.render]
    exact reads_render json rfl
  obtain ⟨q, hq, hrest⟩ := hreads
  have hblank : q.1.dropWhile isSpace = [] := by rw [hrest, List.dropWhile_nil]
  rw [parse, hq]
  exact if_pos hblank

end CipherFlow.Json
