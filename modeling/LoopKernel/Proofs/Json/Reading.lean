import LoopKernel.Proofs.Json.Numeral

/-!
# Exchange text is read back

Reading the text of a value gives the value with its numbers as numerals; a number that is not
finite is read as null. So the text says all of a value but which infinity it holds.
-/

namespace LoopKernel

namespace JsonValue

/-! ## Strings -/

theorem hexValue?_hexDigit : ∀ d < 16, hexValue? (Json.hexDigit d) = some d := by decide

/-- The escape of a control character is read as a unit with its code point. -/
private theorem units_control {n : Nat} (hn : n < 32) (cs : List Char) :
    units ('\\' :: 'u' :: '0' :: '0' :: Json.hexDigit (n / 16) :: Json.hexDigit (n % 16) :: cs) =
      (units cs).map fun found => ((n, true) :: found.1, found.2) := by
  have hhex : hex4 ['0', '0', Json.hexDigit (n / 16), Json.hexDigit (n % 16)] = some (n, []) := by
    have hvalue : ((0 * 16 + 0) * 16 + n / 16) * 16 + n % 16 = n := by omega
    rw [hex4, hexValue?_hexDigit _ (by omega), hexValue?_hexDigit _ (by omega),
      show hexValue? '0' = some 0 from rfl]
    exact congrArg (fun n => some (n, ([] : List Char))) hvalue
  rw [units, hhex]
  cases units cs <;> rfl

/-- A character is read as a unit with its code point, whether it is escaped or not. -/
theorem units_escapeChar (c : Char) (cs : List Char) :
    ∃ marked, units ((Json.escapeChar c).toList ++ cs) =
      (units cs).map fun found => ((c.toNat, marked) :: found.1, found.2) := by
  have hplain {d e : Char} (h : plainEscape? d = some e) (hd : d ≠ 'u') :
      units ('\\' :: d :: cs) =
        (units cs).map fun found => ((e.toNat, false) :: found.1, found.2) := by
    rw [units]
    · rw [h]
      cases units cs <;> rfl
    · rintro _ _ _ _ _ rfl
      exact absurd rfl hd
  unfold Json.escapeChar
  split
  · next h => exact ⟨false, h ▸ hplain rfl (by decide)⟩
  split
  · next h => exact ⟨false, h ▸ hplain rfl (by decide)⟩
  split
  · next h => exact ⟨false, h ▸ hplain rfl (by decide)⟩
  split
  · next h => exact ⟨false, h ▸ hplain rfl (by decide)⟩
  split
  · next h => exact ⟨false, h ▸ hplain rfl (by decide)⟩
  split
  · next h => exact ⟨false, h ▸ hplain (e := Char.ofNat 8) rfl (by decide)⟩
  split
  · next h => exact ⟨false, h ▸ hplain (e := Char.ofNat 12) rfl (by decide)⟩
  split
  · next h =>
    refine ⟨true, ?_⟩
    simp only [String.toList_append, String.toList_ofList]
    exact units_control h cs
  · next hquote hslash _ _ _ _ _ hlow =>
    refine ⟨false, ?_⟩
    have htext : c.toString.toList = [c] := by simp
    rw [htext, List.singleton_append, units]
    · rw [if_neg hlow]
      cases units cs <;> rfl
    · exact hquote
    · exact fun _ _ _ _ _ h _ => hslash h
    · exact fun _ _ h _ => hslash h

/-- No character is half of a surrogate pair. -/
theorem not_surrogate (c : Char) : ¬ (0xd800 ≤ c.toNat ∧ c.toNat < 0xe000) := by
  have hvalid : c.toNat < 0xd800 ∨ 0xdfff < c.toNat ∧ c.toNat < 0x110000 := c.valid
  omega

/-- Units with the code points of characters are read as these. -/
theorem characters?_of_codes {us : List (Nat × Bool)} {s : List Char}
    (h : us.map Prod.fst = s.map Char.toNat) : characters? us = some s := by
  induction s generalizing us with
  | nil =>
    rw [List.map_nil, List.map_eq_nil_iff] at h
    rw [h]
    rfl
  | cons c s ih =>
    rw [List.map_cons, List.map_eq_cons_iff] at h
    obtain ⟨⟨code, marked⟩, us, rfl, hcode, h⟩ := h
    have hnot := not_surrogate c
    rw [← hcode] at hnot
    have hchar : Char.ofNat code = c := by
      have hcode : code = c.toNat := hcode
      rw [hcode, Char.ofNat_toNat]
    unfold characters?
    split
    · next heq => cases heq
    · next heq =>
      cases heq
      rw [if_neg (by dsimp only at hnot; omega), if_neg (by dsimp only at hnot; omega), ih h, hchar]
      rfl
    · next heq =>
      cases heq
      rw [if_neg hnot, ih h, hchar]
      rfl

theorem units_escaped (s r : List Char) :
    ∃ us, units ((s.flatMap fun c => (Json.escapeChar c).toList) ++ '"' :: r) = some (us, r) ∧
      us.map Prod.fst = s.map Char.toNat := by
  induction s with
  | nil => exact ⟨[], by simp [units], rfl⟩
  | cons c s ih =>
    obtain ⟨us, hus, hcodes⟩ := ih
    rw [List.flatMap_cons, List.append_assoc]
    obtain ⟨marked, hc⟩ :=
      units_escapeChar c ((s.flatMap fun c => (Json.escapeChar c).toList) ++ '"' :: r)
    rw [hc, hus]
    exact ⟨_, rfl, by rw [List.map_cons, List.map_cons, hcodes]⟩

/-- A quoted string is read. -/
theorem readString_escaped (s : String) (r : List Char) :
    readString ((String.join (s.toList.map Json.escapeChar)).toList ++ '"' :: r) =
      some (some s, r) := by
  obtain ⟨us, hus, hcodes⟩ := units_escaped s.toList r
  rw [String.toList_join, List.flatMap_map, readString, hus]
  simp [characters?_of_codes hcodes]

theorem readString_quote (s : String) (r : List Char) :
    ∃ cs, (Json.quote s).toList = '"' :: cs ∧ readString (cs ++ r) = some (some s, r) := by
  refine ⟨(String.join (s.toList.map Json.escapeChar)).toList ++ ['"'], ?_, ?_⟩
  · simp [Json.quote]
  · rw [List.append_assoc]
    exact readString_escaped s r

/-! ## Values -/

theorem skipBlanks_cons {c : Char} (h : c ∉ [' ', '\n', '\t', '\r']) (cs : List Char) :
    skipBlanks (c :: cs) = c :: cs :=
  List.dropWhile_cons_of_neg (by simpa [and_assoc] using h)

/-- A number starts with a digit or a minus sign. -/
theorem head_of_readNumber {cs r : List Char} {v : JsonValue} (h : readNumber cs = some (v, r)) :
    ∃ c rest, cs = c :: rest ∧ (c.isDigit = true ∨ c = '-') := by
  cases cs with
  | nil => cases h
  | cons c rest =>
    refine ⟨c, rest, rfl, ?_⟩
    by_contra hnot
    rw [not_or, Bool.not_eq_true] at hnot
    have hdigits : digits (c :: rest) = [] :=
      List.takeWhile_cons_of_neg (by simp [hnot.1])
    unfold readNumber at h
    split at h
    next heq =>
    split at heq
    · next hminus => exact hnot.2 (List.cons.inj hminus).1
    · cases heq
      simp [hdigits] at h

/-- A text that starts with a number is read as a number. -/
theorem readValue_of_readNumber {cs r : List Char} {v : JsonValue} {depth : Nat}
    (h : readNumber cs = some (v, r)) : readValue (depth + 1) cs = some (v, r) := by
  obtain ⟨c, rest, rfl, hc⟩ := head_of_readNumber h
  have hother : ∀ d ∈ [' ', '\n', '\t', '\r', 'n', 't', 'f', '"', '[', '\x7b'],
      d.isDigit = false ∧ d ≠ '-' := by simp [Char.isDigit]
  have hne : ∀ d ∈ [' ', '\n', '\t', '\r', 'n', 't', 'f', '"', '[', '\x7b'], c ≠ d := by
    rintro d hd rfl
    rcases hc with hc | rfl
    · rw [(hother c hd).1] at hc
      cases hc
    · exact (hother '-' hd).2 rfl
  simp only [List.forall_mem_cons, List.not_mem_nil, false_implies, implies_true, and_true] at hne
  obtain ⟨h1, h2, h3, h4, hn, ht, hf, hquote, harray, hobject⟩ := hne
  rw [readValue, skipBlanks_cons (by simp [h1, h2, h3, h4])]
  split
  · next heq => exact absurd (List.cons.inj heq).1 hn
  · next heq => exact absurd (List.cons.inj heq).1 ht
  · next heq => exact absurd (List.cons.inj heq).1 hf
  · next heq => exact absurd (List.cons.inj heq).1 hquote
  · next heq => exact absurd (List.cons.inj heq).1 harray
  · next heq => exact absurd (List.cons.inj heq).1 hobject
  · exact h

end JsonValue

/-! ## Values -/

namespace Json

mutual

/-- What a reader finds in the text of a value. -/
def content : Json → JsonValue
  | .null => .null
  | .bool b => .bool b
  | .int n => .number ⟨decide (n < 0), n.natAbs, 0, true⟩
  | .float x => if x.isFinite then .number x.numeral else .null
  | .string s => .string (some s)
  | .array items => .array (itemContents items)
  | .object members => .object (memberContents members)

/-- What a reader finds in the texts of items. -/
def itemContents : List Json → List JsonValue
  | [] => []
  | v :: rest => v.content :: itemContents rest

/-- What a reader finds in the texts of members. -/
def memberContents : List (String × Json) → List (Option String × JsonValue)
  | [] => []
  | (name, v) :: rest => (some name, v.content) :: memberContents rest

end

open JsonValue

theorem readNumber_floatText {x : Binary64} (h : x.isFinite = true) {r : List Char}
    (hr : Delimited r) : readNumber ((floatText x).toList ++ r) = some (.number x.numeral, r) := by
  rw [floatText, if_pos h, String.toList_append, List.append_assoc]
  exact x.readNumber_magnitudeText hr

/-- The text of a value starts with no blank and no closing bracket. -/
theorem text_opens (j : Json) :
    ∃ c cs, j.text.toList = c :: cs ∧ c ∉ [' ', '\n', '\t', '\r', ']', '\x7d'] := by
  have hnumber {cs : List Char} {v : JsonValue} (h : readNumber (cs ++ []) = some (v, [])) :
      ∃ c rest, cs = c :: rest ∧ c ∉ [' ', '\n', '\t', '\r', ']', '\x7d'] := by
    rw [List.append_nil] at h
    obtain ⟨c, rest, hcs, hc⟩ := head_of_readNumber h
    refine ⟨c, rest, hcs, fun hmem => ?_⟩
    have hother : ∀ d ∈ [' ', '\n', '\t', '\r', ']', '\x7d'], d.isDigit = false ∧ d ≠ '-' := by
      simp [Char.isDigit]
    rcases hc with hc | rfl
    · rw [(hother c hmem).1] at hc
      cases hc
    · exact (hother '-' hmem).2 rfl
  cases j with
  | null => exact ⟨'n', _, rfl, by decide⟩
  | bool b => cases b with
    | true => exact ⟨'t', _, rfl, by decide⟩
    | false => exact ⟨'f', _, rfl, by decide⟩
  | int n => exact hnumber (readNumber_toString n delimited_nil)
  | float x =>
    by_cases h : x.isFinite = true
    · exact hnumber (readNumber_floatText h delimited_nil)
    · rw [text, floatText, if_neg h]
      exact ⟨'n', _, rfl, by decide⟩
  | string s =>
    obtain ⟨cs, hcs, -⟩ := readString_quote s []
    exact ⟨'"', cs, hcs, by decide⟩
  | array items =>
    exact ⟨'[', _, by rw [text, String.toList_append, String.toList_append]; rfl, by decide⟩
  | object members =>
    exact ⟨'\x7b', _, by rw [text, String.toList_append, String.toList_append]; rfl, by decide⟩

theorem delimited_cons {c : Char} (h : c ∈ [',', ']', '\x7d']) (r : List Char) :
    Delimited (c :: r) := by
  have hall : ∀ d ∈ [',', ']', '\x7d'], d.isDigit = false ∧ d ≠ '.' ∧ d ≠ 'e' ∧ d ≠ 'E' := by
    simp [Char.isDigit]
  rintro d ⟨⟩
  exact hall c h

theorem toList_arrayText (items : List Json) :
    (text (.array items)).toList =
      '[' :: ((",".intercalate (itemTexts items)).toList ++ [']']) := by
  rw [text, String.toList_append, String.toList_append]
  rfl

theorem toList_objectText (members : List (String × Json)) :
    (text (.object members)).toList =
      '\x7b' :: ((",".intercalate (memberTexts members)).toList ++ ['\x7d']) := by
  rw [text, String.toList_append, String.toList_append]
  rfl

theorem toList_memberText (name : String) (v : Json) :
    (quote name ++ ":" ++ v.text).toList = (quote name).toList ++ ':' :: v.text.toList := by
  rw [String.toList_append, String.toList_append, List.append_assoc]
  rfl

theorem toList_intercalate_cons_cons (s t : String) (texts : List String) :
    (",".intercalate (s :: t :: texts)).toList =
      s.toList ++ ',' :: (",".intercalate (t :: texts)).toList := by
  rw [String.intercalate_cons_cons, String.toList_append, String.toList_append, List.append_assoc]
  rfl

theorem intercalate_opens {s : String} {c : Char} {cs : List Char} (h : s.toList = c :: cs)
    (texts : List String) : ∃ rest, (",".intercalate (s :: texts)).toList = c :: rest := by
  cases texts with
  | nil => exact ⟨cs, by rw [String.intercalate_singleton, h]⟩
  | cons t texts => exact ⟨_, by rw [toList_intercalate_cons_cons, h, List.cons_append]⟩

mutual

/-- The text of a value is read as its content. -/
theorem readValue_text : (j : Json) → {d : Nat} → {r : List Char} →
    2 * j.text.toList.length ≤ d → Delimited r →
      readValue d (j.text.toList ++ r) = some (j.content, r)
  | j, 0, r, h, _ => by
    obtain ⟨c, cs, hcs, -⟩ := j.text_opens
    rw [hcs, List.length_cons] at h
    omega
  | .null, d + 1, r, _, _ => rfl
  | .bool b, d + 1, r, _, _ => by cases b <;> rfl
  | .int n, d + 1, r, _, hr => readValue_of_readNumber (readNumber_toString n hr)
  | .float x, d + 1, r, _, hr => by
    rw [content]
    split
    · next h => exact readValue_of_readNumber (readNumber_floatText h hr)
    · next h =>
      rw [text, floatText, if_neg h]
      rfl
  | .string s, d + 1, r, _, _ => by
    obtain ⟨cs, hcs, hread⟩ := readString_quote s r
    rw [text, hcs, List.cons_append, readValue, skipBlanks_cons (by decide)]
    simp only [hread]
    rfl
  | .array [], d + 1, r, _, _ => rfl
  | .array (v :: rest), d + 1, r, h, _ => by
    rw [toList_arrayText, List.length_cons, List.length_append, List.length_singleton] at h
    have hitems := readItems_texts v rest (d := d) (r := r) (by omega)
    obtain ⟨c, cs, hcs, hc⟩ := v.text_opens
    obtain ⟨cs, hcs⟩ := intercalate_opens hcs (itemTexts rest)
    simp only [List.mem_cons, List.not_mem_nil, or_false, not_or] at hc
    rw [toList_arrayText, List.cons_append, List.append_assoc, List.singleton_append, readValue,
      skipBlanks_cons (by decide)]
    rw [itemTexts, hcs, List.cons_append] at hitems ⊢
    simp only [skipBlanks_cons (c := c) (by simp [hc])]
    -- The reader looks for a closing bracket first, and no value begins with one.
    split
    · next hclose => exact absurd (List.cons.inj hclose).1 hc.2.2.2.2.1
    · rw [hitems]
      rfl
  | .object [], d + 1, r, _, _ => rfl
  | .object ((name, v) :: rest), d + 1, r, h, _ => by
    rw [toList_objectText, List.length_cons, List.length_append, List.length_singleton] at h
    have hmembers := readMembers_texts name v rest (d := d) (r := r) (by omega)
    obtain ⟨cs, hcs, -⟩ := readString_quote name []
    obtain ⟨cs, hcs⟩ := intercalate_opens (s := quote name ++ ":" ++ v.text) (c := '"')
      (by rw [toList_memberText, hcs, List.cons_append]) (memberTexts rest)
    rw [toList_objectText, List.cons_append, List.append_assoc, List.singleton_append, readValue,
      skipBlanks_cons (by decide)]
    rw [memberTexts, hcs, List.cons_append] at hmembers ⊢
    simp only [skipBlanks_cons (c := '"') (by decide), hmembers]
    rfl

/-- The texts of items are read as their contents. -/
theorem readItems_texts : (v : Json) → (rest : List Json) → {d : Nat} → {r : List Char} →
    2 * (",".intercalate (itemTexts (v :: rest))).toList.length + 1 ≤ d →
      readItems d ((",".intercalate (itemTexts (v :: rest))).toList ++ ']' :: r) =
        some (itemContents (v :: rest), r)
  | v, rest, 0, r, h => by omega
  | v, [], d + 1, r, h => by
    simp only [itemTexts, String.intercalate_singleton] at h ⊢
    have hv := readValue_text v (d := d) (r := ']' :: r) (by omega)
      (delimited_cons (by decide) r)
    rw [readItems, hv]
    rfl
  | v, w :: rest, d + 1, r, h => by
    simp only [itemTexts, toList_intercalate_cons_cons, List.length_append, List.length_cons] at h
    have hv := readValue_text v (d := d)
      (r := ',' :: ((",".intercalate (itemTexts (w :: rest))).toList ++ ']' :: r)) (by omega)
      (delimited_cons (by decide) _)
    have hrest := readItems_texts w rest (d := d) (r := r) (by rw [itemTexts]; omega)
    rw [itemTexts, itemTexts, toList_intercalate_cons_cons, List.append_assoc, List.cons_append,
      ← itemTexts, readItems, hv]
    simp only [Option.bind_eq_bind, Option.bind_some, skipBlanks_cons (c := ',') (by decide), hrest]
    rfl

/-- The texts of members are read as their contents. -/
theorem readMembers_texts : (name : String) → (v : Json) → (rest : List (String × Json)) →
    {d : Nat} → {r : List Char} →
    2 * (",".intercalate (memberTexts ((name, v) :: rest))).toList.length + 1 ≤ d →
      readMembers d ((",".intercalate (memberTexts ((name, v) :: rest))).toList ++ '\x7d' :: r) =
        some (memberContents ((name, v) :: rest), r)
  | name, v, rest, 0, r, h => by omega
  | name, v, [], d + 1, r, h => by
    obtain ⟨cs, hcs, hread⟩ := readString_quote name (':' :: (v.text.toList ++ '\x7d' :: r))
    simp only [memberTexts, String.intercalate_singleton, toList_memberText, List.length_append,
      List.length_cons] at h
    have hv := readValue_text v (d := d) (r := '\x7d' :: r) (by omega)
      (delimited_cons (by decide) r)
    rw [memberTexts, memberTexts, String.intercalate_singleton, toList_memberText, hcs]
    simp only [List.cons_append, List.append_assoc]
    rw [readMembers, skipBlanks_cons (by decide)]
    simp only [hread, Option.bind_eq_bind, Option.bind_some,
      skipBlanks_cons (c := ':') (by decide), hv]
    rfl
  | name, v, (name', w) :: rest, d + 1, r, h => by
    obtain ⟨cs, hcs, hread⟩ := readString_quote name (':' :: (v.text.toList ++
      ',' :: ((",".intercalate (memberTexts ((name', w) :: rest))).toList ++ '\x7d' :: r)))
    simp only [memberTexts, toList_intercalate_cons_cons, toList_memberText, List.length_append,
      List.length_cons] at h
    have hv := readValue_text v (d := d)
      (r := ',' :: ((",".intercalate (memberTexts ((name', w) :: rest))).toList ++ '\x7d' :: r))
      (by omega) (delimited_cons (by decide) _)
    have hrest := readMembers_texts name' w rest (d := d) (r := r) (by rw [memberTexts]; omega)
    rw [memberTexts, memberTexts, toList_intercalate_cons_cons, toList_memberText, hcs,
      ← memberTexts]
    simp only [List.cons_append, List.append_assoc]
    rw [readMembers, skipBlanks_cons (by decide)]
    simp only [hread, Option.bind_eq_bind, Option.bind_some, skipBlanks_cons (c := ':') (by decide),
      hv, skipBlanks_cons (c := ',') (by decide), hrest]
    rfl

end

/-- Reading the text of a value gives its content. -/
theorem ofText?_text (j : Json) : JsonValue.ofText? j.text = some j.content := by
  have hread := readValue_text j (d := 2 * j.text.length + 2) (r := [])
    (by rw [String.length_toList]; omega) delimited_nil
  rw [List.append_nil] at hread
  rw [JsonValue.ofText?, hread]
  rfl

/-- Values with one text have one content. -/
theorem content_eq_of_text_eq {j j' : Json} (h : j.text = j'.text) : j.content = j'.content :=
  Option.some.inj (by rw [← ofText?_text, h, ofText?_text])

end Json

end LoopKernel
