import LoopKernel.Proofs.Source.Lexer
import Mathlib.Data.List.Basic

/-!
# Texts of tokens

Which tokens a piece of text is split into, wherever it stands in a source, provided that what
follows does not go on with its last token.
-/

namespace LoopKernel.Lexer

variable {F G : List Char → Prop} {cs ds : List Char} {ts us : List Token}

/-- Whether a text is split into tokens where it is followed by text of a kind. -/
def Spells (F : List Char → Prop) (cs : List Char) (ts : List Token) : Prop :=
  ∀ offset rest, F rest → ∃ lexemes stop, lexemes.map Lexeme.token = ts ∧
    splitFrom offset (cs ++ rest) =
      ⟨lexemes ++ (splitFrom stop rest).lexemes, (splitFrom stop rest).strays⟩

theorem Spells.mono (h : Spells F cs ts) (hFG : ∀ rest, G rest → F rest) : Spells G cs ts :=
  fun offset rest hrest => h offset rest (hFG rest hrest)

/-- Texts one after the other spell the tokens of both. -/
theorem Spells.append (hc : Spells F cs ts) (hd : Spells G ds us)
    (hFG : ∀ rest, G rest → F (ds ++ rest)) : Spells G (cs ++ ds) (ts ++ us) := by
  intro offset rest hrest
  obtain ⟨first, stop, rfl, hfirst⟩ := hc offset (ds ++ rest) (hFG rest hrest)
  obtain ⟨second, stop', rfl, hsecond⟩ := hd stop rest hrest
  refine ⟨first ++ second, stop', List.map_append, ?_⟩
  rw [List.append_assoc, hfirst, hsecond, List.append_assoc]

/-- The piece that is scanned first is split off. -/
theorem splitFrom_of_scan {c : Char} {rest : List Char} {piece : Piece} {offset : Nat}
    (h : scan c (cs ++ rest) = ⟨piece, cs.length⟩) :
    ∃ stop, splitFrom offset (c :: cs ++ rest) =
      (splitFrom stop rest).cons piece (c :: cs) ⟨offset, stop⟩ := by
  refine ⟨offset + byteLength (c :: cs), ?_⟩
  rw [List.cons_append, splitFrom, h]
  simp

theorem spells_token (cs : List Char) {c : Char} {t : Token}
    (h : ∀ rest, F rest → scan c (cs ++ rest) = ⟨.token t, cs.length⟩) :
    Spells F (c :: cs) [t] := by
  intro offset rest hrest
  obtain ⟨stop, hsplit⟩ := splitFrom_of_scan (h rest hrest)
  exact ⟨[⟨t, ⟨offset, stop⟩⟩], stop, rfl, hsplit⟩

theorem spells_blank (cs : List Char) {c : Char}
    (h : ∀ rest, F rest → scan c (cs ++ rest) = ⟨.blank, cs.length⟩) : Spells F (c :: cs) [] := by
  intro offset rest hrest
  obtain ⟨stop, hsplit⟩ := splitFrom_of_scan (h rest hrest)
  exact ⟨[], stop, rfl, hsplit⟩

/-! ## What follows -/

/-- Whether a text starts with something that no name or number goes on with. -/
def Breaks (rest : List Char) : Prop :=
  ∀ c ∈ rest.head?, continuesName c = false ∧ c ≠ '.'

/-- Whether a text starts like an operand. -/
def Opens (rest : List Char) : Prop :=
  ∃ c ∈ rest.head?, startsName c = true ∨ c.isDigit = true ∨ c = '-' ∨ c = '('

theorem Opens.append (h : Opens cs) (ds : List Char) : Opens (cs ++ ds) := by
  obtain ⟨c, hc, hopens⟩ := h
  cases cs with
  | nil => cases hc
  | cons d cs => exact ⟨c, hc, hopens⟩

/-- A run ends where a character does not satisfy the test. -/
theorem run_append (cs : List Char) {p : Char → Bool} {rest : List Char}
    (hcs : ∀ c ∈ cs, p c = true)
    (hrest : ∀ c ∈ rest.head?, p c = false) : run p (cs ++ rest) = cs.length := by
  unfold run
  rw [List.takeWhile_append_of_pos hcs, List.length_append]
  cases rest with
  | nil => rfl
  | cons c rest => rw [List.takeWhile_cons_of_neg (by simp [hrest c rfl])]; rfl

/-! ## Words and numbers -/

theorem isDigit_of_startsName {c : Char} (h : startsName c = true) : c.isDigit = false := by
  have hleast : 'A'.toNat ≤ c.toNat := by
    rw [startsName, Bool.or_eq_true, beq_iff_eq] at h
    obtain h | rfl := h
    · obtain hupper | hlower := (Bool.or_eq_true _ _).mp h
      · exact (of_decide_eq_true hupper).1
      · exact Nat.le_trans (by decide) (of_decide_eq_true ((Bool.and_eq_true _ _).mp hlower).1)
    · decide
  rw [Bool.eq_false_iff, ne_eq, Char.isDigit_iff_toNat]
  exact fun hdigit => absurd (Nat.le_trans hleast hdigit.2) (by decide)

/-- What starts a name or number is no blank and starts no comment. -/
theorem ne_of_continuesName {c d : Char} (hc : continuesName c = true)
    (hd : continuesName d = false) : c ≠ d := by
  rintro rfl
  rw [hc] at hd
  cases hd

theorem unskipped_of_continuesName {c : Char} (hc : continuesName c = true) :
    isBlank c = false ∧ (c == '#') = false ∧ (c == '\n') = false := by
  simp only [isBlank, Bool.or_eq_false_iff, beq_eq_false_iff_ne]
  have hne {d : Char} (hd : continuesName d = false) : c ≠ d := ne_of_continuesName hc hd
  exact ⟨⟨⟨hne (by decide), hne (by decide)⟩, hne (by decide)⟩, hne (by decide), hne (by decide)⟩

theorem continuesName_of_startsName {c : Char} (h : startsName c = true) :
    continuesName c = true := by
  simp only [startsName, continuesName, Char.isAlphanum, Bool.or_eq_true] at h ⊢
  tauto

theorem continuesName_of_isDigit {c : Char} (h : c.isDigit = true) : continuesName c = true := by
  simp [continuesName, Char.isAlphanum, h]

theorem scan_of_startsName {c : Char} (hc : startsName c = true) (rest : List Char) :
    scan c rest = scanWord c rest := by
  obtain ⟨hblank, hcomment, hnewline⟩ :=
    unskipped_of_continuesName (continuesName_of_startsName hc)
  simp only [scan, hblank, hcomment, hnewline, isDigit_of_startsName hc, hc, Bool.false_eq_true,
    if_false, if_true]

theorem scan_of_isDigit {c : Char} (hc : c.isDigit = true) (rest : List Char) :
    scan c rest = scanNumber c rest := by
  obtain ⟨hblank, hcomment, hnewline⟩ := unskipped_of_continuesName (continuesName_of_isDigit hc)
  simp only [scan, hblank, hcomment, hnewline, hc, Bool.false_eq_true, if_false, if_true]

/-- A word is scanned to its end. -/
theorem scanWord_append {c : Char} {rest : List Char} (hcs : ∀ d ∈ cs, continuesName d = true)
    (hrest : Breaks rest) : scanWord c (cs ++ rest) =
      ⟨.token (match Keyword.ofText? (String.ofList (c :: cs)) with
        | some k => .keyword k
        | none => .ident (String.ofList (c :: cs))), cs.length⟩ := by
  have hpoint : ∀ d ∈ (cs ++ rest).head?, d ≠ '.' := by
    intro d hd
    cases cs with
    | nil => exact (hrest d hd).2
    | cons e cs =>
      cases hd
      exact ne_of_continuesName (hcs d List.mem_cons_self) (by decide)
  have haxis : axisLength (cs ++ rest) = 0 := by
    unfold axisLength
    split
    · next heq => exact absurd rfl (hpoint '.' (by rw [heq]; rfl))
    · next heq => exact absurd rfl (hpoint '.' (by rw [heq]; rfl))
    · rfl
  have hrun : run continuesName (cs ++ rest) = cs.length :=
    run_append cs hcs fun d hd => (hrest d hd).1
  unfold scanWord
  simp only [haxis, hrun, ite_self, if_true, List.take_left]
  cases Keyword.ofText? (String.ofList (c :: cs)) <;> rfl

/-- A name is split into itself. -/
theorem spells_name {name : String} (h : IsName name) :
    Spells Breaks name.toList [.ident name] := by
  obtain ⟨⟨c, cs, hname, hc, hcs⟩, hkeyword⟩ := h
  rw [hname]
  refine spells_token cs fun rest hrest => ?_
  rw [scan_of_startsName hc, scanWord_append hcs hrest, ← hname, String.ofList_toList, hkeyword]

/-- Digits are scanned as an integer where nothing makes them a size or a number with a fraction or
exponent. -/
theorem scanNumber_append {c : Char} {rest : List Char} (hcs : ∀ d ∈ cs, d.isDigit = true)
    (hrest : Breaks rest) : scanNumber c (cs ++ rest) =
      tokenOrStray (if decimalValue (c :: cs) < 1 <<< 63 then some (.int (decimalValue (c :: cs)))
        else none) cs.length := by
  have hhead : ∀ {d tail}, rest = d :: tail → continuesName d = false ∧ d ≠ '.' := by
    rintro d tail rfl
    exact hrest d rfl
  have hrun : run Char.isDigit (cs ++ rest) = cs.length := by
    refine run_append cs hcs fun d hd => ?_
    have hbreak := (hrest d hd).1
    simp only [continuesName, Char.isAlphanum, Bool.or_eq_false_iff] at hbreak
    exact hbreak.1.2
  have hunit : unit? rest = none := by
    unfold unit?
    split
    · exact absurd (hhead rfl).1 (by decide)
    · exact absurd (hhead rfl).1 (by decide)
    · exact absurd (hhead rfl).1 (by decide)
    · rfl
  have hfraction : fractionLength rest = 0 := by
    unfold fractionLength
    split
    · exact absurd rfl (hhead rfl).2
    · rfl
  have hexponent : exponentPart? rest = none := by
    unfold exponentPart?
    split
    · rw [if_neg]
      rw [Bool.or_eq_true, beq_iff_eq, beq_iff_eq]
      rintro (rfl | rfl)
      · exact absurd (hhead rfl).1 (by decide)
      · exact absurd (hhead rfl).1 (by decide)
    · rfl
  unfold scanNumber
  simp only [hrun, List.take_left, List.drop_left, hunit, hfraction, hexponent, if_true]

/-- The digits of a number are split into the number. -/
theorem spells_nat {n : Nat} (h : n < 2 ^ 63) : Spells Breaks (toString n).toList [.int n] := by
  have hdigits : (toString n).toList = Nat.toDigits 10 n := Nat.toList_repr
  have hall : ∀ c ∈ (toString n).toList, c.isDigit = true := by
    rw [hdigits]
    exact fun c hc => Nat.isDigit_of_mem_toDigits (by decide) (by decide) hc
  have hvalue : decimalValue (toString n).toList = n := by
    rw [hdigits]
    exact Nat.ofDigitChars_toDigits (by decide) (by decide)
  obtain ⟨c, cs, heq⟩ := List.exists_cons_of_ne_nil (l := (toString n).toList)
    (by rw [hdigits]; exact Nat.toDigits_ne_nil)
  rw [heq] at hall hvalue ⊢
  rw [List.forall_mem_cons] at hall
  refine spells_token cs fun rest hrest => ?_
  rw [scan_of_isDigit hall.1, scanNumber_append hall.2 hrest, hvalue,
    if_pos (show n < 1 <<< 63 from h)]
  rfl

/-! ## Symbols -/

theorem Opens.ne {rest : List Char} (h : Opens rest) {d : Char} (hname : startsName d = false)
    (hdigit : d.isDigit = false) (hminus : d ≠ '-') (hparen : d ≠ '(') :
    ∀ c ∈ rest.head?, c ≠ d := by
  rintro c hc rfl
  obtain ⟨c', hc', hopens⟩ := h
  rw [Option.mem_unique hc' hc, hname, hdigit] at hopens
  simp [hminus, hparen] at hopens

theorem Opens.not_isBlank {rest : List Char} (h : Opens rest) :
    ∀ c ∈ rest.head?, isBlank c = false := by
  intro c hc
  simp only [isBlank, Bool.or_eq_false_iff, beq_eq_false_iff_ne]
  exact ⟨⟨h.ne (by decide) (by decide) (by decide) (by decide) c hc,
    h.ne (by decide) (by decide) (by decide) (by decide) c hc⟩,
    h.ne (by decide) (by decide) (by decide) (by decide) c hc⟩

/-- A space before anything but blanks is skipped. -/
theorem spells_space : Spells (fun rest => ∀ c ∈ rest.head?, isBlank c = false) [' '] [] := by
  refine spells_blank [] fun rest hrest => ?_
  have hrun : run isBlank rest = 0 := run_append [] (by simp) hrest
  change (⟨.blank, run isBlank rest⟩ : Scan) = _
  rw [hrun]
  rfl

/-- A text that stands between two operands for a symbol. -/
structure Between (text : List Char) (s : Symbol) : Prop where
  breaks : ∀ rest, Breaks (text ++ rest)
  spells : Spells Opens text [.symbol s]

/-- A symbol between spaces stands for itself. -/
theorem Between.spaced {s : Symbol} (h : Spells (fun rest => rest.head? = some ' ') cs [.symbol s])
    (hcs : ∀ rest, ∀ c ∈ (cs ++ ' ' :: rest).head?, isBlank c = false) :
    Between (' ' :: (cs ++ [' '])) s := by
  refine ⟨fun rest c hc => ?_, ?_⟩
  · cases hc
    decide
  · have hend : Spells Opens (cs ++ [' ']) ([.symbol s] ++ []) :=
      h.append (spells_space.mono fun _ => Opens.not_isBlank) fun _ _ => rfl
    change Spells Opens ([' '] ++ (cs ++ [' '])) ([] ++ ([.symbol s] ++ []))
    refine spells_space.append hend fun rest _ => ?_
    rw [List.append_assoc]
    exact hcs rest

theorem between_plus : Between " + ".toList .plus :=
  .spaced (spells_token [] fun _ _ => rfl) fun _ _ hc => by cases hc; rfl

theorem between_minus : Between " - ".toList .minus :=
  .spaced (spells_token [] fun _ _ => rfl) fun _ _ hc => by cases hc; rfl

theorem between_percent : Between " % ".toList .percent :=
  .spaced (spells_token [] fun _ _ => rfl) fun _ _ hc => by cases hc; rfl

theorem between_slashSlash : Between " // ".toList .slashSlash :=
  .spaced (spells_token ['/'] fun _ _ => rfl) fun _ _ hc => by cases hc; rfl

theorem between_slash : Between " / ".toList .slash := by
  refine .spaced (spells_token [] fun rest hrest => ?_) fun _ _ hc => by cases hc; rfl
  cases rest with
  | nil => cases hrest
  | cons c rest =>
    cases hrest
    rfl

theorem between_starStar : Between "**".toList .starStar :=
  ⟨fun _ _ hc => by cases hc; decide, spells_token ['*'] fun _ _ => rfl⟩

theorem between_star : Between "*".toList .star := by
  refine ⟨fun _ _ hc => by cases hc; decide, spells_token [] fun rest hrest => ?_⟩
  have hstar := hrest.ne (d := '*') (by decide) (by decide) (by decide) (by decide)
  have hsymbol : symbol? '*' rest = some (.star, 0) := by
    unfold symbol?
    split <;> simp_all
  change scan '*' rest = _
  rw [scan, hsymbol]
  rfl

/-! ## Brackets -/

/-- A character that is a token wherever it stands. -/
theorem spells_open {c : Char} {s : Symbol} (h : ∀ rest, scan c rest = ⟨.token (.symbol s), 0⟩) :
    Spells (fun _ => True) [c] [.symbol s] := spells_token [] fun rest _ => h rest

/-- A text between an opening and a closing character. -/
theorem spells_bracketed {o c : Char} {opening closing : Symbol}
    (ho : ∀ rest, scan o rest = ⟨.token (.symbol opening), 0⟩)
    (hc : ∀ rest, scan c rest = ⟨.token (.symbol closing), 0⟩)
    (hbreaks : continuesName c = false ∧ c ≠ '.') (h : Spells Breaks cs ts) :
    Spells Breaks (o :: (cs ++ [c])) (.symbol opening :: (ts ++ [.symbol closing])) := by
  have hinner : Spells Breaks (cs ++ [c]) (ts ++ [.symbol closing]) :=
    h.append ((spells_open hc).mono fun _ _ => trivial) fun _ _ _ hd => by cases hd; exact hbreaks
  exact (spells_open ho).append hinner fun _ _ => trivial

theorem spells_parens (h : Spells Breaks cs ts) :
    Spells Breaks ('(' :: (cs ++ [')'])) (.symbol .leftParen :: (ts ++ [.symbol .rightParen])) :=
  spells_bracketed (fun _ => rfl) (fun _ => rfl) (by decide) h

theorem spells_brackets (h : Spells Breaks cs ts) :
    Spells Breaks ('[' :: (cs ++ [']']))
      (.symbol .leftBracket :: (ts ++ [.symbol .rightBracket])) :=
  spells_bracketed (fun _ => rfl) (fun _ => rfl) (by decide) h

end LoopKernel.Lexer
