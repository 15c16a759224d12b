import LoopKernel.Source.Parsing

/-!
# Runs of parsers

What the combinators give where the parsers they are made of fit, and where they do not. A
repetition is run as a list of steps.
-/

namespace LoopKernel.Source.Parser

variable {α β : Type} {p q : Parser α} {c c' : Cursor} {a : α}

theorem bind_of_ok {f : α → Parser β} (h : p c = .ok (a, c')) : (p >>= f) c = f a c' := by
  change (p c >>= fun r => f r.1 r.2) = _
  rw [h]
  rfl

theorem bind_of_mismatch {f : α → Parser β} (h : p c = .error .mismatch) :
    (p >>= f) c = .error .mismatch := by
  change (p c >>= fun r => f r.1 r.2) = _
  rw [h]
  rfl

theorem orElse_of_ok (h : p c = .ok (a, c')) : orElse p q c = .ok (a, c') := by
  unfold orElse
  rw [h]

theorem orElse_of_mismatch (h : p c = .error .mismatch) : orElse p q c = q c := by
  unfold orElse
  rw [h]

theorem optional_of_ok (h : p c = .ok (a, c')) : optional p c = .ok (some a, c') :=
  orElse_of_ok (by rw [bind_of_ok h]; rfl)

theorem optional_of_mismatch (h : p c = .error .mismatch) : optional p c = .ok (none, c) :=
  orElse_of_mismatch (bind_of_mismatch h)

theorem spanned_of_mismatch (h : p c = .error .mismatch) : spanned p c = .error .mismatch := by
  unfold spanned
  split
  · rfl
  · rw [h]

theorem spanned_of_ok {l : Lexeme} {rest : List Lexeme} {last : Span}
    (h : p ⟨last, l :: rest⟩ = .ok (a, c')) :
    spanned p ⟨last, l :: rest⟩ = .ok ((a, l.span.through c'.last), c') := by
  unfold spanned
  dsimp only
  rw [h]

/-- A token at the front is taken if it is accepted. -/
theorem take_of_accept {accept : Token → Span → Option α} {l : Lexeme} {rest : List Lexeme}
    {last : Span} (h : accept l.token l.span = some a) :
    take accept ⟨last, l :: rest⟩ = .ok (a, ⟨l.span, rest⟩) := by
  unfold take
  dsimp only
  rw [h]

theorem take_of_reject {accept : Token → Span → Option α}
    (h : ∀ l ∈ c.rest.head?, accept l.token l.span = none) : take accept c = .error .mismatch := by
  unfold take
  split
  · rfl
  · next l rest hrest => rw [h l (by simp [hrest])]

theorem token_of_eq {t : Token} {l : Lexeme} {rest : List Lexeme} {last : Span}
    (h : l.token = t) : token t ⟨last, l :: rest⟩ = .ok (l.span, ⟨l.span, rest⟩) :=
  take_of_accept (if_pos h)

theorem token_of_ne {t : Token} (h : ∀ l ∈ c.rest.head?, l.token ≠ t) :
    token t c = .error .mismatch :=
  take_of_reject fun l hl => if_neg (h l hl)

/-- Values that a parser gives one after the other until the tokens do not fit. -/
inductive Steps (p : Parser α) : Cursor → List α → Cursor → Prop
  | stop {c : Cursor} (h : p c = .error .mismatch) : Steps p c [] c
  | step {c c' c'' : Cursor} {a : α} {as : List α} (h : p c = .ok (a, c'))
      (hlt : c'.rest.length < c.rest.length) (hsteps : Steps p c' as c'') : Steps p c (a :: as) c''

/-- A repetition gives the values of its steps. -/
theorem many_of_steps {as : List α} (h : Steps p c as c') : many p c = .ok (as, c') := by
  have general : ∀ limit : List Lexeme, c.rest.length ≤ limit.length →
      manyWithin p limit c = .ok (as, c') := by
    induction h with
    | stop h =>
      intro limit _
      cases limit with
      | nil => rfl
      | cons _ limit => rw [manyWithin, bind_of_ok (optional_of_mismatch h)]; rfl
    | step h hlt _ ih =>
      intro limit hlimit
      cases limit with
      | nil =>
        rw [List.length_nil] at hlimit
        omega
      | cons _ limit =>
        rw [List.length_cons] at hlimit
        rw [manyWithin, bind_of_ok (optional_of_ok h)]
        dsimp only
        rw [bind_of_ok (ih limit (by omega))]
        rfl
  exact general c.rest (Nat.le_refl _)

end LoopKernel.Source.Parser
