import LoopKernel.Source.Grammar

/-!
# What parsed trees are made of

The names and numbers in the trees that a parser gives are those of the tokens it has read. What
holds of all tokens of a source holds therefore of all names and numbers in its statements.
-/

namespace LoopKernel.Source

/-! ## Trees of tokens -/

mutual

/-- Whether the names and numbers of a tree are tokens of a kind. -/
@[simp] def Term.MadeOf (Q : Token → Prop) : Term → Prop
  | .int _ n => ∃ m : Nat, n = m ∧ Q (.int m)
  | .float _ x => Q (.float x)
  | .var _ name => Q (.ident name)
  | .tagged _ name tag => Q (.ident name) ∧ Q (.ident tag)
  | .subscript _ aggregate index => Q (.ident aggregate.name) ∧ Term.AllMadeOf Q index
  | .neg _ operand => operand.MadeOf Q
  | .binary _ _ left right => left.MadeOf Q ∧ right.MadeOf Q
  | .call _ function args => Q (.ident function.name) ∧ Term.AllMadeOf Q args
  | .reduce _ _ _ indices body => (∀ b ∈ indices, Q (.ident b.index.name)) ∧ body.MadeOf Q

/-- Whether the names and numbers of several trees are tokens of a kind. -/
@[simp] def Term.AllMadeOf (Q : Token → Prop) : List Term → Prop
  | [] => True
  | t :: rest => t.MadeOf Q ∧ Term.AllMadeOf Q rest

end

variable {α β : Type} {Q : Token → Prop}

/-- Several trees are made of tokens if each of them is. -/
theorem Term.allMadeOf_iff {terms : List Term} :
    Term.AllMadeOf Q terms ↔ ∀ t ∈ terms, t.MadeOf Q := by
  induction terms with
  | nil => simp
  | cons t rest ih => simp [ih]

/-- The trees of a chain. -/
def Chain.terms (chain : Chain) : List Term := chain.first :: chain.rest.map Prod.snd

/-- The trees of a statement. -/
def StatementBody.terms : StatementBody → List Term
  | .kernel _ | .set _ _ _ | .tag _ => []
  | .domain _ chains => chains.flatMap Chain.terms
  | .arg (.global shape) _ _ | .arg (.image shape) _ _ => shape
  | .arg (.scalar _ _) _ _ => []
  | .temp _ _ shape => shape
  | .insn statement => [statement.assignee, statement.expression]

/-- The dimensions that a statement lists. -/
def StatementBody.dims : StatementBody → List Ident
  | .domain dims _ => dims
  | _ => []

/-! ## Parsers -/

/-- Whether only tokens of a kind are left. -/
def Cursor.All (Q : Token → Prop) (c : Cursor) : Prop := ∀ l ∈ c.rest, Q l.token

namespace Parser

/-- Whether a parser gives values of a kind from tokens of a kind. -/
def Yields (Q : Token → Prop) (p : Parser α) (P : α → Prop) : Prop :=
  ∀ c a c', c.All Q → p c = .ok (a, c') → P a ∧ c'.All Q

variable {p : Parser α} {P P' : α → Prop}

theorem yields_pure {a : α} (h : P a) : Yields Q (pure a) P := by
  rintro c a c' hc ⟨⟩
  exact ⟨h, hc⟩

theorem yields_mismatch : Yields Q (mismatch : Parser α) P := by
  rintro c a c' - ⟨⟩

theorem Yields.mono (h : Yields Q p P) (hP : ∀ a, P a → P' a) : Yields Q p P' := fun c a c' hc hp =>
  (h c a c' hc hp).imp_left (hP a)

theorem Yields.bind {f : α → Parser β} {R : β → Prop} (h : Yields Q p P)
    (hf : ∀ a, P a → Yields Q (f a) R) : Yields Q (p >>= f) R := by
  intro c b c' hc hb
  change (p c >>= fun r => f r.1 r.2) = .ok (b, c') at hb
  cases hp : p c with
  | error e =>
    rw [hp] at hb
    cases hb
  | ok r =>
    rw [hp] at hb
    obtain ⟨ha, hrest⟩ := h c r.1 r.2 hc hp
    exact hf r.1 ha r.2 b c' hrest hb

theorem Yields.orElse {q : Parser α} (hp : Yields Q p P) (hq : Yields Q q P) :
    Yields Q (orElse p q) P := by
  intro c a c' hc h
  unfold Parser.orElse at h
  split at h
  · exact hq c a c' hc h
  · exact hp c a c' hc h

theorem yields_choice {ps : List (Parser α)} (h : ∀ p ∈ ps, Yields Q p P) :
    Yields Q (choice ps) P := by
  induction ps with
  | nil => exact yields_mismatch
  | cons p rest ih =>
    exact (h p List.mem_cons_self).orElse (ih fun q hq => h q (List.mem_cons_of_mem p hq))

theorem Yields.optional (h : Yields Q p P) : Yields Q (optional p) fun o => ∀ a ∈ o, P a :=
  Yields.orElse (h.bind fun a ha => yields_pure (by simpa using ha)) (yields_pure (by simp))

theorem yields_take {accept : Token → Span → Option α}
    (h : ∀ t span a, Q t → accept t span = some a → P a) : Yields Q (take accept) P := by
  intro c a c' hc ht
  unfold take at ht
  split at ht
  · cases ht
  · next l rest hrest =>
    rw [Cursor.All, hrest, List.forall_mem_cons] at hc
    split at ht
    · next b hb =>
      cases ht
      exact ⟨h _ _ _ hc.1 hb, hc.2⟩
    · cases ht

theorem yields_token (t : Token) : Yields Q (token t) fun _ => True :=
  yields_take fun _ _ _ _ _ => trivial

theorem yields_symbol (s : Symbol) : Yields Q (symbol s) fun _ => True := yields_token _

theorem yields_keyword (k : Keyword) : Yields Q (keyword k) fun _ => True := yields_token _

theorem Yields.manyWithin (h : Yields Q p P) (limit : List Lexeme) :
    Yields Q (manyWithin p limit) fun as => ∀ a ∈ as, P a := by
  induction limit with
  | nil => exact yields_pure (by simp)
  | cons _ limit ih =>
    refine h.optional.bind fun o ho => ?_
    cases o with
    | none => exact yields_pure (by simp)
    | some a =>
      exact ih.bind fun as has => yields_pure (List.forall_mem_cons.mpr ⟨ho a rfl, has⟩)

theorem Yields.many (h : Yields Q p P) : Yields Q (many p) fun as => ∀ a ∈ as, P a :=
  fun c as c' hc hm => h.manyWithin c.rest c as c' hc hm

theorem Yields.many1 (h : Yields Q p P) : Yields Q (many1 p) fun as => ∀ a ∈ as, P a :=
  h.bind fun _ ha => h.many.bind fun _ has =>
    yields_pure (List.forall_mem_cons.mpr ⟨ha, has⟩)

theorem Yields.separated1 {separator : Parser β} (h : Yields Q p P)
    (hs : Yields Q separator fun _ => True) :
    Yields Q (separated1 p separator) fun as => ∀ a ∈ as, P a :=
  h.bind fun _ ha => (hs.bind fun _ _ => h).many.bind fun _ has =>
    yields_pure (List.forall_mem_cons.mpr ⟨ha, has⟩)

theorem Yields.separated {separator : Parser β} (h : Yields Q p P)
    (hs : Yields Q separator fun _ => True) :
    Yields Q (separated p separator) fun as => ∀ a ∈ as, P a :=
  (h.separated1 hs).optional.bind fun o ho => yields_pure <| by
    cases o with
    | none => simp
    | some as => exact ho as rfl

theorem Yields.between {opening closing : Symbol} (h : Yields Q p P) :
    Yields Q (between opening closing p) P :=
  (yields_symbol opening).bind fun _ _ => h.bind fun _ ha =>
    (yields_symbol closing).bind fun _ _ => yields_pure ha

theorem Yields.spanned (h : Yields Q p P) : Yields Q (spanned p) fun a => P a.1 := by
  intro c a c' hc hs
  unfold Parser.spanned at hs
  split at hs
  · cases hs
  · split at hs
    · next hp =>
      cases hs
      exact h c _ _ hc hp
    · cases hs

end Parser

open Source.Parser

/-! ## Expressions -/

theorem yields_ident : Yields Q ident fun id => Q (.ident id.name) := by
  refine yields_take fun t span id ht hid => ?_
  split at hid
  · cases hid
    exact ht
  · cases hid

theorem yields_number : Yields Q number (Term.MadeOf Q) := by
  refine yields_take fun t span term ht hterm => ?_
  split at hterm
  · next n =>
    cases hterm
    rw [Term.MadeOf]
    exact ⟨n, rfl, ht⟩
  · cases hterm
    rw [Term.MadeOf]
    exact ht
  · cases hterm

theorem yields_boundIndices :
    Yields Q boundIndices fun indices => ∀ b ∈ indices, Q (.ident b.index.name) := by
  have hone : Yields Q boundIndex fun b => Q (.ident b.index.name) :=
    (yields_symbol .at).optional.bind fun _ _ => yields_ident.bind fun _ hid => yields_pure hid
  exact Yields.orElse (hone.bind fun b hb => yields_pure (by simpa using hb))
    (hone.separated1 (yields_symbol .comma)).between

theorem yields_bracketedTerms {expression : Parser Term}
    (h : Yields Q expression (Term.MadeOf Q)) :
    Yields Q (bracketedTerms expression) fun terms => ∀ t ∈ terms, t.MadeOf Q :=
  (h.separated1 (yields_symbol .comma)).between

section Atoms

variable {expression : Parser Term} (h : Yields Q expression (Term.MadeOf Q))

include h

theorem yields_reduction : Yields Q (reduction expression) (Term.MadeOf Q) := by
  unfold reduction
  refine (Yields.spanned (P := fun r : (ReductionKind × Span) × List BoundIndex × Term =>
    (∀ b ∈ r.2.1, Q (.ident b.index.name)) ∧ r.2.2.MadeOf Q) ?_).bind ?_
  · refine Yields.bind (P := fun _ => True) (yields_take fun _ _ _ _ _ => trivial) fun op _ => ?_
    refine (yields_symbol _).bind fun _ _ => yields_boundIndices.bind fun indices hindices => ?_
    refine (yields_symbol _).bind fun _ _ => h.bind fun body hbody => ?_
    exact (yields_symbol _).bind fun _ _ => yields_pure ⟨hindices, hbody⟩
  · rintro ⟨⟨⟨kind, opSpan⟩, indices, body⟩, span⟩ ⟨hindices, hbody⟩
    refine yields_pure ?_
    rw [Term.MadeOf]
    exact ⟨hindices, hbody⟩

theorem yields_call : Yields Q (call expression) (Term.MadeOf Q) := by
  unfold call
  refine (Yields.spanned (P := fun r : Ident × List Term =>
    Q (.ident r.1.name) ∧ ∀ t ∈ r.2, t.MadeOf Q) ?_).bind ?_
  · refine yields_ident.bind fun function hfunction => ?_
    exact (h.separated (yields_symbol .comma)).between.bind fun args hargs =>
      yields_pure ⟨hfunction, hargs⟩
  · rintro ⟨⟨function, args⟩, span⟩ ⟨hfunction, hargs⟩
    refine yields_pure ?_
    rw [Term.MadeOf]
    exact ⟨hfunction, Term.allMadeOf_iff.mpr hargs⟩

theorem yields_subscript : Yields Q (subscript expression) (Term.MadeOf Q) := by
  unfold subscript
  refine (Yields.spanned (P := fun r : Ident × List Term =>
    Q (.ident r.1.name) ∧ ∀ t ∈ r.2, t.MadeOf Q) ?_).bind ?_
  · exact yields_ident.bind fun aggregate haggregate =>
      (yields_bracketedTerms h).bind fun index hindex => yields_pure ⟨haggregate, hindex⟩
  · rintro ⟨⟨aggregate, index⟩, span⟩ ⟨haggregate, hindex⟩
    refine yields_pure ?_
    rw [Term.MadeOf]
    exact ⟨haggregate, Term.allMadeOf_iff.mpr hindex⟩

theorem yields_atom : Yields Q (atom expression) (Term.MadeOf Q) := by
  have htagged : Yields Q taggedName (Term.MadeOf Q) := by
    refine (Yields.spanned (P := fun r : Ident × Ident =>
      Q (.ident r.1.name) ∧ Q (.ident r.2.name)) ?_).bind ?_
    · exact yields_ident.bind fun name hname => (yields_symbol _).bind fun _ _ =>
        yields_ident.bind fun tag htag => yields_pure ⟨hname, htag⟩
    · rintro ⟨⟨name, tag⟩, span⟩ hnames
      refine yields_pure ?_
      rw [Term.MadeOf]
      exact hnames
  have hplain : Yields Q plainName (Term.MadeOf Q) :=
    yields_ident.bind fun id hid => yields_pure (by rwa [Term.MadeOf])
  refine yields_choice ?_
  simp only [List.forall_mem_cons, List.not_mem_nil, false_implies, implies_true, and_true]
  exact ⟨yields_number, yields_reduction h, yields_call h, htagged, yields_subscript h, hplain,
    h.between⟩

omit h in
/-- A joined tree is made of what its operands are made of. -/
theorem madeOf_join {op : Operator} {left right : Term} :
    (join op left right).MadeOf Q ↔ left.MadeOf Q ∧ right.MadeOf Q := by
  rw [join, Term.MadeOf]

theorem yields_power : Yields Q (power expression) (Term.MadeOf Q) := by
  refine (yields_atom h).bind fun base hbase => ?_
  refine ((yields_symbol _).bind fun _ _ => yields_atom h).many.bind fun exponents hexponents => ?_
  refine yields_pure ?_
  induction exponents generalizing base with
  | nil => exact hbase
  | cons e rest ih =>
    rw [List.forall_mem_cons] at hexponents
    exact madeOf_join.mpr ⟨hbase, ih e hexponents.1 hexponents.2⟩

theorem yields_unary : Yields Q (unary expression) (Term.MadeOf Q) := by
  refine (yields_symbol .minus).many.bind fun signs _ => ?_
  refine (yields_power h).bind fun operand hoperand => yields_pure ?_
  induction signs with
  | nil => exact hoperand
  | cons sign rest ih =>
    rw [List.foldr_cons, Term.MadeOf]
    exact ih fun _ _ => trivial

omit h in
theorem Parser.Yields.leftChain {operator : Parser Operator} {operand : Parser Term}
    (hoperator : Yields Q operator fun _ => True) (h : Yields Q operand (Term.MadeOf Q)) :
    Yields Q (leftChain operator operand) (Term.MadeOf Q) := by
  have hitem : Yields Q (do pure (← operator, ← operand)) fun item : Operator × Term =>
      item.2.MadeOf Q :=
    hoperator.bind fun _ _ => h.bind fun _ ht => yields_pure ht
  refine h.bind fun first hfirst => hitem.many.bind fun items hitems => yields_pure ?_
  induction items generalizing first with
  | nil => exact hfirst
  | cons item rest ih =>
    rw [List.forall_mem_cons] at hitems
    exact ih _ (madeOf_join.mpr ⟨hfirst, hitems.1⟩) hitems.2

theorem yields_sum : Yields Q (sum expression) (Term.MadeOf Q) :=
  .leftChain (yields_take fun _ _ _ _ _ => trivial)
    (.leftChain (yields_take fun _ _ _ _ _ => trivial) (yields_unary h))

end Atoms

theorem yields_expression : Yields Q expression (Term.MadeOf Q) := by
  have hwithin : ∀ limit, Yields Q (expressionWithin limit) (Term.MadeOf Q) := by
    intro limit
    induction limit with
    | nil => exact yields_mismatch
    | cons _ limit ih => exact yields_sum ih
  exact fun c t c' hc h => hwithin c.rest c t c' hc h

/-! ## Statements -/

/-- Whether the trees and the dimensions of a statement are made of tokens of a kind. -/
structure StatementBody.MadeOf (Q : Token → Prop) (body : StatementBody) : Prop where
  terms : ∀ t ∈ body.terms, t.MadeOf Q
  dims : ∀ id ∈ body.dims, Q (.ident id.name)

/-- A statement that lists no dimensions is made of the tokens of its trees. -/
theorem StatementBody.madeOf_of_terms {body : StatementBody} (hdims : body.dims = [])
    (h : ∀ t ∈ body.terms, t.MadeOf Q) : body.MadeOf Q :=
  ⟨h, fun _ hid => absurd (hdims ▸ hid) List.not_mem_nil⟩

theorem yields_domainStatement : Yields Q domainStatement (StatementBody.MadeOf Q) := by
  have hchain : Yields Q chain fun c => c.first.MadeOf Q ∧ ∀ item ∈ c.rest, item.2.MadeOf Q := by
    refine (Yields.spanned (P := fun r : Term × List (Comparison × Term) =>
      r.1.MadeOf Q ∧ ∀ item ∈ r.2, item.2.MadeOf Q) ?_).bind ?_
    · refine yields_expression.bind fun first hfirst => ?_
      have hitem : Yields Q (do pure (← comparison, ← expression)) fun item : Comparison × Term =>
          item.2.MadeOf Q :=
        Yields.bind (P := fun _ => True) (yields_take fun _ _ _ _ _ => trivial) fun _ _ =>
          yields_expression.bind fun _ ht => yields_pure ht
      exact hitem.many1.bind fun items hitems => yields_pure ⟨hfirst, hitems⟩
    · rintro ⟨⟨first, rest⟩, span⟩ h
      exact yields_pure h
  refine (yields_keyword _).bind fun _ _ => ?_
  refine (yields_ident.separated (yields_symbol .comma)).between.bind fun dims hdims => ?_
  refine (yields_symbol _).bind fun _ _ => ?_
  refine (hchain.separated1 (yields_keyword _)).bind fun chains hchains => yields_pure ⟨?_, hdims⟩
  intro t ht
  obtain ⟨c, hc, ht⟩ := List.mem_flatMap.mp ht
  obtain ⟨hfirst, hrest⟩ := hchains c hc
  rcases List.mem_cons.mp ht with rfl | ht
  · exact hfirst
  · obtain ⟨item, hitem, rfl⟩ := List.mem_map.mp ht
    exact hrest item hitem

theorem yields_arrayStatement : Yields Q arrayStatement (StatementBody.MadeOf Q) := by
  refine (yields_keyword _).bind fun _ _ => ?_
  refine Yields.bind (P := fun form : List Term → ArgumentForm =>
    ∀ shape dtype name, (StatementBody.arg (form shape) dtype name).terms = shape) ?_ ?_
  · refine yields_choice ?_
    simp only [List.forall_mem_cons, List.not_mem_nil, false_implies, implies_true, and_true]
    exact ⟨(yields_keyword _).bind fun _ _ => yields_pure fun _ _ _ => rfl,
      (yields_keyword _).bind fun _ _ => yields_pure fun _ _ _ => rfl⟩
  · intro form hform
    refine yields_ident.bind fun dtype _ => yields_ident.bind fun name _ => ?_
    refine (yields_bracketedTerms yields_expression).bind fun shape hshape => yields_pure ?_
    refine StatementBody.madeOf_of_terms rfl ?_
    rwa [hform]

theorem yields_insnStatement : Yields Q insnStatement (StatementBody.MadeOf Q) := by
  have hassignee : Yields Q assignee (Term.MadeOf Q) := by
    refine (Yields.spanned (P := fun r : Ident × Option (List Term) =>
      Q (.ident r.1.name) ∧ ∀ index ∈ r.2, ∀ t ∈ index, t.MadeOf Q) ?_).bind ?_
    · exact yields_ident.bind fun name hname =>
        (yields_bracketedTerms yields_expression).optional.bind fun index hindex =>
          yields_pure ⟨hname, hindex⟩
    · rintro ⟨⟨name, index⟩, span⟩ ⟨hname, hindex⟩
      cases index with
      | none => exact yields_pure (by rwa [Term.MadeOf])
      | some index =>
        refine yields_pure ?_
        rw [Term.MadeOf]
        exact ⟨hname, Term.allMadeOf_iff.mpr (hindex index rfl)⟩
  have hnames : ∀ k, Yields Q (nameList k) fun _ => True := fun k =>
    (((yields_keyword k).bind fun _ _ =>
      (yields_ident.separated (yields_symbol .comma)).between).optional).bind fun _ _ =>
        yields_pure trivial
  refine (yields_keyword _).bind fun _ _ => ?_
  have hid : Yields Q (do let id ← ident; let _ ← symbol .colon; pure id) fun id =>
      Q (.ident id.name) :=
    yields_ident.bind fun _ hid => (yields_symbol _).bind fun _ _ => yields_pure hid
  refine hid.optional.bind fun id _ => ?_
  refine hassignee.bind fun assignee hassignee => (yields_symbol _).bind fun _ _ => ?_
  refine yields_expression.bind fun expression hexpression => ?_
  refine (hnames _).bind fun deps _ => (hnames _).bind fun inames _ => yields_pure ?_
  exact StatementBody.madeOf_of_terms rfl
    (List.forall_mem_cons.mpr ⟨hassignee, List.forall_mem_singleton.mpr hexpression⟩)

theorem yields_tagStatement : Yields Q tagStatement (StatementBody.MadeOf Q) := by
  have hnamed : Yields Q namedTag fun _ => True := by
    intro c tag c' hc h
    unfold namedTag at h
    cases hid : ident c with
    | error e =>
      rw [hid] at h
      cases h
    | ok r =>
      rw [hid] at h
      obtain ⟨-, hrest⟩ := yields_ident c r.1 r.2 hc hid
      dsimp only [bind, Except.bind] at h
      split at h
      · cases h
        exact ⟨trivial, hrest⟩
      · cases h
  have hvalue : Yields Q tagValue fun _ => True :=
    Yields.orElse (yields_take fun _ _ _ _ _ => trivial) hnamed
  have hentry : Yields Q tagEntry fun _ => True :=
    Yields.bind (P := fun _ => True)
      (Yields.spanned (P := fun _ => True) (yields_ident.bind fun _ _ =>
        (yields_symbol _).bind fun _ _ => hvalue.bind fun _ _ => yields_pure trivial))
      fun _ _ => yields_pure trivial
  exact (yields_keyword _).bind fun _ _ => (hentry.separated1 (yields_symbol .comma)).bind
    fun _ _ => yields_pure (StatementBody.madeOf_of_terms rfl (by simp [StatementBody.terms]))

/-- A statement that is read is made of tokens that were read. -/
theorem yields_statement : Yields Q statement fun s => s.body.MadeOf Q := by
  have hnone : ∀ body : StatementBody, body.dims = [] → body.terms = [] → body.MadeOf Q :=
    fun body hdims h => StatementBody.madeOf_of_terms hdims fun t ht =>
      absurd (h ▸ ht) List.not_mem_nil
  have hkernel : Yields Q kernelStatement (StatementBody.MadeOf Q) :=
    (yields_keyword _).bind fun _ _ => yields_ident.bind fun _ _ => yields_pure (hnone _ rfl rfl)
  have hset : Yields Q setStatement (StatementBody.MadeOf Q) :=
    (yields_keyword _).bind fun _ _ => yields_ident.bind fun _ _ =>
      (yields_symbol _).bind fun _ _ =>
        Yields.bind (P := fun _ => True) (yields_take fun _ _ _ _ _ => trivial) fun _ _ =>
          yields_pure (hnone _ rfl rfl)
  have hscalar : Yields Q scalarStatement (StatementBody.MadeOf Q) :=
    (yields_keyword _).bind fun _ _ => (yields_keyword _).bind fun _ _ =>
      yields_ident.bind fun _ _ => yields_ident.bind fun _ _ => (yields_symbol _).bind fun _ _ =>
        Yields.bind (P := fun _ => True) (yields_take fun _ _ _ _ _ => trivial) fun _ _ =>
          yields_pure (hnone _ rfl rfl)
  have htemp : Yields Q tempStatement (StatementBody.MadeOf Q) :=
    (yields_keyword _).bind fun _ _ => yields_ident.bind fun _ _ => yields_ident.bind fun _ _ =>
      (yields_bracketedTerms yields_expression).bind fun _ hshape =>
        yields_pure (StatementBody.madeOf_of_terms rfl hshape)
  have hbody : Yields Q (choice [kernelStatement, setStatement, domainStatement, arrayStatement,
      scalarStatement, tempStatement, tagStatement, insnStatement]) (StatementBody.MadeOf Q) := by
    refine yields_choice ?_
    simp only [List.forall_mem_cons, List.not_mem_nil, false_implies, implies_true, and_true]
    exact ⟨hkernel, hset, yields_domainStatement, yields_arrayStatement, hscalar, htemp,
      yields_tagStatement, yields_insnStatement⟩
  exact hbody.spanned.bind fun _ h => yields_pure h

/-- The statements of a source are made of its tokens. -/
theorem madeOf_of_read {source : String} {file : File} (h : (read source).file = .ok file)
    (hQ : ∀ l ∈ (Lexer.split source).lexemes, Q l.token) :
    ∀ s ∈ file.statements, s.body.MadeOf Q := by
  have hall : Yields Q statements fun found => ∀ s ∈ found, s.body.MadeOf Q := by
    refine (yields_token _).many.bind fun _ _ => ?_
    refine (yields_statement.separated
      ((yields_token _).many1.mono fun _ _ => trivial)).bind fun found hfound => ?_
    refine (yields_token _).many.bind fun _ _ => ?_
    refine Yields.bind (P := fun _ => True) ?_ fun _ _ => yields_pure hfound
    intro c _ c' hc hend
    unfold atEnd at hend
    split at hend
    · cases hend
      exact ⟨trivial, hc⟩
    · cases hend
  change parseTokens (Lexer.split source).lexemes source.utf8ByteSize = .ok file at h
  unfold parseTokens at h
  let start : Cursor := ⟨⟨source.utf8ByteSize, source.utf8ByteSize⟩,
    (Lexer.split source).lexemes⟩
  cases hfound : statements start with
  | error e =>
    rw [hfound] at h
    cases h
  | ok r =>
    rw [hfound] at h
    cases h
    exact (hall start r.1 r.2 hQ hfound).1

end LoopKernel.Source
