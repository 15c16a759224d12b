import LoopKernel.Proofs.Source.Alike
import LoopKernel.Proofs.Source.Building
import LoopKernel.Proofs.Source.Grammar

/-!
# Layout does not reach the kernel

Blanks, comments and empty lines are no part of a kernel. Two sources with the same tokens, empty
lines disregarded, give the same statements up to places; since kernels are built without regard to
places, the sources give the same kernel or fail for the same causes.
-/

namespace LoopKernel.Source

open LoopKernel.Source.Parser

variable {m n : Nat} {e e' : Parser Term}

/-! ## Expressions -/

theorem alike_ident : Alike m n 1 ident ident Ident.unplaced :=
  alike_take (fun _ => rfl) fun t _ _ => by cases t <;> rfl

theorem alike_comma : Alike m n 1 comma comma fun _ => () := alike_symbol .comma

theorem alike_number : Alike m n 1 number number Term.unplaced :=
  alike_take (fun _ => rfl) fun t _ _ => by cases t <;> rfl

theorem alike_boundIndex : Alike m n 1 boundIndex boundIndex BoundIndex.unplaced := by
  refine (alike_symbol .at).weaken.optional.bind fun mark mark' hmark =>
    alike_ident.followed fun id id' hid => alike_pure ?_
  have hmarked : mark.isSome = mark'.isSome := by
    cases mark <;> cases mark' <;> first | rfl | cases hmark
  rw [BoundIndex.unplaced, BoundIndex.unplaced, hid, hmarked]

theorem alike_boundIndices :
    Alike m n 1 boundIndices boundIndices (List.map BoundIndex.unplaced) := by
  refine Alike.orElse ?_ (alike_boundIndex.separated1 alike_comma).weaken.between.lower
  refine alike_boundIndex.followed fun b b' h => alike_pure ?_
  rw [List.map_singleton, List.map_singleton, h]

theorem alike_reductionName : Alike m n 1 reductionName reductionName Prod.fst :=
  alike_take (fun _ => rfl) fun t _ _ => by
    cases t with
    | ident name => cases h : ReductionKind.ofName? name <;> simp [h]
    | _ => rfl

theorem alike_bracketedTerms (h : Alike m n 1 e e' Term.unplaced) :
    Alike (m + 1) (n + 1) 1 (bracketedTerms e) (bracketedTerms e') (List.map Term.unplaced) :=
  (h.separated1 alike_comma).weaken.between

theorem alike_reduction (h : Alike m n 1 e e' Term.unplaced) :
    Alike (m + 1) (n + 1) 1 (reduction e) (reduction e') Term.unplaced := by
  refine Alike.placed
    (v := Prod.map Prod.fst (Prod.map (List.map BoundIndex.unplaced) Term.unplaced)) ?_ ?_
  · refine alike_reductionName.nested fun op op' hop => ?_
    refine (alike_symbol .leftParen).weaken.bind fun _ _ _ => ?_
    refine alike_boundIndices.weaken.bind fun indices indices' hindices => ?_
    refine alike_comma.weaken.bind fun _ _ _ => h.weaken.bind fun body body' hbody => ?_
    refine (alike_symbol .rightParen).weaken.bind fun _ _ _ => alike_pure ?_
    exact congrArg₂ Prod.mk hop (congrArg₂ Prod.mk hindices hbody)
  · rintro ⟨⟨op, _⟩, indices, body⟩ ⟨⟨op', _⟩, indices', body'⟩ s s' hview
    obtain ⟨rfl, hindices, hbody⟩ : op = op' ∧ indices.map BoundIndex.unplaced =
      indices'.map BoundIndex.unplaced ∧ body.unplaced = body'.unplaced := by simpa using hview
    dsimp only
    rw [Term.unplaced, Term.unplaced, hindices, hbody]

theorem alike_call (h : Alike m n 1 e e' Term.unplaced) :
    Alike (m + 1) (n + 1) 1 (call e) (call e') Term.unplaced := by
  refine Alike.placed (v := Prod.map Ident.unplaced (List.map Term.unplaced)) ?_ ?_
  · refine alike_ident.nested fun function function' hfunction => ?_
    refine (h.separated alike_comma).between.lower.weaken.bind fun args args' hargs => alike_pure ?_
    exact congrArg₂ Prod.mk hfunction hargs
  · rintro ⟨function, args⟩ ⟨function', args'⟩ s s' hview
    obtain ⟨hfunction, hargs⟩ : function.unplaced = function'.unplaced ∧
      args.map Term.unplaced = args'.map Term.unplaced := by simpa using hview
    dsimp only
    rw [Term.unplaced, Term.unplaced, Term.allUnplaced_eq_map, Term.allUnplaced_eq_map, hfunction,
      hargs]

theorem alike_taggedName : Alike m n 1 taggedName taggedName Term.unplaced := by
  refine Alike.placed (v := Prod.map Ident.unplaced Ident.unplaced) ?_ ?_
  · refine alike_ident.followed fun name name' hname => ?_
    refine (alike_symbol .dollar).weaken.bind fun _ _ _ => ?_
    refine alike_ident.weaken.bind fun tag tag' htag => alike_pure ?_
    exact congrArg₂ Prod.mk hname htag
  · rintro ⟨name, tag⟩ ⟨name', tag'⟩ s s' hview
    obtain ⟨hname, htag⟩ : name.name = name'.name ∧ tag.name = tag'.name := by
      simpa [Ident.unplaced] using hview
    dsimp only
    rw [Term.unplaced, Term.unplaced, hname, htag]

theorem alike_subscript (h : Alike m n 1 e e' Term.unplaced) :
    Alike (m + 1) (n + 1) 1 (subscript e) (subscript e') Term.unplaced := by
  refine Alike.placed (v := Prod.map Ident.unplaced (List.map Term.unplaced)) ?_ ?_
  · refine alike_ident.nested fun name name' hname => ?_
    refine (alike_bracketedTerms h).lower.weaken.bind fun index index' hindex => alike_pure ?_
    exact congrArg₂ Prod.mk hname hindex
  · rintro ⟨name, index⟩ ⟨name', index'⟩ s s' hview
    obtain ⟨hname, hindex⟩ : name.unplaced = name'.unplaced ∧
      index.map Term.unplaced = index'.map Term.unplaced := by simpa using hview
    dsimp only
    rw [Term.unplaced, Term.unplaced, Term.allUnplaced_eq_map, Term.allUnplaced_eq_map, hname,
      hindex]

theorem alike_plainName : Alike m n 1 plainName plainName Term.unplaced := by
  refine alike_ident.followed fun id id' h => alike_pure ?_
  have hname : id.name = id'.name := by simpa [Ident.unplaced] using h
  rw [Term.unplaced, Term.unplaced, hname]

theorem alike_atom (h : Alike m n 1 e e' Term.unplaced) :
    Alike (m + 1) (n + 1) 1 (atom e) (atom e') Term.unplaced :=
  alike_choice <| .cons alike_number <| .cons (alike_reduction h) <| .cons (alike_call h) <|
    .cons alike_taggedName <| .cons (alike_subscript h) <| .cons alike_plainName <|
      .cons h.weaken.between .nil

theorem alike_power (h : Alike m n 1 e e' Term.unplaced) :
    Alike (m + 1) (n + 1) 1 (power e) (power e') Term.unplaced := by
  refine (alike_atom h).followed fun base base' hbase =>
    Alike.bind (Alike.many (v := Term.unplaced) ?_) fun exponents exponents' hexponents =>
      alike_pure ?_
  · exact (alike_symbol .starStar).followed fun _ _ _ => (alike_atom h).weaken
  · rw [tower_unplaced, tower_unplaced, hbase, hexponents]

theorem alike_unary (h : Alike m n 1 e e' Term.unplaced) :
    Alike (m + 1) (n + 1) 1 (unary e) (unary e') Term.unplaced := by
  refine (alike_symbol .minus).many.bind fun signs signs' hsigns =>
    (alike_power h).followed fun operand operand' hoperand => alike_pure ?_
  rw [foldr_neg_unplaced, foldr_neg_unplaced, hsigns, hoperand]

theorem alike_leftChain {operator : Parser Operator} {p q : Parser Term}
    (hop : Alike m n 1 operator operator id) (h : Alike m n 1 p q Term.unplaced) :
    Alike m n 1 (leftChain operator p) (leftChain operator q) Term.unplaced := by
  refine h.followed fun first first' hfirst =>
    Alike.bind (Alike.many (v := Prod.map id Term.unplaced) ?_) fun rest rest' hrest =>
      alike_pure ?_
  · exact hop.followed fun _ _ hop => h.weaken.bind fun _ _ hview =>
      alike_pure (congrArg₂ Prod.mk hop hview)
  · rw [foldl_join_unplaced, foldl_join_unplaced, hfirst, hrest]

theorem alike_sum (h : Alike m n 1 e e' Term.unplaced) :
    Alike (m + 1) (n + 1) 1 (sum e) (sum e') Term.unplaced := by
  refine alike_leftChain (alike_take (fun _ => rfl) fun t _ _ => ?_)
    (alike_leftChain (alike_take (fun _ => rfl) fun t _ _ => ?_) (alike_unary h))
  all_goals
    rcases t with _ | s | _
    case symbol => cases s <;> rfl
    all_goals rfl

/-- No expression starts at the end of a line. -/
theorem sum_of_atLineEnd {c : Cursor} (h : c.AtLineEnd) : sum e c = .error .mismatch := by
  obtain ⟨last, _ | ⟨⟨t, span⟩, rest⟩⟩ := c
  · rfl
  · obtain rfl : t = .newline := h ⟨t, span⟩ rfl
    rfl

theorem alike_expressionWithin (limit limit' : List Lexeme) :
    Alike limit.length limit'.length 1 (expressionWithin limit) (expressionWithin limit')
      Term.unplaced := by
  have hempty {c : Cursor} (h : c.rest.length ≤ 0) : c.AtLineEnd := by
    rw [Cursor.AtLineEnd, List.eq_nil_of_length_eq_zero (Nat.le_zero.mp h)]
    simp
  induction limit generalizing limit' with
  | nil =>
    intro c c' hc hc' halike
    cases limit' with
    | nil => exact .mismatch
    | cons _ limit' =>
      rw [expressionWithin, expressionWithin, sum_of_atLineEnd (halike.atLineEnd (hempty hc))]
      exact .mismatch
  | cons _ limit ih =>
    cases limit' with
    | nil =>
      intro c c' hc hc' halike
      rw [expressionWithin, expressionWithin,
        sum_of_atLineEnd (Cursor.Alike.atLineEnd halike.symm (hempty hc'))]
      exact .mismatch
    | cons _ limit' => exact alike_sum (ih limit')

/-- An expression, however many tokens are left after the line. -/
theorem alike_expression : Alike m n 1 expression expression Term.unplaced :=
  fun c c' _ _ halike =>
    alike_expressionWithin c.rest c'.rest c c' (Nat.le_refl _) (Nat.le_refl _) halike

/-! ## Statements -/

theorem alike_kernelStatement :
    Alike m n 1 kernelStatement kernelStatement StatementBody.unplaced :=
  (alike_keyword .kernel).followed fun _ _ _ => alike_ident.weaken.bind fun _ _ hname =>
    alike_pure (congrArg StatementBody.kernel hname)

theorem alike_settingValue : Alike m n 1 settingValue settingValue Prod.fst :=
  alike_take (fun _ => rfl) fun t _ _ => by
    rcases t with k | _
    case keyword => cases k <;> rfl
    all_goals rfl

theorem alike_setStatement : Alike m n 1 setStatement setStatement StatementBody.unplaced := by
  refine (alike_keyword .set).followed fun _ _ _ => alike_ident.weaken.bind fun _ _ hname => ?_
  refine (alike_symbol .assign).weaken.bind fun _ _ _ => ?_
  refine alike_settingValue.weaken.bind fun ⟨value, s⟩ ⟨value', s'⟩ hvalue => alike_pure ?_
  obtain rfl : value = value' := hvalue
  exact congrArg (StatementBody.set · value .nowhere) hname

theorem alike_comparison : Alike m n 1 comparison comparison id :=
  alike_take (fun _ => rfl) fun t _ _ => by
    rcases t with _ | s | _
    case symbol => cases s <;> rfl
    all_goals rfl

theorem alike_chain : Alike m n 1 chain chain Chain.unplaced := by
  refine Alike.placed (v := Prod.map Term.unplaced (List.map (Prod.map id Term.unplaced))) ?_ ?_
  · refine alike_expression.followed fun first first' hfirst => ?_
    refine Alike.bind (Alike.many1 (v := Prod.map id Term.unplaced) ?_).weaken
      fun rest rest' hrest => alike_pure (congrArg₂ Prod.mk hfirst hrest)
    exact alike_comparison.followed fun _ _ hop => alike_expression.weaken.bind fun _ _ hterm =>
      alike_pure (congrArg₂ Prod.mk hop hterm)
  · rintro ⟨first, rest⟩ ⟨first', rest'⟩ s s' hview
    obtain ⟨hfirst, hrest⟩ := Prod.mk.inj hview
    exact congrArg₂ (Chain.mk · · .nowhere) hfirst hrest

theorem alike_domainStatement :
    Alike m n 1 domainStatement domainStatement StatementBody.unplaced :=
  (alike_keyword .domain).followed fun _ _ _ =>
    (alike_ident.separated alike_comma).between.lower.weaken.bind fun _ _ hdims =>
      (alike_symbol .colon).weaken.bind fun _ _ _ =>
        (alike_chain.separated1 (alike_keyword .and)).weaken.bind fun _ _ hchains =>
          alike_pure (congrArg₂ StatementBody.domain hdims hchains)

/-- An array is a buffer or an image. -/
theorem arrayForm_cases {form : List Term → ArgumentForm} {c d : Cursor}
    (h : choice [do let _ ← keyword .global; pure ArgumentForm.global,
      do let _ ← keyword .image; pure ArgumentForm.image] c = .ok (form, d)) :
    form = .global ∨ form = .image := by
  refine (yields_choice (Q := fun _ => True)
    (P := fun form => form = ArgumentForm.global ∨ form = ArgumentForm.image)
    ?_ c form d (fun _ _ => trivial) h).1
  simp only [List.forall_mem_cons, List.not_mem_nil, false_implies, implies_true, and_true]
  exact ⟨(yields_keyword _).bind fun _ _ => yields_pure (.inl rfl),
    (yields_keyword _).bind fun _ _ => yields_pure (.inr rfl)⟩

theorem alike_arrayStatement :
    Alike m n 1 arrayStatement arrayStatement StatementBody.unplaced := by
  refine (alike_keyword .arg).followed fun _ _ _ => ?_
  refine Alike.bind_of_gives (v := id) (Alike.weaken (alike_choice ?_)) ?_
  · exact .cons ((alike_keyword .global).followed fun _ _ _ => alike_pure rfl) <|
      .cons ((alike_keyword .image).followed fun _ _ _ => alike_pure rfl) .nil
  intro form form' ⟨c, d, hform⟩ hsame
  obtain rfl : form = form' := hsame
  refine alike_ident.weaken.bind fun dtype dtype' hdtype => alike_ident.weaken.bind
    fun name name' hname => ?_
  refine (alike_bracketedTerms alike_expression).lower.weaken.bind fun shape shape' hshape =>
    alike_pure ?_
  have hunplaced : (form shape).unplaced = (form shape').unplaced := by
    rcases arrayForm_cases hform with rfl | rfl
    · exact congrArg ArgumentForm.global hshape
    · exact congrArg ArgumentForm.image hshape
  rw [StatementBody.unplaced, StatementBody.unplaced, hunplaced, hdtype, hname]

theorem alike_integer : Alike m n 1 integer integer Prod.fst :=
  alike_take (fun _ => rfl) fun t _ _ => by cases t <;> rfl

theorem alike_scalarStatement :
    Alike m n 1 scalarStatement scalarStatement StatementBody.unplaced := by
  refine (alike_keyword .arg).followed fun _ _ _ => (alike_keyword .scalar).weaken.bind fun _ _ _ =>
    alike_ident.weaken.bind fun dtype dtype' hdtype => alike_ident.weaken.bind
      fun name name' hname => ?_
  refine (alike_symbol .tilde).weaken.bind fun _ _ _ => ?_
  refine alike_integer.weaken.bind fun ⟨value, s⟩ ⟨value', s'⟩ hvalue => alike_pure ?_
  obtain rfl : value = value' := hvalue
  exact congrArg₂ (StatementBody.arg (.scalar value .nowhere)) hdtype hname

theorem alike_tempStatement : Alike m n 1 tempStatement tempStatement StatementBody.unplaced := by
  refine (alike_keyword .temp).followed fun _ _ _ =>
    alike_ident.weaken.bind fun dtype dtype' hdtype => alike_ident.weaken.bind
      fun name name' hname => ?_
  refine (alike_bracketedTerms alike_expression).lower.weaken.bind fun shape shape' hshape =>
    alike_pure ?_
  rw [StatementBody.unplaced, StatementBody.unplaced, hdtype, hname, hshape]

/-- Where an unknown tag ends the parse, it does so in both runs. -/
theorem alike_namedTag : Alike m n 1 namedTag namedTag id := by
  intro c c' hc hc' halike
  have hident := alike_ident (m := m) (n := n) c c' hc hc' halike
  change Outcome _ _ _ _ (ident c >>= _) (ident c' >>= _)
  generalize ident c = r at hident ⊢
  generalize ident c' = r' at hident ⊢
  cases hident with
  | @ok id id' d d' hview halike hle hle' =>
    have hname : id.name = id'.name := by simpa [Ident.unplaced] using hview
    dsimp only [bind, Except.bind]
    rw [hname]
    cases IndexTag.parse? id'.name with
    | some tag => exact .ok rfl halike hle hle'
    | none =>
      exact .unknownTag (List.ne_nil_of_length_pos (by omega))
        (List.ne_nil_of_length_pos (by omega))
  | mismatch => exact .mismatch
  | unknownTag hrest hrest' => exact .unknownTag hrest hrest'

theorem alike_tagValue : Alike m n 1 tagValue tagValue id :=
  (alike_take (fun _ => rfl) fun t _ _ => by cases t <;> rfl).orElse alike_namedTag

theorem alike_tagEntry : Alike m n 1 tagEntry tagEntry TagEntry.unplaced := by
  refine Alike.placed (v := Prod.map Ident.unplaced id) ?_ ?_
  · exact alike_ident.followed fun _ _ hname => (alike_symbol .assign).weaken.bind fun _ _ _ =>
      alike_tagValue.weaken.bind fun _ _ htag => alike_pure (congrArg₂ Prod.mk hname htag)
  · rintro ⟨iname, tag⟩ ⟨iname', tag'⟩ s s' hview
    obtain ⟨hname, htag⟩ := Prod.mk.inj hview
    exact congrArg₂ (TagEntry.mk · · .nowhere) hname htag

theorem alike_tagStatement : Alike m n 1 tagStatement tagStatement StatementBody.unplaced :=
  (alike_keyword .tag).followed fun _ _ _ =>
    (alike_tagEntry.separated1 alike_comma).weaken.bind fun _ _ hentries =>
      alike_pure (congrArg StatementBody.tag hentries)

theorem alike_assignee : Alike m n 1 assignee assignee Term.unplaced := by
  refine Alike.followed (Alike.spanned
    (v := Prod.map Ident.unplaced (Option.map (List.map Term.unplaced))) ?_) ?_
  · exact alike_ident.followed fun _ _ hname =>
      (alike_bracketedTerms alike_expression).lower.weaken.optional.bind fun _ _ hindex =>
        alike_pure (congrArg₂ Prod.mk hname hindex)
  · rintro ⟨⟨name, index⟩, s⟩ ⟨⟨name', index'⟩, s'⟩ hview
    obtain ⟨hname, hindex⟩ := Prod.mk.inj hview
    have hvar :
        (Term.var name.span name.name).unplaced = (Term.var name'.span name'.name).unplaced :=
      congrArg (Term.var .nowhere) (congrArg Ident.name hname :)
    cases index with
    | none =>
      obtain rfl := Option.map_eq_none_iff.mp hindex.symm
      exact alike_pure hvar
    | some index =>
      obtain ⟨index', rfl, hsame⟩ := Option.map_eq_some_iff.mp hindex.symm
      refine alike_pure ?_
      rw [Term.unplaced, Term.unplaced, Term.allUnplaced_eq_map, Term.allUnplaced_eq_map, hname,
        hsame]

theorem alike_nameList (k : Keyword) :
    Alike m n 0 (nameList k) (nameList k) (List.map Ident.unplaced) := by
  refine Alike.bind (Alike.optional (v := List.map Ident.unplaced) ?_)
    fun names names' hnames => alike_pure ?_
  · exact ((alike_keyword k).followed fun _ _ _ =>
      (alike_ident.separated alike_comma).between.lower.weaken).weaken
  · cases names <;> cases names' <;> first | rfl | exact Option.some.inj hnames | cases hnames

theorem alike_insnStatement :
    Alike m n 1 insnStatement insnStatement StatementBody.unplaced := by
  refine (alike_keyword .insn).followed fun _ _ _ => ?_
  refine Alike.bind (Alike.optional (v := Ident.unplaced) ?_) fun id id' hid => ?_
  · exact (alike_ident.followed fun _ _ hname => (alike_symbol .colon).weaken.bind fun _ _ _ =>
      alike_pure hname).weaken
  refine alike_assignee.weaken.bind fun target target' htarget => ?_
  refine (alike_symbol .assign).weaken.bind fun _ _ _ => ?_
  refine alike_expression.weaken.bind fun term term' hterm => ?_
  refine (alike_nameList .deps).bind fun deps deps' hdeps => ?_
  refine (alike_nameList .inames).bind fun inames inames' hinames => alike_pure ?_
  rw [StatementBody.unplaced, StatementBody.unplaced, InsnStatement.unplaced,
    InsnStatement.unplaced, hid, htarget, hterm, hdeps, hinames]

theorem alike_statement : Alike m n 1 statement statement Statement.unplaced := by
  refine Alike.placed (v := StatementBody.unplaced) ?_ fun body body' s s' h =>
    congrArg (Statement.mk · .nowhere) h
  exact alike_choice <| .cons alike_kernelStatement <| .cons alike_setStatement <|
    .cons alike_domainStatement <| .cons alike_arrayStatement <| .cons alike_scalarStatement <|
    .cons alike_tempStatement <| .cons alike_tagStatement <| .cons alike_insnStatement .nil

/-! ## Sources -/

/-- After all statements there is nothing but line ends, in both runs or in none. -/
theorem alike_end {found found' : List Statement}
    (h : found.map Statement.unplaced = found'.map Statement.unplaced) :
    Alike m n 0 (do let _ ← many (token .newline); atEnd; pure found)
      (do let _ ← many (token .newline); atEnd; pure found') (List.map Statement.unplaced) := by
  intro c c' _ _ halike
  obtain ⟨spans, last, hrun⟩ := many_newline c
  obtain ⟨spans', last', hrun'⟩ := many_newline c'
  have hskipped := halike.skipLines last last'
  rw [bind_of_ok hrun, bind_of_ok hrun']
  rcases hskipped.fronts with ⟨hend, hend'⟩ | ⟨l, l', rest, rest', hrest, hrest', -⟩
  · rw [Cursor.skipLines_eq_nil hend, Cursor.skipLines_eq_nil hend']
    exact .ok h rfl (Nat.zero_le _) (Nat.zero_le _)
  · have hrest : c.skipLines = l :: rest := hrest
    have hrest' : c'.skipLines = l' :: rest' := hrest'
    rw [hrest, hrest']
    exact .mismatch

/-- Statements from tokens that are alike once the line ends at the front are skipped. -/
theorem statements_alike (c c' : Cursor)
    (h : ∀ last last', Cursor.Alike ⟨last, c.skipLines⟩ ⟨last', c'.skipLines⟩) :
    Outcome (List.map Statement.unplaced) 0 c c' (statements c) (statements c') := by
  obtain ⟨spans, last, hrun⟩ := many_newline c
  obtain ⟨spans', last', hrun'⟩ := many_newline c'
  unfold statements
  rw [bind_of_ok hrun, bind_of_ok hrun']
  refine Outcome.earlier (k := 0) (j := 0) (d := ⟨last, c.skipLines⟩) (e := ⟨last', c'.skipLines⟩)
    ?_ (length_skipLines_le c) (length_skipLines_le c')
  refine Alike.bind (alike_statement.separated_of_item
    (alike_statement.onNextLine (fun _ => rfl) fun _ => rfl)) (fun _ _ hfound => alike_end hfound)
    _ _ (Nat.le_refl _) (Nat.le_refl _) (h last last')

/-- The tokens of a source without its layout: every run of line ends is taken as one, and there
are none at the front and at the end. -/
def plainTokens (source : String) : List Token :=
  tidy (((Lexer.split source).lexemes.map Lexeme.token).dropWhile endsLine)

/-- What building a kernel from statements comes to: a kernel, or the problems. -/
def builtOrProblems (statements : List Statement) (device : Device) :
    Attempt (List Diagnostic) Kernel := do
  match ← (build statements device : Checked (Noted (Option Kernel))) with
  | ⟨some kernel, []⟩ => pure kernel
  | ⟨_, problems⟩ => .fail problems

theorem builtOrProblems_unplaced (statements : List Statement) (device : Device) :
    builtOrProblems (statements.map Statement.unplaced) device =
      (builtOrProblems statements device).mapCause (List.map Diagnostic.unplaced) := by
  unfold builtOrProblems
  rw [build_unplaced]
  rcases build statements device with (_ | e) | ⟨_ | kernel, _ | ⟨d, problems⟩⟩
  · rfl
  · exact e.elim
  all_goals rfl

/-- A source without stray pieces is loaded from its statements. -/
theorem load_of_clean {source : String} (h : (Lexer.split source).strays = []) (device : Device) :
    load source device =
      match parseTokens (Lexer.split source).lexemes source.utf8ByteSize with
      | .error misfit => .fail [misfitProblem misfit]
      | .ok file => builtOrProblems file.statements device := by
  unfold load read
  dsimp only
  rw [h]
  rfl

/-- Two sources without stray pieces that have the same tokens, layout disregarded, are loaded to
the same kernel, or loading them fails for the same causes up to places. -/
theorem load_eq_of_plainTokens_eq {source source' : String}
    (hclean : (Lexer.split source).strays = []) (hclean' : (Lexer.split source').strays = [])
    (htokens : plainTokens source = plainTokens source') (device : Device) :
    (∀ k, load source device = .ok k ↔ load source' device = .ok k) ∧
      (load source device).mapCause (List.map Diagnostic.unplaced) =
        (load source' device).mapCause (List.map Diagnostic.unplaced) := by
  have hrun := statements_alike
    ⟨⟨source.utf8ByteSize, source.utf8ByteSize⟩, (Lexer.split source).lexemes⟩
    ⟨⟨source'.utf8ByteSize, source'.utf8ByteSize⟩, (Lexer.split source').lexemes⟩
    fun last last' => by
      rw [Cursor.Alike, Cursor.tokens_skipLines, Cursor.tokens_skipLines]
      exact htokens
  have hsame : (load source device).mapCause (List.map Diagnostic.unplaced) =
      (load source' device).mapCause (List.map Diagnostic.unplaced) := by
    rw [load_of_clean hclean, load_of_clean hclean']
    unfold parseTokens
    generalize statements ⟨_, (Lexer.split source).lexemes⟩ = r at hrun ⊢
    generalize statements ⟨_, (Lexer.split source').lexemes⟩ = r' at hrun ⊢
    cases hrun with
    | ok hview =>
      change (builtOrProblems _ device).mapCause _ = (builtOrProblems _ device).mapCause _
      rw [← builtOrProblems_unplaced, ← builtOrProblems_unplaced]
      exact congrArg (builtOrProblems · device) hview
    | mismatch => rfl
    | unknownTag => rfl
  refine ⟨fun k => ?_, hsame⟩
  rw [← Attempt.mapCause_eq_ok, hsame, Attempt.mapCause_eq_ok]

/-- A source that doubles an array. -/
def doubleSource : String :=
  "kernel double\ndomain [i] : 0 <= i < 16\narg global float32 a[16]\n" ++
    "arg global float32 out[16]\ninsn out[i] = 2*a[i]\n"

/-- The same with comments, empty lines and other blanks. -/
def spacedDoubleSource : String :=
  "# twice\n\n\nkernel   double # name\n\n  domain [ i ]:0<=i<16\n\targ global float32 a [16]\n" ++
    "\n# result\n\narg global float32 out[16]\r\ninsn out[i]=2 * a[ i ] # each"

/-- Both sources have the same tokens, layout disregarded, and are loaded to the same kernel. -/
theorem load_eq_of_plainTokens_eq_double :
    (Lexer.split doubleSource).strays = [] ∧ (Lexer.split spacedDoubleSource).strays = [] ∧
      plainTokens doubleSource = plainTokens spacedDoubleSource ∧
      ∃ k, load doubleSource .fermi = .ok k ∧ load spacedDoubleSource .fermi = .ok k := by
  have hclean : (Lexer.split doubleSource).strays = [] := by decide +kernel
  have hclean' : (Lexer.split spacedDoubleSource).strays = [] := by decide +kernel
  have htokens : plainTokens doubleSource = plainTokens spacedDoubleSource := by decide +kernel
  have hloads : (load doubleSource .fermi).isOk = true := by decide +kernel
  refine ⟨hclean, hclean', htokens, ?_⟩
  cases h : load doubleSource .fermi with
  | error e =>
    rw [h] at hloads
    cases hloads
  | ok k =>
    exact ⟨k, rfl, ((load_eq_of_plainTokens_eq hclean hclean' htokens .fermi).1 k).mp h⟩

end LoopKernel.Source
