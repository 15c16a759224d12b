import LoopKernel.Proofs.Source.Places
import LoopKernel.Proofs.Source.Reads

/-!
# Derivations of expressions

Which tree a list of tokens stands for, as derivations of a grammar without places, and that the
parser finds what is derived. The parser tries reductions before calls, so a call that looks like a
reduction is not derived.
-/

namespace LoopKernel

/-- How tightly a symbol binds to what is before it. -/
def Symbol.binding : Symbol → Nat
  | .leftParen | .leftBracket | .dollar => 5
  | .starStar => 4
  | .star | .slash | .slashSlash | .percent => 2
  | .plus | .minus => 1
  | _ => 0

namespace Source

open Source.Parser

/-! ## The grammar -/

/-- The symbol of an operator. -/
def Operator.symbol : Operator → Symbol
  | .add => .plus
  | .sub => .minus
  | .mul => .star
  | .div => .slash
  | .floorDiv => .slashSlash
  | .mod => .percent
  | .pow => .starStar

/-- How tightly an operator binds. -/
def Operator.level : Operator → Nat
  | .add | .sub => 1
  | .mul | .div | .floorDiv | .mod => 2
  | .pow => 4

/-- The tokens of an index bound by a reduction. -/
def BoundIndex.tokens (b : BoundIndex) : List Token :=
  if b.marked then [.symbol .at, .ident b.index.name] else [.ident b.index.name]

/-- The tokens of the indices of a reduction: one alone, or a list in parentheses. -/
def boundTokens : List BoundIndex → List Token
  | [b] => b.tokens
  | indices => .symbol .leftParen ::
      (separatedBy .comma (indices.map BoundIndex.tokens) ++ [.symbol .rightParen])

/-- The tokens of an expression of a level at least, from sums at one to atoms at five. -/
inductive Derives : Nat → List Token → Term → Prop
  | int (n : Nat) : Derives 5 [.int n] (.int .nowhere n)
  | var (name : String) : Derives 5 [.ident name] (.var .nowhere name)
  | tagged (name tag : String) :
      Derives 5 [.ident name, .symbol .dollar, .ident tag] (.tagged .nowhere name tag)
  | subscript (name : String) {parts : List (List Token × Term)} (hne : parts ≠ [])
      (h : ∀ i ∈ parts, Derives 1 i.1 i.2) :
      Derives 5 (.ident name :: .symbol .leftBracket ::
          (separatedBy .comma (parts.map Prod.fst) ++ [.symbol .rightBracket]))
        (.subscript .nowhere ⟨name, .nowhere⟩ (parts.map Prod.snd))
  | call (function : String) {parts : List (List Token × Term)}
      (h : ∀ i ∈ parts, Derives 1 i.1 i.2)
      (hcall : ReductionKind.ofName? function = none ∨
        ∀ x t, parts.map Prod.snd ≠ [.var .nowhere x, t]) :
      Derives 5 (.ident function :: .symbol .leftParen ::
          (separatedBy .comma (parts.map Prod.fst) ++ [.symbol .rightParen]))
        (.call .nowhere ⟨function, .nowhere⟩ (parts.map Prod.snd))
  | reduce (op : ReductionKind) {indices : List BoundIndex} {ts : List Token} {t : Term}
      (hne : indices ≠ []) (h : Derives 1 ts t) :
      Derives 5 (.ident op.name :: .symbol .leftParen ::
          (boundTokens indices ++ .symbol .comma :: (ts ++ [.symbol .rightParen])))
        (.reduce .nowhere op .nowhere (indices.map BoundIndex.unplaced) t)
  | paren {ts : List Token} {t : Term} (h : Derives 1 ts t) :
      Derives 5 (.symbol .leftParen :: (ts ++ [.symbol .rightParen])) t
  | power {ts us : List Token} {x y : Term} (hx : Derives 5 ts x) (hy : Derives 4 us y) :
      Derives 4 (ts ++ .symbol .starStar :: us) (join .pow x y)
  | neg {ts : List Token} {t : Term} (h : Derives 3 ts t) :
      Derives 3 (.symbol .minus :: ts) (.neg .nowhere t)
  | join {ts us : List Token} {x y : Term} (op : Operator) (hop : op ≠ .pow)
      (hx : Derives op.level ts x) (hy : Derives (op.level + 1) us y) :
      Derives op.level (ts ++ .symbol op.symbol :: us) (join op x y)
  | weaken {n : Nat} {ts : List Token} {t : Term} (h : Derives (n + 1) ts t) : Derives n ts t

variable {n m : Nat} {ts us : List Token} {t x y : Term}

theorem Derives.of_le (h : Derives m ts t) (hnm : n ≤ m) : Derives n ts t := by
  induction hnm with
  | refl => exact h
  | step _ ih => exact ih h.weaken

/-- What is derived at the level of powers starts without a sign. -/
theorem Derives.exists_cons (h : Derives n ts t) :
    ∃ t₀ rest, ts = t₀ :: rest ∧ (4 ≤ n → t₀ ≠ .symbol .minus) := by
  induction h with
  | int | var | tagged | subscript | call | reduce | paren => exact ⟨_, _, rfl, nofun⟩
  | neg => exact ⟨_, _, rfl, by decide⟩
  | power _ _ ih _ =>
    obtain ⟨t₀, rest, rfl, ht⟩ := ih
    exact ⟨t₀, _, rfl, fun _ => ht (by decide)⟩
  | join op hop _ _ ih _ =>
    obtain ⟨t₀, rest, rfl, -⟩ := ih
    refine ⟨t₀, _, rfl, fun hlevel => ?_⟩
    cases op with
    | pow => exact absurd rfl hop
    | _ => exact absurd hlevel (by decide)
  | weaken _ ih =>
    obtain ⟨t₀, rest, hts, ht⟩ := ih
    exact ⟨t₀, rest, hts, fun hn => ht (by omega)⟩

/-! ## What follows an expression -/

/-- Whether what follows does not take the end of an expression of a level as its operand. -/
def Ends (n : Nat) (rest : List Token) : Prop :=
  ∀ s, rest.head? = some (.symbol s) → s.binding < n

theorem Ends.mono {rest : List Token} (h : Ends n rest) (hnm : n ≤ m) : Ends m rest :=
  fun s hs => Nat.lt_of_lt_of_le (h s hs) hnm

theorem ends_cons {s : Symbol} (h : s.binding < n) (rest : List Token) :
    Ends n (.symbol s :: rest) := by
  rintro s' ⟨⟩
  exact h

theorem not_ends_cons {s : Symbol} (h : n ≤ s.binding) (rest : List Token) :
    ¬ Ends n (.symbol s :: rest) := fun hends => absurd (hends s rfl) (by omega)

theorem Operator.binding_symbol (op : Operator) : op.symbol.binding = op.level := by
  cases op <;> rfl

/-- Whether a parser reads a list of tokens as a tree, where the tokens that follow end an
expression of its level. -/
def Parses (p : Parser Term) (n : Nat) (ts : List Token) (t : Term) : Prop :=
  Reads p Term.unplaced (Ends n) ts t

variable {expr : Parser Term} {F : List Token → Prop}

/-! ## Names, and what may follow them -/

theorem reads_ident (name : String) :
    Reads ident Ident.unplaced F [.ident name] ⟨name, .nowhere⟩ :=
  reads_take fun s => ⟨⟨name, s⟩, rfl, rfl⟩

theorem fails_ident (h : ∀ name, t₀ ≠ Token.ident name) : Fails ident F (t₀ :: ts) := by
  refine fails_take fun s => ?_
  cases t₀ <;> first | rfl | exact absurd rfl (h _)

theorem fails_reductionName {name : String} (h : ReductionKind.ofName? name = none) :
    Fails reductionName F (.ident name :: ts) :=
  fails_take fun s => by simp [h]

theorem reads_reductionName {name : String} {op : ReductionKind}
    (h : ReductionKind.ofName? name = some op) :
    Reads reductionName Prod.fst F [.ident name] op :=
  reads_take fun s => ⟨(op, s), by simp [h], rfl⟩

theorem fails_reduction {name : String} (h : Fails (symbol .leftParen) F us) :
    Fails (reduction expr) F (.ident name :: us) := by
  refine (Fails.spanned ?_).bind
  cases hop : ReductionKind.ofName? name with
  | none => exact (fails_reductionName hop).bind
  | some op => exact (reads_reductionName hop).cons_fails fun _ _ => h.bind

theorem fails_call {name : String} (h : Fails (symbol .leftParen) F us) :
    Fails (call expr) F (.ident name :: us) :=
  (Fails.spanned ((reads_ident name).cons_fails fun _ _ => h.bind.bind)).bind

theorem fails_taggedName {name : String} (h : Fails (symbol .dollar) F us) :
    Fails taggedName F (.ident name :: us) :=
  (Fails.spanned ((reads_ident name).cons_fails fun _ _ => h.bind)).bind

theorem fails_subscript {name : String} (h : Fails (symbol .leftBracket) F us) :
    Fails (subscript expr) F (.ident name :: us) :=
  (Fails.spanned ((reads_ident name).cons_fails fun _ _ => h.bind.bind)).bind

theorem fails_number_ident (name : String) : Fails number F (.ident name :: us) :=
  fails_take fun _ => rfl

/-! ## Atoms -/

/-- A number is read. -/
theorem parses_int (n : Nat) : Parses (atom expr) 5 [.int n] (.int .nowhere n) :=
  reads_choice [] (by simp) (reads_take fun s => ⟨.int s n, rfl, rfl⟩)

theorem Ident.name_of_unplaced {id : Ident} {name : String}
    (h : id.unplaced = ⟨name, .nowhere⟩) : id.name = name := congrArg Ident.name h

/-- A name is read, where nothing makes it a call, an array element or a tagged name. -/
theorem parses_var (name : String) : Parses (atom expr) 5 [.ident name] (.var .nowhere name) := by
  have hnext {s : Symbol} (hs : 5 ≤ s.binding) : Fails (symbol s) (Ends 5) [] :=
    fails_symbol_next (not_ends_cons hs)
  refine reads_choice [number, reduction expr, call expr, taggedName, subscript expr] ?_
    ((reads_ident name).map fun id hid =>
      reads_pure (congrArg (Term.var .nowhere) (Ident.name_of_unplaced hid)))
  simp only [List.forall_mem_cons, List.not_mem_nil, false_implies, implies_true, and_true]
  exact ⟨fails_number_ident name, fails_reduction (hnext (by decide)),
    fails_call (hnext (by decide)), fails_taggedName (hnext (by decide)),
    fails_subscript (hnext (by decide))⟩

/-- A tagged name is read. -/
theorem parses_tagged (name tag : String) :
    Parses (atom expr) 5 [.ident name, .symbol .dollar, .ident tag]
      (.tagged .nowhere name tag) := by
  have hdollar {s : Symbol} (hs : s ≠ .dollar) :
      Fails (symbol s) (Ends 5) [.symbol .dollar, .ident tag] :=
    fails_symbol (by simpa using hs.symm)
  have hparts : Reads (do let name ← ident; let _ ← symbol .dollar; pure (name, ← ident))
      (Prod.map Ident.unplaced Ident.unplaced) (Ends 5)
      [.ident name, .symbol .dollar, .ident tag] (⟨name, .nowhere⟩, ⟨tag, .nowhere⟩) :=
    (reads_ident name).cons fun _ hname => (reads_symbol .dollar).cons fun _ _ =>
      (reads_ident tag).map fun _ htag => reads_pure (congrArg₂ Prod.mk hname htag)
  refine reads_choice [number, reduction expr, call expr] ?_
    ((hparts.spanned (List.cons_ne_nil _ _)).map fun r hr => reads_pure ?_)
  · simp only [List.forall_mem_cons, List.not_mem_nil, false_implies, implies_true, and_true]
    exact ⟨fails_number_ident name, fails_reduction (hdollar (by decide)),
      fails_call (hdollar (by decide))⟩
  · obtain ⟨hname, htag⟩ := Prod.mk.inj hr
    exact congrArg₂ (Term.tagged .nowhere) (Ident.name_of_unplaced hname)
      (Ident.name_of_unplaced htag)

/-- An expression in parentheses is read. -/
theorem parses_paren (h : Parses expr 1 ts t) :
    Parses (atom expr) 5 (.symbol .leftParen :: (ts ++ [.symbol .rightParen])) t := by
  have hident {α : Type} {f : Ident → Parser α} :
      Fails (ident >>= f) (Ends 5) (.symbol .leftParen :: (ts ++ [.symbol .rightParen])) :=
    (fails_ident (by simp)).bind
  refine reads_choice [number, reduction expr, call expr, taggedName, subscript expr, plainName] ?_
    (reads_between h fun us => ends_cons (by decide) us)
  simp only [List.forall_mem_cons, List.not_mem_nil, false_implies, implies_true, and_true]
  exact ⟨fails_take fun _ => rfl, (fails_take fun _ => rfl).bind.spanned.bind, hident.spanned.bind,
    hident.spanned.bind, hident.spanned.bind, hident⟩

/-! ### Lists of expressions -/

variable {parts : List (List Token × Term)}

/-- Expressions with commas between them are read, up to a closing symbol. -/
theorem reads_terms {s : Symbol} (hbinding : s.binding < 1) (hne : parts ≠ [])
    (hcomma : s ≠ .comma) (h : ∀ i ∈ parts, Parses expr 1 i.1 i.2) :
    Reads (separated1 expr comma) (List.map Term.unplaced)
      (fun rest => rest.head? = some (.symbol s))
      (separatedBy .comma (parts.map Prod.fst)) (parts.map Prod.snd) := by
  refine reads_separated1 hne h (fun us => ends_cons (by decide) us) (fun rest hrest s' hs => ?_)
    fun us hus => ?_
  · rw [hrest] at hs
    cases hs
    exact hbinding
  · cases hus
    exact hcomma rfl

/-- An array element is read. -/
theorem parses_subscript (name : String) (hne : parts ≠ [])
    (h : ∀ i ∈ parts, Parses expr 1 i.1 i.2) :
    Parses (atom expr) 5 (.ident name :: .symbol .leftBracket ::
        (separatedBy .comma (parts.map Prod.fst) ++ [.symbol .rightBracket]))
      (.subscript .nowhere ⟨name, .nowhere⟩ (parts.map Prod.snd)) := by
  have hbracket {s : Symbol} {us : List Token} (hs : s ≠ .leftBracket) :
      Fails (symbol s) (Ends 5) (.symbol .leftBracket :: us) :=
    fails_symbol (by simpa using hs.symm)
  have hparts := (reads_ident name).cons (f := fun name => do
      pure (name, ← bracketedTerms expr)) (G := Ends 5)
    (w := Prod.map Ident.unplaced (List.map Term.unplaced)) fun _ hname =>
      (reads_between (reads_terms (s := .rightBracket) (by decide) hne (by decide) h)
        fun _ => rfl).map fun _ hindex => reads_pure (congrArg₂ Prod.mk hname hindex)
  refine reads_choice [number, reduction expr, call expr, taggedName] ?_
    ((hparts.spanned (List.cons_ne_nil _ _)).map fun r hr => reads_pure ?_)
  · simp only [List.forall_mem_cons, List.not_mem_nil, false_implies, implies_true, and_true]
    exact ⟨fails_number_ident name, fails_reduction (hbracket (by decide)),
      fails_call (hbracket (by decide)), fails_taggedName (hbracket (by decide))⟩
  · obtain ⟨hname, hindex⟩ := Prod.mk.inj hr
    rw [← hindex, ← Term.allUnplaced_eq_map, ← hname]
    rfl

/-! ### Calls that are no reductions -/

/-- How an expression starts, seen by a parser of the indices of a reduction. -/
inductive Front : List Token → Term → Prop
  | name (x : String) : Front [.ident x] (.var .nowhere x)
  | named {x : String} {s : Symbol} {us : List Token} {t : Term} (hs : 0 < s.binding) :
      Front (.ident x :: .symbol s :: us) t
  | paren {ts : List Token} {t : Term} (h : Front ts t) :
      Front (.symbol .leftParen :: (ts ++ [.symbol .rightParen])) t
  | parenOn {ts us : List Token} {s : Symbol} {t t' : Term} (h : Front ts t) (hs : 0 < s.binding) :
      Front (.symbol .leftParen :: (ts ++ .symbol .rightParen :: .symbol s :: us)) t'
  | other {t₀ : Token} {us : List Token} {t : Term} (hname : ∀ x, t₀ ≠ .ident x)
      (hparen : t₀ ≠ .symbol .leftParen) (hat : t₀ ≠ .symbol .at) : Front (t₀ :: us) t

/-- An operator after an expression leaves its start as it is, up to a name alone. -/
theorem Front.append (h : Front ts x) {s : Symbol} (hs : 0 < s.binding) :
    Front (ts ++ .symbol s :: us) t := by
  cases h with
  | name x => exact .named hs
  | named hs => exact .named hs
  | paren h =>
    rw [List.cons_append, List.append_assoc]
    exact .parenOn h hs
  | parenOn h hs =>
    rw [List.cons_append, List.append_assoc]
    exact .parenOn h hs
  | other hname hparen hat => exact .other hname hparen hat

/-- A name alone is the whole expression. -/
theorem Front.eq_var {x : String} (h : Front [.ident x] t) : t = .var .nowhere x := by
  cases h with
  | name => rfl
  | other hname => exact absurd rfl (hname x)

theorem Derives.front (h : Derives n ts t) : Front ts t := by
  induction h with
  | int n => exact .other (by simp) (by simp) (by simp)
  | var name => exact .name name
  | tagged | subscript | call | reduce => exact .named (by decide)
  | paren _ ih => exact .paren ih
  | power _ _ ih _ => exact ih.append (by decide)
  | neg => exact .other (by simp) (by simp) (by simp)
  | join op _ _ _ ih _ => exact ih.append (by rw [op.binding_symbol]; cases op <;> decide)
  | weaken _ ih => exact ih

/-! ### Indices of reductions -/

theorem reads_no_mark :
    Reads (optional (symbol .at)) (Option.map fun _ => ())
      (fun rest => rest.head? ≠ some (.symbol .at)) [] none :=
  Fails.optional (fails_symbol_next fun _ h => h rfl)

theorem reads_boundIndex (b : BoundIndex) :
    Reads boundIndex BoundIndex.unplaced F b.tokens b.unplaced := by
  obtain ⟨⟨name, span⟩, _ | _⟩ := b
  · refine reads_no_mark.bind (y := [.ident name]) (fun mark hmark => ?_) (by simp)
    obtain rfl := Option.map_eq_none_iff.mp hmark
    exact (reads_ident name).map fun id hid => reads_pure (congrArg (BoundIndex.mk · false) hid)
  · refine (reads_symbol .at).optional.cons fun mark hmark => ?_
    obtain ⟨_, rfl, -⟩ := Option.map_eq_some_iff.mp hmark
    exact (reads_ident name).map fun id hid => reads_pure (congrArg (BoundIndex.mk · true) hid)

/-- What is not marked and no name is no index. -/
theorem fails_boundIndex {t₀ : Token} (hname : ∀ x, t₀ ≠ .ident x) (hat : t₀ ≠ .symbol .at) :
    Fails boundIndex F (t₀ :: us) :=
  reads_no_mark.bind_fails (x := []) (fun _ _ => (fails_ident hname).bind)
    fun _ _ => by simpa using hat

theorem reads_boundList {l : List BoundIndex} (hne : l ≠ []) {s : Symbol}
    (hs : s ≠ .comma) :
    Reads (separated1 boundIndex comma) (List.map BoundIndex.unplaced)
      (fun rest => rest.head? = some (.symbol s))
      (separatedBy .comma (l.map BoundIndex.tokens)) (l.map BoundIndex.unplaced) := by
  have h := reads_separated1 (p := boundIndex) (v := BoundIndex.unplaced) (s := .comma)
    (F := anything) (G := fun rest => rest.head? = some (.symbol s))
    (l := l.map fun b => (b.tokens, b.unplaced)) (by simpa using hne)
    (List.forall_mem_map.mpr fun b _ => reads_boundIndex b) (fun _ => trivial)
    (fun _ _ => trivial) (by simpa using hs.symm)
  rwa [List.map_map, List.map_map] at h

/-- A list of indices in parentheses is read. -/
theorem reads_boundIndices_paren {l : List BoundIndex} (hne : l ≠ []) :
    Reads boundIndices (List.map BoundIndex.unplaced) F
      (.symbol .leftParen ::
        (separatedBy .comma (l.map BoundIndex.tokens) ++ [.symbol .rightParen]))
      (l.map BoundIndex.unplaced) :=
  (fails_boundIndex (by simp) (by simp)).bind.orElse_reads
    (reads_between (reads_boundList hne (by decide)) fun _ => rfl)

/-- An index alone is read. -/
theorem reads_boundIndices_single (b : BoundIndex) :
    Reads boundIndices (List.map BoundIndex.unplaced) F b.tokens [b.unplaced] :=
  Reads.orElse ((reads_boundIndex b).map fun _ hb => reads_pure (congrArg (fun b => [b]) hb))

theorem reads_boundIndices {indices : List BoundIndex} (hne : indices ≠ []) :
    Reads boundIndices (List.map BoundIndex.unplaced) F (boundTokens indices)
      (indices.map BoundIndex.unplaced) := by
  match indices with
  | [b] => exact reads_boundIndices_single b
  | b :: b' :: rest => exact reads_boundIndices_paren (List.cons_ne_nil _ _)

theorem Symbol.ne_of_binding {s s' : Symbol} (hs : 0 < s.binding) (hs' : s'.binding = 0) :
    s ≠ s' := by
  rintro rfl
  omega

/-- What is in parentheses and more than a name is no list of indices. -/
theorem fails_boundIndices_paren (h : Front ts t) (hts : ∀ x, ts ≠ [.ident x]) :
    Fails boundIndices F (.symbol .leftParen :: (ts ++ us)) := by
  have hlist {t₀ : Token} {us : List Token} (hname : ∀ x, t₀ ≠ .ident x)
      (hat : t₀ ≠ .symbol .at) :
      Fails (between .leftParen .rightParen (separated1 boundIndex comma)) F
        (.symbol .leftParen :: t₀ :: us) :=
    (reads_symbol .leftParen).cons_fails fun _ _ => (fails_boundIndex hname hat).bind.bind
  refine (fails_boundIndex (by simp) (by simp)).bind.orElse ?_
  cases h with
  | name x => exact absurd rfl (hts x)
  | @named x s us' t hs =>
    refine (reads_symbol .leftParen).cons_fails fun _ _ => ?_
    refine (reads_boundList (l := [⟨⟨x, .nowhere⟩, false⟩]) (List.cons_ne_nil _ _)
      (Symbol.ne_of_binding hs rfl)).bind_fails (x := [.ident x]) (fun _ _ => ?_) fun _ _ => rfl
    exact (fails_symbol (by simpa using Symbol.ne_of_binding hs rfl)).bind
  | paren | parenOn => exact hlist (by simp) (by simp)
  | other hname _ hat => exact hlist hname hat

/-- What a parser of the indices of a reduction makes of the start of an expression. It takes a name
alone, in parentheses or not, and a name before an operator. -/
theorem Front.indices_cases (h : Front ts t) :
    (∃ x indices, t = .var .nowhere x ∧
        Reads boundIndices (List.map BoundIndex.unplaced) anything ts indices) ∨
      (∃ us s vs indices, 0 < s.binding ∧ ts = us ++ .symbol s :: vs ∧
        Reads boundIndices (List.map BoundIndex.unplaced) anything us indices) ∨
      ∀ (F : List Token → Prop) (us : List Token), Fails boundIndices F (ts ++ us) := by
  have hsingle (x : String) : Reads boundIndices (List.map BoundIndex.unplaced) anything [.ident x]
      [BoundIndex.unplaced ⟨⟨x, .nowhere⟩, false⟩] :=
    reads_boundIndices_single ⟨⟨x, .nowhere⟩, false⟩
  have hparen (x : String) : Reads boundIndices (List.map BoundIndex.unplaced) anything
      [.symbol .leftParen, .ident x, .symbol .rightParen]
      [BoundIndex.unplaced ⟨⟨x, .nowhere⟩, false⟩] :=
    reads_boundIndices_paren (l := [⟨⟨x, .nowhere⟩, false⟩]) (List.cons_ne_nil _ _)
  cases h with
  | name x => exact .inl ⟨x, _, rfl, hsingle x⟩
  | @named x s us t hs => exact .inr (.inl ⟨[.ident x], s, us, _, hs, rfl, hsingle x⟩)
  | @paren ts t h =>
    by_cases hname : ∃ x, ts = [.ident x]
    · obtain ⟨x, rfl⟩ := hname
      exact .inl ⟨x, _, h.eq_var, hparen x⟩
    · refine .inr (.inr fun F us => ?_)
      rw [List.cons_append, List.append_assoc]
      exact fails_boundIndices_paren h fun x hx => hname ⟨x, hx⟩
  | @parenOn ts us s t t' h hs =>
    by_cases hname : ∃ x, ts = [.ident x]
    · obtain ⟨x, rfl⟩ := hname
      exact .inr (.inl ⟨_, s, us, _, hs, rfl, hparen x⟩)
    · refine .inr (.inr fun F us => ?_)
      rw [List.cons_append, List.append_assoc]
      exact fails_boundIndices_paren h fun x hx => hname ⟨x, hx⟩
  | other hname hleft hat =>
    exact .inr (.inr fun F us =>
      (fails_boundIndex hname hat).bind.orElse (fails_symbol hleft).bind)

/-- Other than one expression after the indices is no reduction. -/
theorem fails_reduction_body {γ : Type} {f : Term → Parser γ}
    (hparts : ∀ i ∈ parts, Parses expr 1 i.1 i.2) (hbody : ∀ t, parts.map Prod.snd ≠ [t]) :
    Fails (do let _ ← comma; let body ← expr; let _ ← symbol .rightParen; f body) F
      ((parts.map Prod.fst).flatMap (fun us => .symbol .comma :: us) ++ [.symbol .rightParen]) := by
  match parts with
  | [] => exact (fails_symbol (by simp)).bind
  | [i] => exact absurd rfl (hbody i.2)
  | i :: j :: parts =>
    rw [List.forall_mem_cons] at hparts
    simp only [List.map_cons, List.flatMap_cons, List.cons_append, List.append_assoc]
    exact (reads_symbol .comma).cons_fails fun _ _ => hparts.1.bind_fails
      (fun _ _ => (fails_symbol (by simp)).bind) fun _ _ => ends_cons (by decide) _

/-- No reduction starts where a call is not excluded. -/
theorem fails_reduction_call {function : String}
    (h : ∀ i ∈ parts, Front i.1 i.2 ∧ Parses expr 1 i.1 i.2)
    (hcall : ReductionKind.ofName? function = none ∨
      ∀ x t, parts.map Prod.snd ≠ [.var .nowhere x, t]) :
    Fails (reduction expr) F (.ident function :: .symbol .leftParen ::
      (separatedBy .comma (parts.map Prod.fst) ++ [.symbol .rightParen])) := by
  refine (Fails.spanned ?_).bind
  cases hop : ReductionKind.ofName? function with
  | none => exact (fails_reductionName hop).bind
  | some op =>
    have hcall := hcall.resolve_left (by simp [hop])
    refine (reads_reductionName hop).cons_fails fun _ _ =>
      (reads_symbol .leftParen).cons_fails fun _ _ => ?_
    cases parts with
    | nil =>
      exact ((fails_boundIndex (by simp) (by simp)).bind.orElse (fails_symbol (by simp)).bind).bind
    | cons i parts =>
      obtain ⟨ts, t⟩ := i
      rw [List.forall_mem_cons] at h
      obtain ⟨⟨hfront, -⟩, hparts⟩ := h
      have hbody {x : String} (ht : t = .var .nowhere x) (t' : Term) :
          parts.map Prod.snd ≠ [t'] := by
        intro hparts
        exact hcall x t' (by rw [List.map_cons, hparts, ht])
      rw [List.map_cons, separatedBy, List.append_assoc]
      rcases hfront.indices_cases with ⟨x, indices, ht, hreads⟩ |
        ⟨us, s, vs, indices, hs, rfl, hreads⟩ | hfails
      · exact hreads.bind_fails
          (fun _ _ => fails_reduction_body (fun i hi => (hparts i hi).2) (hbody ht))
          fun _ _ => trivial
      · rw [List.append_assoc]
        exact hreads.bind_fails
          (fun _ _ => (fails_symbol (by simpa using Symbol.ne_of_binding hs rfl)).bind)
          fun _ _ => trivial
      · exact (hfails _ _).bind

/-- A call is read, unless it looks like a reduction. -/
theorem parses_call (function : String) (h : ∀ i ∈ parts, Front i.1 i.2 ∧ Parses expr 1 i.1 i.2)
    (hclosed : Fails expr (fun rest => rest.head? = some (.symbol .rightParen)) [])
    (hcall : ReductionKind.ofName? function = none ∨
      ∀ x t, parts.map Prod.snd ≠ [.var .nowhere x, t]) :
    Parses (atom expr) 5 (.ident function :: .symbol .leftParen ::
        (separatedBy .comma (parts.map Prod.fst) ++ [.symbol .rightParen]))
      (.call .nowhere ⟨function, .nowhere⟩ (parts.map Prod.snd)) := by
  have hargs : Reads (separated expr comma) (List.map Term.unplaced)
      (fun rest => rest.head? = some (.symbol .rightParen))
      (separatedBy .comma (parts.map Prod.fst)) (parts.map Prod.snd) := by
    by_cases hne : parts = []
    · subst hne
      exact (Fails.optional (v := List.map Term.unplaced) hclosed.bind).map
        fun _ hnone => reads_pure (by rw [Option.map_eq_none_iff.mp hnone]; rfl)
    · refine (reads_terms (by decide) hne (by decide) fun i hi => (h i hi).2).optional.map
        fun found hfound => reads_pure ?_
      obtain ⟨args, rfl, hargs⟩ := Option.map_eq_some_iff.mp hfound
      exact hargs
  have hparts := (reads_ident function).cons (f := fun name => do
      pure (name, ← between .leftParen .rightParen (separated expr comma))) (G := Ends 5)
    (w := Prod.map Ident.unplaced (List.map Term.unplaced)) fun _ hname =>
      (reads_between hargs fun _ => rfl).map fun _ hargs =>
        reads_pure (congrArg₂ Prod.mk hname hargs)
  refine reads_choice [number, reduction expr] ?_
    ((hparts.spanned (List.cons_ne_nil _ _)).map fun r hr => reads_pure ?_)
  · simp only [List.forall_mem_cons, List.not_mem_nil, false_implies, implies_true, and_true]
    exact ⟨fails_number_ident function, fails_reduction_call h hcall⟩
  · obtain ⟨hname, hargs⟩ := Prod.mk.inj hr
    rw [← hargs, ← Term.allUnplaced_eq_map, ← hname]
    rfl

/-- A reduction is read. -/
theorem parses_reduce (op : ReductionKind) {indices : List BoundIndex} (hne : indices ≠ [])
    (h : Parses expr 1 ts t) :
    Parses (atom expr) 5 (.ident op.name :: .symbol .leftParen ::
        (boundTokens indices ++ .symbol .comma :: (ts ++ [.symbol .rightParen])))
      (.reduce .nowhere op .nowhere (indices.map BoundIndex.unplaced) t) := by
  have hop : ReductionKind.ofName? op.name = some op := by cases op <;> rfl
  have hparts : Reads (do
      let op ← reductionName
      let _ ← symbol .leftParen
      let indices ← boundIndices
      let _ ← comma
      let body ← expr
      let _ ← symbol .rightParen
      pure (op, indices, body))
      (Prod.map Prod.fst (Prod.map (List.map BoundIndex.unplaced) Term.unplaced)) (Ends 5)
      (.ident op.name :: .symbol .leftParen ::
        (boundTokens indices ++ .symbol .comma :: (ts ++ [.symbol .rightParen])))
      (op, indices.map BoundIndex.unplaced, t) := by
    refine (reads_reductionName hop).cons fun _ hop => (reads_symbol .leftParen).cons fun _ _ => ?_
    refine (reads_boundIndices (F := anything) hne).bind (fun _ hindices => ?_) fun _ _ => trivial
    refine (reads_symbol .comma).cons fun _ _ => h.bind (fun _ hbody => ?_)
      fun us _ => ends_cons (by decide) us
    exact (reads_symbol .rightParen).map fun _ _ =>
      reads_pure (congrArg₂ Prod.mk hop (congrArg₂ Prod.mk hindices hbody))
  refine reads_choice [number] (by simp [fails_number_ident])
    ((hparts.spanned (List.cons_ne_nil _ _)).map fun r hr => reads_pure ?_)
  obtain ⟨hop, hrest⟩ := Prod.mk.inj hr
  obtain ⟨hindices, hbody⟩ := Prod.mk.inj hrest
  rw [← hindices, ← hbody, ← hop]
  rfl

/-! ## Powers -/

/-- Atoms with the sign of a power between them, which group to the right. -/
def Towered (expr : Parser Term) (ts : List Token) (t : Term) : Prop :=
  ∃ hs base, ∃ items : List (List Token × Term), Parses (atom expr) 5 hs base ∧
    (∀ i ∈ items, Parses (atom expr) 5 i.1 i.2) ∧
    ts = hs ++ items.flatMap (fun i => .symbol .starStar :: i.1) ∧
    t = tower base (items.map Prod.snd)

theorem Towered.of_atom (h : Parses (atom expr) 5 ts t) : Towered expr ts t :=
  ⟨ts, t, [], h, by simp, by simp, rfl⟩

theorem Towered.power (hx : Parses (atom expr) 5 ts x) (hy : Towered expr us y) :
    Towered expr (ts ++ .symbol .starStar :: us) (join .pow x y) := by
  obtain ⟨hs, base, items, hbase, hitems, rfl, rfl⟩ := hy
  exact ⟨ts, x, (hs, base) :: items, hx, List.forall_mem_cons.mpr ⟨hbase, hitems⟩, by simp, rfl⟩

/-- A tower of powers is read. -/
theorem parses_power (h : Towered expr ts t) : Parses (power expr) 4 ts t := by
  obtain ⟨hs, base, items, hbase, hitems, rfl, rfl⟩ := h
  have hexponent : ∀ i ∈ items, Reads (do let _ ← symbol .starStar; atom expr) Term.unplaced
      (Ends 5) (.symbol .starStar :: i.1) i.2 := fun i hi =>
    (reads_symbol .starStar).cons fun _ _ => hitems i hi
  have hexponents := reads_many (G := Ends 4)
    (l := items.map fun i => (Token.symbol .starStar :: i.1, i.2))
    (List.forall_mem_map.mpr fun i hi =>
      ⟨List.cons_ne_nil _ _, hexponent i hi, fun us => ends_cons (by decide) _⟩)
    (fun _ hrest => hrest.mono (by decide)) (fails_symbol_next (not_ends_cons (by decide))).bind
  rw [List.flatMap_map, List.map_map] at hexponents
  refine Reads.bind hbase (fun base' hbase' => hexponents.map fun exponents hexponents' =>
    reads_pure ?_) fun rest hrest => ?_
  · rw [tower_unplaced, hbase', hexponents']
    rfl
  · cases items with
    | nil => exact hrest.mono (by decide)
    | cons i items => exact ends_cons (by decide) _

/-! ## Signs -/

/-- A power after minus signs. -/
def Signed (expr : Parser Term) (ts : List Token) (t : Term) : Prop :=
  ∃ count us x, Parses (power expr) 4 us x ∧ us ≠ [] ∧ us.head? ≠ some (.symbol .minus) ∧
    ts = List.replicate count (.symbol .minus) ++ us ∧
    t = (List.replicate count ()).foldr (fun _ e => .neg .nowhere e) x

theorem Signed.of_power (h : Parses (power expr) 4 ts t) (hne : ts ≠ [])
    (hhead : ts.head? ≠ some (.symbol .minus)) : Signed expr ts t :=
  ⟨0, ts, t, h, hne, hhead, rfl, rfl⟩

theorem Signed.neg (h : Signed expr ts t) :
    Signed expr (.symbol .minus :: ts) (.neg .nowhere t) := by
  obtain ⟨count, us, x, hx, hne, hhead, rfl, rfl⟩ := h
  exact ⟨count + 1, us, x, hx, hne, hhead, rfl, rfl⟩

/-- A power after minus signs is read. -/
theorem parses_unary (h : Signed expr ts t) : Parses (unary expr) 3 ts t := by
  obtain ⟨count, us, x, hx, hne, hhead, rfl, rfl⟩ := h
  have hsigns := reads_many (p := symbol .minus) (v := fun _ => ()) (F := anything)
    (G := fun rest => rest.head? ≠ some (.symbol .minus))
    (l := List.replicate count ([Token.symbol .minus], ()))
    (fun i hi => by
      obtain rfl := (List.mem_replicate.mp hi).2
      exact ⟨List.cons_ne_nil _ _, reads_symbol .minus, fun _ => trivial⟩)
    (fun _ _ => trivial) (fails_symbol_next fun _ h => h rfl)
  rw [List.map_replicate, List.flatMap_replicate, List.flatten_replicate_singleton] at hsigns
  refine hsigns.bind (fun signs hsigns' => Reads.map (Reads.mono hx fun _ hrest => hrest.mono
    (by decide)) fun operand hoperand => reads_pure ?_) fun rest _ => ?_
  · rw [foldr_neg_unplaced, hsigns', hoperand]
  · obtain ⟨t₀, us, rfl⟩ := List.exists_cons_of_ne_nil hne
    exact hhead

/-! ## Chains -/

/-- Operands of a kind with operators of a level between them, which group to the left. -/
def Chained (P : List Token → Term → Prop) (k : Nat) (ts : List Token) (t : Term) : Prop :=
  ∃ hs first, ∃ items : List (Operator × List Token × Term), P hs first ∧
    (∀ i ∈ items, i.1.level = k ∧ P i.2.1 i.2.2) ∧
    ts = hs ++ items.flatMap (fun i => .symbol i.1.symbol :: i.2.1) ∧
    t = (items.map fun i => (i.1, i.2.2)).foldl (fun left (op, right) => join op left right) first

theorem Chained.of_operand {P : List Token → Term → Prop} {k : Nat} (h : P ts t) :
    Chained P k ts t :=
  ⟨ts, t, [], h, by simp, by simp, rfl⟩

theorem Chained.join {P : List Token → Term → Prop} {op : Operator} {k : Nat}
    (hlevel : op.level = k) (hx : Chained P k ts x) (hy : P us y) :
    Chained P k (ts ++ .symbol op.symbol :: us) (join op x y) := by
  obtain ⟨hs, first, items, hfirst, hitems, rfl, rfl⟩ := hx
  refine ⟨hs, first, items ++ [(op, us, y)], hfirst, ?_, by simp, by simp⟩
  rw [List.forall_mem_append, List.forall_mem_singleton]
  exact ⟨hitems, hlevel, hy⟩

/-- A chain is read by operands and operators of its level. -/
theorem parses_leftChain {operator : Parser Operator} {operand : Parser Term} {k : Nat}
    (hop : ∀ op : Operator, op.level = k → Reads operator id anything [.symbol op.symbol] op)
    (hstop : Fails operator (Ends k) []) (h : Chained (Parses operand (k + 1)) k ts t) :
    Parses (leftChain operator operand) k ts t := by
  obtain ⟨hs, first, items, hfirst, hitems, rfl, rfl⟩ := h
  have hends {op : Operator} (hlevel : op.level = k) (us : List Token) :
      Ends (k + 1) (.symbol op.symbol :: us) :=
    ends_cons (by rw [op.binding_symbol, hlevel]; exact Nat.lt_succ_self k) us
  have hitem : ∀ i ∈ items, Reads (do pure (← operator, ← operand)) (Prod.map id Term.unplaced)
      (Ends (k + 1)) (.symbol i.1.symbol :: i.2.1) (i.1, i.2.2) := fun i hi =>
    (hop i.1 (hitems i hi).1).cons fun _ hop => Reads.map (hitems i hi).2 fun _ hright =>
      reads_pure (congrArg₂ Prod.mk hop hright)
  have hrest := reads_many (G := Ends k)
    (l := items.map fun i => (Token.symbol i.1.symbol :: i.2.1, (i.1, i.2.2)))
    (List.forall_mem_map.mpr fun i hi =>
      ⟨List.cons_ne_nil _ _, hitem i hi, fun us => hends (hitems i hi).1 _⟩)
    (fun _ hrest => hrest.mono (Nat.le_succ k)) hstop.bind
  rw [List.flatMap_map, List.map_map] at hrest
  refine Reads.bind hfirst (fun first' hfirst' => hrest.map fun rest hrest' => reads_pure ?_)
    fun rest hends' => ?_
  · rw [foldl_join_unplaced, hfirst', hrest']
    rfl
  · cases items with
    | nil => exact hends'.mono (Nat.le_succ k)
    | cons i items => exact hends (hitems i List.mem_cons_self).1 _

/-! ## Derivations are found -/

theorem parses_product (h : Chained (Parses (unary expr) 3) 2 ts t) :
    Parses (leftChain productOperator (unary expr)) 2 ts t := by
  refine parses_leftChain (fun op hlevel => reads_take fun s => ⟨op, ?_, rfl⟩)
    (fails_take_next fun t us s hends => ?_) h
  · cases op with
    | add | sub | pow => cases hlevel
    | _ => rfl
  · split
    case h_5 => rfl
    all_goals exact absurd hends (not_ends_cons (by decide) us)

theorem parses_sum (h : Chained (Parses (leftChain productOperator (unary expr)) 2) 1 ts t) :
    Parses (sum expr) 1 ts t := by
  refine parses_leftChain (fun op hlevel => reads_take fun s => ⟨op, ?_, rfl⟩)
    (fails_take_next fun t us s hends => ?_) h
  · cases op with
    | add | sub => rfl
    | _ => cases hlevel
  · split
    case h_3 => rfl
    all_goals exact absurd hends (not_ends_cons (by decide) us)

/-- What is known of a derivation at a level, in the form in which it can be extended. -/
def Understood (expr : Parser Term) : Nat → List Token → Term → Prop
  | 0 | 1 => Chained (Parses (leftChain productOperator (unary expr)) 2) 1
  | 2 => Chained (Parses (unary expr) 3) 2
  | 3 => Signed expr
  | 4 => Towered expr
  | _ => Parses (atom expr) 5

/-- No expression starts at a closing parenthesis. -/
theorem fails_expressionWithin (limit : List Lexeme) :
    Fails (expressionWithin limit) (fun rest => rest.head? = some (.symbol .rightParen)) [] := by
  intro lexemes rest last hlexemes hrest
  obtain rfl := List.map_eq_nil_iff.mp hlexemes
  cases limit with
  | nil => rfl
  | cons _ limit =>
    cases rest with
    | nil => cases hrest
    | cons l rest =>
      obtain ⟨t, span⟩ := l
      obtain rfl : t = .symbol .rightParen := Option.some.inj hrest
      rfl

theorem length_le_separatedBy {s : Symbol} {parts : List (List Token)} (h : ts ∈ parts) :
    ts.length ≤ (separatedBy s parts).length := by
  cases parts with
  | nil => cases h
  | cons us parts =>
    rw [separatedBy, List.length_append]
    rcases List.mem_cons.mp h with rfl | h
    · exact Nat.le_add_right _ _
    · have hsublist := List.sublist_flatten_of_mem
        (List.mem_map_of_mem (f := fun us => Token.symbol s :: us) h)
      rw [← List.flatMap_def] at hsublist
      have hle := hsublist.length_le
      rw [List.length_cons] at hle
      omega

/-- A derivation with few enough tokens is understood. -/
theorem Derives.understood (h : Derives n ts t) :
    ∀ limit : List Lexeme, ts.length ≤ limit.length + 1 →
      Understood (expressionWithin limit) n ts t := by
  -- What stands inside of brackets is read with a limit that is smaller by one, and it has at
  -- least two tokens less than the whole.
  have hinner {m : Nat} {us : List Token} {y : Term} (hlt : us.length + 1 < m)
      (ih : ∀ limit : List Lexeme, us.length ≤ limit.length + 1 →
        Understood (expressionWithin limit) 1 us y) (limit : List Lexeme)
      (hlimit : m ≤ limit.length + 1) : Parses (expressionWithin limit) 1 us y := by
    cases limit with
    | nil =>
      rw [List.length_nil] at hlimit
      omega
    | cons l limit =>
      rw [List.length_cons] at hlimit
      exact parses_sum (ih limit (by omega))
  induction h with
  | int n => exact fun _ _ => parses_int n
  | var name => exact fun _ _ => parses_var name
  | tagged name tag => exact fun _ _ => parses_tagged name tag
  | subscript name hne h ih =>
    intro limit hlimit
    refine parses_subscript name hne fun i hi => hinner ?_ (ih i hi) limit hlimit
    have hle := length_le_separatedBy (s := .comma) (List.mem_map_of_mem (f := Prod.fst) hi)
    simp only [List.length_cons, List.length_append]
    omega
  | call function h hcall ih =>
    intro limit hlimit
    refine parses_call function (fun i hi => ⟨(h i hi).front, hinner ?_ (ih i hi) limit hlimit⟩)
      (fails_expressionWithin limit) hcall
    have hle := length_le_separatedBy (s := .comma) (List.mem_map_of_mem (f := Prod.fst) hi)
    simp only [List.length_cons, List.length_append]
    omega
  | reduce op hne _ ih =>
    intro limit hlimit
    refine parses_reduce op hne (hinner ?_ ih limit hlimit)
    simp only [List.length_cons, List.length_append]
    omega
  | paren _ ih =>
    intro limit hlimit
    refine parses_paren (hinner ?_ ih limit hlimit)
    simp only [List.length_cons, List.length_append]
    omega
  | power _ _ ihx ihy =>
    intro limit hlimit
    rw [List.length_append, List.length_cons] at hlimit
    exact Towered.power (ihx limit (by omega)) (ihy limit (by omega))
  | neg _ ih =>
    intro limit hlimit
    rw [List.length_cons] at hlimit
    exact Signed.neg (ih limit (by omega))
  | join op hop _ _ ihx ihy =>
    intro limit hlimit
    rw [List.length_append, List.length_cons] at hlimit
    have hleft := ihx limit (by omega)
    have hright := ihy limit (by omega)
    cases op with
    | pow => exact absurd rfl hop
    | add | sub => exact Chained.join rfl hleft (parses_product hright)
    | mul | div | floorDiv | mod => exact Chained.join rfl hleft (parses_unary hright)
  | @weaken n _ _ h ih =>
    intro limit hlimit
    have hfound := ih limit hlimit
    match n with
    | 0 => exact hfound
    | 1 => exact .of_operand (parses_product hfound)
    | 2 => exact .of_operand (parses_unary hfound)
    | 3 =>
      obtain ⟨t₀, rest, rfl, ht⟩ := h.exists_cons
      exact .of_power (parses_power hfound) (List.cons_ne_nil _ _) fun hhead =>
        ht (by decide) (Option.some.inj hhead)
    | 4 => exact .of_atom hfound
    | _ + 5 => exact hfound

/-- What is derived is read as an expression. -/
theorem Derives.parses (h : Derives 1 ts t) : Parses expression 1 ts t := by
  intro lexemes rest last hlexemes hends
  obtain ⟨t₀, tokens, rfl, -⟩ := h.exists_cons
  obtain ⟨first, lexemes, rfl, hfirst, rfl⟩ := List.map_eq_cons_iff.mp hlexemes
  have hlimit : (t₀ :: lexemes.map Lexeme.token).length ≤ (lexemes ++ rest).length + 1 := by simp
  exact parses_sum (h.understood (lexemes ++ rest) hlimit) (first :: lexemes) rest last hlexemes
    hends

end Source

end LoopKernel
