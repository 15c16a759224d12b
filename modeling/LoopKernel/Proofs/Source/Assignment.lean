import LoopKernel.Proofs.Source.Derivation
import LoopKernel.Proofs.Source.Spelling

/-!
# Reading an assignment

A text that is split into the tokens of an expression is read as this expression where it stands on
the right side of an assignment to a variable.
-/

namespace LoopKernel

open Lexer

/-! ## Texts between operands -/

/-- Texts of operands with the text of a symbol between them. -/
theorem spells_between {s t : String} {symbol : Symbol} {text : String} {ts us : List Token}
    (hs : Spells Breaks s.toList ts) (ht : Spells Breaks t.toList us) (hopens : Opens t.toList)
    (htext : Between text.toList symbol) :
    Spells Breaks (s ++ text ++ t).toList (ts ++ .symbol symbol :: us) := by
  have hrest : Spells Breaks (text.toList ++ t.toList) ([.symbol symbol] ++ us) :=
    htext.spells.append ht fun rest _ => hopens.append rest
  rw [String.toList_append, String.toList_append, List.append_assoc]
  exact hs.append hrest fun rest _ => by
    rw [List.append_assoc]
    exact htext.breaks _

theorem opens_of_isName {name : String} (h : IsName name) : Opens name.toList := by
  obtain ⟨⟨c, cs, hname, hc, -⟩, -⟩ := h
  exact ⟨c, by rw [hname]; rfl, .inl hc⟩

theorem opens_toString (n : Nat) : Opens (toString n).toList := by
  have hdigits : (toString n).toList = Nat.toDigits 10 n := Nat.toList_repr
  obtain ⟨c, cs, heq⟩ := List.exists_cons_of_ne_nil (l := Nat.toDigits 10 n) Nat.toDigits_ne_nil
  have hdigit : c.isDigit = true :=
    Nat.isDigit_of_mem_toDigits (b := 10) (n := n) (by decide) (by decide) (by simp [heq])
  exact ⟨c, by rw [hdigits, heq]; rfl, .inr (.inl hdigit)⟩

theorem between_assign : Between " = ".toList .assign := by
  refine .spaced (spells_token [] fun rest hrest => ?_) fun _ _ hc => by cases hc; rfl
  cases rest with
  | nil => cases hrest
  | cons c rest =>
    cases hrest
    rfl

namespace Source

open Source.Parser

variable {ts us : List Token} {t : Term} {target : String}

/-! ## One statement -/

/-- Nothing comes next. -/
def nothing : List Token → Prop := fun rest => rest = []

theorem reads_nameList (k : Keyword) :
    Reads (nameList k) (List.map Ident.unplaced) nothing [] [] := by
  have hkeyword : Fails (keyword k) nothing [] := by
    unfold keyword token
    exact fails_take_next fun _ _ _ h => nomatch h
  refine (Fails.optional (v := List.map Ident.unplaced) hkeyword.bind).map fun names hnames =>
    reads_pure ?_
  obtain rfl := Option.map_eq_none_iff.mp hnames
  rfl

/-- A name before an equals sign is a variable to assign to. -/
theorem reads_assignee (target : String) :
    Reads assignee Term.unplaced (fun rest => rest.head? = some (.symbol .assign))
      [.ident target] (.var .nowhere target) := by
  have hindex : Fails (bracketedTerms expression)
      (fun rest => rest.head? = some (.symbol .assign)) [] :=
    (fails_symbol_next (by simp)).bind
  have hparts : Reads (do
      let name ← ident
      pure (name, ← optional (bracketedTerms expression)))
      (Prod.map Ident.unplaced (Option.map (List.map Term.unplaced)))
      (fun rest => rest.head? = some (.symbol .assign)) [.ident target]
      (⟨target, .nowhere⟩, none) :=
    (reads_ident target).map fun _ hname => hindex.optional.map fun _ hnone =>
      reads_pure (congrArg₂ Prod.mk hname hnone)
  refine (hparts.spanned (List.cons_ne_nil _ _)).map fun r hr => ?_
  obtain ⟨⟨name, index⟩, span⟩ := r
  obtain ⟨hname, hnone⟩ := Prod.mk.inj hr
  obtain rfl := Option.map_eq_none_iff.mp hnone
  exact reads_pure (congrArg (Term.var .nowhere) (Ident.name_of_unplaced hname))

/-- An assignment of an expression to a variable is read. -/
theorem reads_insnStatement (target : String) (h : Derives 1 ts t) :
    Reads insnStatement StatementBody.unplaced nothing
      (.keyword .insn :: .ident target :: .symbol .assign :: ts)
      (.insn ⟨none, .var .nowhere target, t, [], []⟩) := by
  have hid : Fails (do let id ← ident; let _ ← symbol .colon; pure id)
      (fun rest => ∃ us, rest = .ident target :: .symbol .assign :: us) [] := by
    refine fails_next fun rest hrest => ?_
    obtain ⟨us, rfl⟩ := hrest
    exact (reads_ident target).cons_fails fun _ _ => (fails_symbol (by simp)).bind
  refine (reads_token _).cons fun _ _ => ?_
  refine hid.optional.bind (v := Option.map Ident.unplaced) (x := [])
    (y := .ident target :: .symbol .assign :: ts) (fun id hid => ?_) fun rest _ => ⟨_, rfl⟩
  refine (reads_assignee target).bind (x := [.ident target]) (y := .symbol .assign :: ts)
    (fun assignee hassignee => ?_) fun _ _ => rfl
  refine (reads_symbol .assign).cons fun _ _ => Reads.map (v := Term.unplaced) (a := t)
    (Reads.mono h.parses fun rest hrest s hs => ?_) fun term hterm => ?_
  · cases hrest
    cases hs
  · refine (reads_nameList .deps).map fun deps hdeps => (reads_nameList .inames).map
      fun inames hinames => reads_pure ?_
    rw [StatementBody.unplaced, InsnStatement.unplaced, hid, hassignee, hterm, hdeps, hinames]

/-- An assignment to a variable, without places. -/
def assignment (target : String) (t : Term) : Statement :=
  ⟨.insn ⟨none, .var .nowhere target, t, [], []⟩, .nowhere⟩

/-- An assignment is read as a statement. -/
private theorem reads_statement_assignment (target : String) (h : Derives 1 ts t) :
    Reads statement Statement.unplaced nothing
      (.keyword .insn :: .ident target :: .symbol .assign :: ts) (assignment target t) := by
  have hkeyword {α : Type} {f : Span → Parser α} {k : Keyword} (hk : k ≠ .insn) :
      Fails (keyword k >>= f) nothing (.keyword .insn :: .ident target :: .symbol .assign :: ts) :=
    (fails_token (by simpa using hk.symm)).bind
  refine (Reads.spanned (reads_choice [kernelStatement, setStatement, domainStatement,
    arrayStatement, scalarStatement, tempStatement, tagStatement] ?_
    (reads_insnStatement target h)) (List.cons_ne_nil _ _)).map fun r hr =>
      reads_pure (congrArg (Statement.mk · .nowhere) hr)
  simp only [List.forall_mem_cons, List.not_mem_nil, false_implies, implies_true, and_true]
  exact ⟨hkeyword (by decide), hkeyword (by decide), hkeyword (by decide), hkeyword (by decide),
    hkeyword (by decide), hkeyword (by decide), hkeyword (by decide)⟩

private theorem fails_newline {F : List Token → Prop} (hF : ∀ us, ¬ F (.newline :: us)) :
    Fails (token .newline) F [] := by
  unfold token
  refine fails_take_next fun t us _ hrest => if_neg ?_
  rintro rfl
  exact hF us hrest

private theorem reads_atEnd : Reads atEnd (fun _ => ()) nothing [] () := by
  intro lexemes rest last hlexemes hrest
  obtain rfl := List.map_eq_nil_iff.mp hlexemes
  obtain rfl := List.map_eq_nil_iff.mp hrest
  exact ⟨(), last, rfl, rfl⟩

/-- A source that is one such assignment is read. -/
theorem reads_statements (target : String) (h : Derives 1 ts t) :
    Reads statements (List.map Statement.unplaced) nothing
      (.keyword .insn :: .ident target :: .symbol .assign :: ts)
      [assignment target t] := by
  have hone : Reads (separated1 statement (many1 (token .newline))) (List.map Statement.unplaced)
      nothing (.keyword .insn :: .ident target :: .symbol .assign :: ts) [assignment target t] :=
    (reads_statement_assignment target h).map fun first hfirst =>
      (Fails.many (fails_newline fun us => List.cons_ne_nil _ us).bind.bind).map
        fun rest hrest => reads_pure (congrArg₂ List.cons hfirst hrest)
  have hfound : Reads (separated statement (many1 (token .newline))) (List.map Statement.unplaced)
      nothing (.keyword .insn :: .ident target :: .symbol .assign :: ts) [assignment target t] := by
    refine hone.optional.map fun found hfound => ?_
    obtain ⟨statements, rfl, hstatements⟩ := Option.map_eq_some_iff.mp hfound
    exact reads_pure hstatements
  -- There are no empty lines before the statement or after it.
  refine (Fails.many (v := fun _ => ()) (fails_newline (F := fun rest => rest.head? ≠ some .newline)
    fun us h => h rfl)).bind (x := []) (fun _ _ => hfound.map fun found hfound => ?_) fun _ _ => by
      simp
  exact (Fails.many (v := fun _ => ()) (fails_newline fun us => List.cons_ne_nil _ us)).map
    fun _ _ => reads_atEnd.map fun _ _ => reads_pure hfound

/-! ## One source -/

/-- Whether a text on the right side of an assignment to a variable is read without a problem as a
tree. -/
def ReadsAs (target text : String) (t : Term) : Prop :=
  (read ("insn " ++ target ++ " = " ++ text)).strays = [] ∧
    ∃ file place span, (read ("insn " ++ target ++ " = " ++ text)).file = .ok file ∧
      file.statements = [⟨.insn ⟨none, .var place target, t, [], []⟩, span⟩]

/-- A statement that is an assignment up to places is an assignment. -/
theorem exists_of_unplaced {s : Statement}
    (h : s.unplaced = assignment target t) :
    ∃ place t' span, s = ⟨.insn ⟨none, .var place target, t', [], []⟩, span⟩ ∧ t'.unplaced = t := by
  obtain ⟨body, span⟩ := s
  have hbody : body.unplaced = .insn ⟨none, .var .nowhere target, t, [], []⟩ :=
    congrArg Statement.body h
  cases body with
  | insn statement =>
    obtain ⟨id, assignee, expression, deps, inames⟩ := statement
    simp only [StatementBody.unplaced, InsnStatement.unplaced, StatementBody.insn.injEq,
      InsnStatement.mk.injEq, Option.map_eq_none_iff, List.map_eq_nil_iff] at hbody
    obtain ⟨rfl, hassignee, rfl, rfl, rfl⟩ := hbody
    cases assignee with
    | var place name =>
      obtain rfl : name = target := by simpa [Term.unplaced] using hassignee
      exact ⟨place, expression, span, rfl, rfl⟩
    | _ => cases hassignee
  | _ => cases hbody

/-- A text that is split into the tokens of an expression is read as this expression. -/
theorem exists_readsAs {text : String} (htarget : IsName target) (hopens : Opens text.toList)
    (hspells : Spells Breaks text.toList ts) (h : Derives 1 ts t) :
    ∃ t', ReadsAs target text t' ∧ t'.unplaced = t := by
  have hinsn : Spells Breaks ['i', 'n', 's', 'n'] [.keyword .insn] := by
    refine spells_token ['n', 's', 'n'] fun rest hrest => ?_
    rw [scan_of_startsName (by decide), scanWord_append (List.all_eq_true.mp rfl) hrest]
    rfl
  have hassignment : Spells Breaks (target ++ " = " ++ text).toList
      (.ident target :: .symbol .assign :: ts) :=
    spells_between (spells_name htarget) hspells hopens between_assign
  have htargetOpens : Opens (target ++ " = " ++ text).toList := by
    rw [String.toList_append, String.toList_append, List.append_assoc]
    exact (opens_of_isName htarget).append _
  have hspace : Spells Breaks ([' '] ++ (target ++ " = " ++ text).toList)
      ([] ++ .ident target :: .symbol .assign :: ts) :=
    spells_space.append hassignment fun rest _ => (htargetOpens.append rest).not_isBlank
  have hall : Spells Breaks ("insn " ++ target ++ " = " ++ text).toList
      (.keyword .insn :: .ident target :: .symbol .assign :: ts) := by
    have hlist : ("insn " ++ target ++ " = " ++ text).toList =
        ['i', 'n', 's', 'n'] ++ ([' '] ++ (target ++ " = " ++ text).toList) := by
      simp
    rw [hlist]
    exact hinsn.append hspace fun _ _ c hc => by cases hc; decide
  obtain ⟨lexemes, stop, hlexemes, hsplit⟩ := hall 0 [] (by simp [Breaks])
  rw [List.append_nil, splitFrom, List.append_nil] at hsplit
  obtain ⟨found, last, hfound, hview⟩ := reads_statements target h lexemes []
    ⟨("insn " ++ target ++ " = " ++ text).utf8ByteSize,
      ("insn " ++ target ++ " = " ++ text).utf8ByteSize⟩ hlexemes rfl
  obtain ⟨s, rfl, hs⟩ := List.map_eq_singleton_iff.mp hview
  obtain ⟨place, t', span, rfl, ht'⟩ := exists_of_unplaced hs
  rw [List.append_nil] at hfound
  refine ⟨t', ⟨?_, ⟨_, extent ("insn " ++ target ++ " = " ++ text).utf8ByteSize lexemes⟩, place,
    span, ?_, rfl⟩, ht'⟩
  · simp only [read, split, hsplit]
  · simp only [read, split, hsplit, parseTokens, hfound]
    rfl

end Source

end LoopKernel
