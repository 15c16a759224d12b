import LoopKernel.Number.Decimal
import LoopKernel.Proofs.Source.Assignment
import Mathlib.Algebra.Ring.Int.Defs

/-!
# Writing expressions

The text of an expression tree with parentheses only where the levels of the operators need them,
and that it is read as this tree. The operands of a power are atoms, or a power on its right.
-/

namespace LoopKernel

open Lexer

namespace Source

/-! ## Texts of trees -/

/-- An operator as it is written between its operands. -/
def Operator.text : Operator → String
  | .add => " + "
  | .sub => " - "
  | .mul => "*"
  | .div => " / "
  | .floorDiv => " // "
  | .mod => " % "
  | .pow => "**"

/-- The level that the left operand of an operator needs. -/
def Operator.leftLevel : Operator → Nat
  | .pow => 5
  | op => op.level

/-- The level that the right operand of an operator needs. -/
def Operator.rightLevel : Operator → Nat
  | .pow => 4
  | op => op.level + 1

/-- The level of a tree, by the operator at its root. -/
def Term.level : Term → Nat
  | .neg _ _ => 3
  | .binary _ op _ _ => op.level
  | _ => 5

/-- The text of a tree where a level is needed. -/
def Term.enclose (t : Term) (needed : Nat) (text : String) : String :=
  if t.level < needed then "(" ++ text ++ ")" else text

/-- The text of an index bound by a reduction. -/
def BoundIndex.text (b : BoundIndex) : String :=
  if b.marked then "@" ++ b.index.name else b.index.name

/-- The text of the indices of a reduction: one alone, or a list in parentheses. -/
def boundText : List BoundIndex → String
  | [b] => b.text
  | indices => "(" ++ ", ".intercalate (indices.map BoundIndex.text) ++ ")"

mutual

/-- The text of a tree. -/
def Term.written : Term → String
  | .int _ n => toString n
  | .float _ x => x.text
  | .var _ name => name
  | .tagged _ name tag => name ++ "$" ++ tag
  | .subscript _ aggregate index =>
    aggregate.name ++ "[" ++ ", ".intercalate (Term.allWritten index) ++ "]"
  | .neg _ operand => "-" ++ operand.enclose 3 operand.written
  | .binary _ op left right =>
    left.enclose op.leftLevel left.written ++ op.text ++ right.enclose op.rightLevel right.written
  | .call _ function args => function.name ++ "(" ++ ", ".intercalate (Term.allWritten args) ++ ")"
  | .reduce _ op _ indices body =>
    op.name ++ "(" ++ boundText indices ++ ", " ++ body.written ++ ")"

/-- The texts of several trees. -/
def Term.allWritten : List Term → List String
  | [] => []
  | t :: rest => t.written :: Term.allWritten rest

end

/-- Whether a call is written like a reduction: the name of one before a variable alone and one more
argument. -/
def LooksLikeReduction (function : String) (args : List Term) : Prop :=
  ReductionKind.ofName? function ≠ none ∧ ∃ span x t, args = [.var span x, t]

mutual

/-- Whether a tree can be written: its literals are integers of a word that are not negative, its
names are names, and what needs indices has some. -/
def Term.IsWritable : Term → Prop
  | .int _ n => 0 ≤ n ∧ n < 2 ^ 63
  | .float _ _ => False
  | .var _ name => IsName name
  | .tagged _ name tag => IsName name ∧ IsName tag
  | .subscript _ aggregate index =>
    IsName aggregate.name ∧ index ≠ [] ∧ Term.AllWritable index
  | .neg _ operand => operand.IsWritable
  | .binary _ _ left right => left.IsWritable ∧ right.IsWritable
  | .call _ function args =>
    IsName function.name ∧ Term.AllWritable args ∧ ¬ LooksLikeReduction function.name args
  | .reduce _ _ _ indices body =>
    indices ≠ [] ∧ (∀ b ∈ indices, IsName b.index.name) ∧ body.IsWritable

/-- Whether several trees can be written. -/
def Term.AllWritable : List Term → Prop
  | [] => True
  | t :: rest => t.IsWritable ∧ Term.AllWritable rest

end

/-- Whether a text is read as a tree of a level at least. -/
def Writes (n : Nat) (text : String) (t : Term) : Prop :=
  Opens text.toList ∧ ∃ ts, Spells Breaks text.toList ts ∧ Derives n ts t.unplaced

variable {n m : Nat} {s text : String} {t x y : Term}

theorem Writes.of_le (h : Writes m s t) (hnm : n ≤ m) : Writes n s t := by
  obtain ⟨hopens, ts, hspells, hderives⟩ := h
  exact ⟨hopens, ts, hspells, hderives.of_le hnm⟩

/-! ## Lists of texts -/

/-- A name before something that ends it. -/
theorem spells_name_append {name : String} {cs : List Char} {ts : List Token} (h : IsName name)
    (hcs : Spells Breaks cs ts) (hbreaks : ∀ rest, Breaks (cs ++ rest)) :
    Spells Breaks (name.toList ++ cs) (.ident name :: ts) :=
  (spells_name h).append hcs fun rest _ => hbreaks rest

/-- A text that does not start with a blank. -/
def Solid (rest : List Char) : Prop := ∀ c ∈ rest.head?, isBlank c = false

theorem solid_of_opens {cs : List Char} (h : Opens cs) (rest : List Char) : Solid (cs ++ rest) :=
  (h.append rest).not_isBlank

theorem spells_comma : Spells Solid ", ".toList [.symbol .comma] :=
  (spells_open fun _ => rfl).append spells_space fun _ _ => trivial

theorem separatedBy_cons_cons (s : Symbol) (ts us : List Token) (rest : List (List Token)) :
    Parser.separatedBy s (ts :: us :: rest) =
      ts ++ .symbol s :: Parser.separatedBy s (us :: rest) := by
  simp [Parser.separatedBy]

/-- Texts with commas between them are split into their tokens with commas between them. -/
theorem spells_separatedBy {l : List (String × List Token)} (hne : l ≠ [])
    (h : ∀ i ∈ l, Spells Breaks i.1.toList i.2 ∧ ∀ rest, Solid (i.1.toList ++ rest)) :
    Spells Breaks (", ".intercalate (l.map Prod.fst)).toList
      (Parser.separatedBy .comma (l.map Prod.snd)) ∧
      ∀ rest, Solid ((", ".intercalate (l.map Prod.fst)).toList ++ rest) := by
  induction l with
  | nil => exact absurd rfl hne
  | cons i l ih =>
    rw [List.forall_mem_cons] at h
    obtain ⟨⟨hspells, hsolid⟩, hparts⟩ := h
    cases l with
    | nil => simpa [Parser.separatedBy] using ⟨hspells, hsolid⟩
    | cons j l =>
      obtain ⟨hrest, hrestSolid⟩ := ih (List.cons_ne_nil _ _) hparts
      simp only [List.map_cons, String.intercalate_cons_cons, separatedBy_cons_cons,
        String.toList_append, List.append_assoc] at hrest hrestSolid ⊢
      refine ⟨hspells.append (spells_comma.append hrest fun rest _ => hrestSolid rest)
        fun rest _ c hc => ?_, fun rest => hsolid _⟩
      cases hc
      decide

/-! ## Operators -/

theorem Writes.paren (h : Writes 1 s t) : Writes 5 ("(" ++ s ++ ")") t := by
  obtain ⟨-, ts, hspells, hderives⟩ := h
  refine ⟨⟨'(', by simp, by simp⟩, _, ?_, .paren hderives⟩
  rw [String.toList_append, String.toList_append, List.append_assoc]
  exact spells_parens hspells

theorem one_le_level (t : Term) : 1 ≤ t.level := by
  cases t with
  | neg => exact (by decide : 1 ≤ 3)
  | binary _ op => exact (by cases op <;> decide : 1 ≤ op.level)
  | _ => exact (by decide : 1 ≤ 5)

/-- Where more is needed, parentheses are written. -/
theorem Writes.enclose (h : Writes t.level s t) (hn : n ≤ 5) : Writes n (t.enclose n s) t := by
  unfold Term.enclose
  split
  · exact (h.of_le (one_le_level t)).paren.of_le hn
  · exact h.of_le (by omega)

theorem Writes.neg (h : Writes 3 s t) (span : Span) : Writes 3 ("-" ++ s) (.neg span t) := by
  obtain ⟨-, ts, hspells, hderives⟩ := h
  refine ⟨⟨'-', by simp, by simp⟩, _, ?_, .neg hderives⟩
  rw [String.toList_append]
  exact (spells_open fun _ => rfl).append hspells fun _ _ => trivial

theorem Operator.between_text (op : Operator) : Between op.text.toList op.symbol := by
  cases op with
  | add => exact between_plus
  | sub => exact between_minus
  | mul => exact between_star
  | div => exact between_slash
  | floorDiv => exact between_slashSlash
  | mod => exact between_percent
  | pow => exact between_starStar

theorem Writes.binary (op : Operator) (hx : Writes op.leftLevel s x)
    (hy : Writes op.rightLevel text y) (span : Span) :
    Writes op.level (s ++ op.text ++ text) (.binary span op x y) := by
  obtain ⟨hopens, ts, hs, hdx⟩ := hx
  obtain ⟨hopens', us, ht, hdy⟩ := hy
  have hjoin : (Term.binary span op x y).unplaced = join op x.unplaced y.unplaced := by
    rw [join, Term.span_unplaced, Term.span_unplaced]
    rfl
  refine ⟨?_, _, spells_between hs ht hopens' op.between_text, ?_⟩
  · rw [String.toList_append, String.toList_append, List.append_assoc]
    exact hopens.append _
  · rw [hjoin]
    cases op with
    | pow => exact .power hdx hdy
    | _ => exact .join _ (by decide) hdx hdy

/-! ## Leaves -/

theorem writes_int {k : Nat} (h : k < 2 ^ 63) (span : Span) :
    Writes 5 (toString (k : Int)) (.int span k) :=
  ⟨opens_toString k, _, spells_nat h, .int k⟩

theorem writes_var {name : String} (h : IsName name) (span : Span) :
    Writes 5 name (.var span name) :=
  ⟨opens_of_isName h, _, spells_name h, .var name⟩

theorem writes_tagged {name tag : String} (hname : IsName name) (htag : IsName tag) (span : Span) :
    Writes 5 (name ++ "$" ++ tag) (.tagged span name tag) := by
  rw [Writes, String.toList_append, String.toList_append, List.append_assoc]
  refine ⟨(opens_of_isName hname).append _, _, spells_name_append hname
    ((spells_open fun _ => rfl).append (spells_name htag) fun _ _ => trivial) fun rest c hc => ?_,
    .tagged name tag⟩
  cases hc
  decide

/-! ## Lists and reductions -/

theorem spells_boundIndex {b : BoundIndex} (h : IsName b.index.name) :
    Spells Breaks b.text.toList b.tokens ∧ ∀ rest, Solid (b.text.toList ++ rest) := by
  unfold BoundIndex.text BoundIndex.tokens
  split
  · rw [String.toList_append]
    refine ⟨(spells_open fun _ => rfl).append (spells_name h) fun _ _ => trivial,
      fun rest c hc => ?_⟩
    cases hc
    decide
  · exact ⟨spells_name h, solid_of_opens (opens_of_isName h)⟩

theorem spells_boundText {indices : List BoundIndex} (hne : indices ≠ [])
    (h : ∀ b ∈ indices, IsName b.index.name) :
    Spells Breaks (boundText indices).toList (boundTokens indices) := by
  match indices with
  | [b] => exact (spells_boundIndex (h b List.mem_cons_self)).1
  | b :: b' :: rest =>
    have hlist := spells_separatedBy
      (l := (b :: b' :: rest).map fun b => (b.text, b.tokens)) (by simp)
      (List.forall_mem_map.mpr fun b hb => spells_boundIndex (h b hb))
    rw [List.map_map, List.map_map] at hlist
    rw [boundText, String.toList_append, String.toList_append, List.append_assoc]
    · exact spells_parens hlist.1
    · simp

/-- Texts of trees, their tokens and the trees without places. -/
def Lists (parts : List (String × List Token × Term)) (ts : List Term) : Prop :=
  parts.map (fun i => i.1) = Term.allWritten ts ∧
    parts.map (fun i => i.2.2) = Term.allUnplaced ts ∧
    ∀ i ∈ parts, Opens i.1.toList ∧ Spells Breaks i.1.toList i.2.1 ∧ Derives 1 i.2.1 i.2.2

variable {parts : List (String × List Token × Term)} {ts : List Term}

/-- The texts of several trees, with commas between them. -/
theorem Lists.spells (h : Lists parts ts) :
    Spells Breaks (", ".intercalate (Term.allWritten ts)).toList
      (Parser.separatedBy .comma (parts.map fun i => i.2.1)) := by
  obtain ⟨htexts, -, hparts⟩ := h
  cases parts with
  | nil =>
    rw [← htexts]
    exact fun offset rest _ => ⟨[], offset, rfl, rfl⟩
  | cons i parts =>
    have hlist := (spells_separatedBy (l := (i :: parts).map fun i => (i.1, i.2.1)) (by simp)
      (List.forall_mem_map.mpr fun j hj =>
        ⟨(hparts j hj).2.1, solid_of_opens (hparts j hj).1⟩)).1
    rw [List.map_map, List.map_map] at hlist
    rw [← htexts]
    exact hlist

theorem Lists.derives (h : Lists parts ts) :
    (∀ i ∈ parts.map fun i => i.2, Derives 1 i.1 i.2) ∧
      (parts.map fun i => i.2).map Prod.fst = (parts.map fun i => i.2.1) ∧
      (parts.map fun i => i.2).map Prod.snd = Term.allUnplaced ts := by
  obtain ⟨-, htrees, hparts⟩ := h
  refine ⟨List.forall_mem_map.mpr fun i hi => (hparts i hi).2.2, by simp, ?_⟩
  rw [← htrees, List.map_map]
  rfl

theorem writes_subscript {name : Ident} (hname : IsName name.name) (hne : ts ≠ [])
    (h : Lists parts ts) (span : Span) :
    Writes 5 (name.name ++ "[" ++ ", ".intercalate (Term.allWritten ts) ++ "]")
      (.subscript span name ts) := by
  have hspells := spells_name_append hname (spells_brackets h.spells) fun rest c hc => by
    cases hc
    decide
  obtain ⟨hparts, htokens, htrees⟩ := h.derives
  have hpartsNe : (parts.map fun i => i.2) ≠ [] := by
    intro hnil
    rw [hnil, Term.allUnplaced_eq_map] at htrees
    exact hne (List.map_eq_nil_iff.mp htrees.symm)
  have hderives := Derives.subscript name.name hpartsNe hparts
  rw [htokens, htrees] at hderives
  rw [Writes, String.toList_append, String.toList_append, String.toList_append, List.append_assoc,
    List.append_assoc]
  exact ⟨(opens_of_isName hname).append _, _, hspells, hderives⟩

theorem writes_call {function : Ident} (hname : IsName function.name)
    (hcall : ¬ LooksLikeReduction function.name ts) (h : Lists parts ts) (span : Span) :
    Writes 5 (function.name ++ "(" ++ ", ".intercalate (Term.allWritten ts) ++ ")")
      (.call span function ts) := by
  have hspells := spells_name_append hname (spells_parens h.spells) fun rest c hc => by
    cases hc
    decide
  obtain ⟨hparts, htokens, htrees⟩ := h.derives
  have hother : ReductionKind.ofName? function.name = none ∨
      ∀ x t, (parts.map fun i => i.2).map Prod.snd ≠ [.var .nowhere x, t] := by
    refine or_iff_not_imp_left.mpr fun hop x t hargs => hcall ⟨hop, ?_⟩
    rw [htrees, Term.allUnplaced_eq_map] at hargs
    obtain ⟨first, rest, rfl, hfirst, hrest⟩ := List.map_eq_cons_iff.mp hargs
    obtain ⟨second, rfl, -⟩ := List.map_eq_singleton_iff.mp hrest
    cases first with
    | var s name => exact ⟨s, name, second, rfl⟩
    | _ => cases hfirst
  have hderives := Derives.call function.name hparts hother
  rw [htokens, htrees] at hderives
  rw [Writes, String.toList_append, String.toList_append, String.toList_append, List.append_assoc,
    List.append_assoc]
  exact ⟨(opens_of_isName hname).append _, _, hspells, hderives⟩

theorem isName_reductionName (op : ReductionKind) : IsName op.name := by
  cases op <;> decide +kernel

theorem writes_reduce (op : ReductionKind) {indices : List BoundIndex} (hne : indices ≠ [])
    (hindices : ∀ b ∈ indices, IsName b.index.name) (h : Writes 1 s t) (span opSpan : Span) :
    Writes 5 (op.name ++ "(" ++ boundText indices ++ ", " ++ s ++ ")")
      (.reduce span op opSpan indices t) := by
  obtain ⟨hopens, ts, hs, hderives⟩ := h
  have hinner : Spells Breaks (boundText indices ++ ", " ++ s).toList
      (boundTokens indices ++ .symbol .comma :: ts) := by
    rw [String.toList_append, String.toList_append, List.append_assoc]
    refine (spells_boundText hne hindices).append
      (spells_comma.append hs fun rest _ => solid_of_opens hopens rest) fun rest _ c hc => ?_
    cases hc
    decide
  have hspells := spells_name_append (isName_reductionName op) (spells_parens hinner)
    fun rest c hc => by
      cases hc
      decide
  have hall := Derives.reduce op hne hderives
  rw [List.append_assoc, List.cons_append] at hspells
  refine ⟨?_, _, ?_, hall⟩
  · simp only [String.toList_append, List.append_assoc]
    exact (opens_of_isName (isName_reductionName op)).append _
  · simpa [String.toList_append, List.append_assoc] using hspells

/-! ## Trees are read back -/

mutual

/-- The text of a tree that can be written is read as this tree. -/
theorem Term.writes_written : (t : Term) → t.IsWritable → Writes t.level t.written t
  | .int span n, h => by
    obtain ⟨k, rfl⟩ := Int.eq_ofNat_of_zero_le h.1
    exact writes_int (by exact_mod_cast h.2) span
  | .float _ _, h => h.elim
  | .var span name, h => writes_var h span
  | .tagged span name tag, h => writes_tagged h.1 h.2 span
  | .subscript span name index, h => by
    obtain ⟨hname, hne, hindex⟩ := h
    obtain ⟨parts, hparts⟩ := Term.exists_lists index hindex
    exact writes_subscript hname hne hparts span
  | .neg span operand, h => (operand.writes_written h).enclose (by decide) |>.neg span
  | .binary span op left right, h =>
    .binary op ((left.writes_written h.1).enclose (by cases op <;> decide))
      ((right.writes_written h.2).enclose (by cases op <;> decide)) span
  | .call span function args, h => by
    obtain ⟨hname, hargs, hcall⟩ := h
    obtain ⟨parts, hparts⟩ := Term.exists_lists args hargs
    exact writes_call hname hcall hparts span
  | .reduce span op opSpan indices body, h =>
    writes_reduce op h.1 h.2.1 ((body.writes_written h.2.2).of_le (one_le_level body)) span opSpan

theorem Term.exists_lists : (ts : List Term) → Term.AllWritable ts → ∃ parts, Lists parts ts
  | [], _ => ⟨[], rfl, rfl, by simp⟩
  | t :: rest, h => by
    obtain ⟨parts, htexts, htrees, hparts⟩ := Term.exists_lists rest h.2
    obtain ⟨hopens, ts, hspells, hderives⟩ :=
      (t.writes_written h.1).of_le (one_le_level t)
    refine ⟨(t.written, ts, t.unplaced) :: parts, ?_, ?_, List.forall_mem_cons.mpr
      ⟨⟨hopens, hspells, hderives⟩, hparts⟩⟩
    · rw [List.map_cons, htexts, Term.allWritten]
    · rw [List.map_cons, htrees, Term.allUnplaced]

end

/-- The text of a tree that can be written is read without a problem on the right side of an
assignment, and what is read is this tree up to places. -/
theorem written_reads_back {t : Term} (h : t.IsWritable) {target : String}
    (htarget : IsName target) : ∃ t', ReadsAs target t.written t' ∧ t'.unplaced = t.unplaced := by
  obtain ⟨hopens, ts, hspells, hderives⟩ := (t.writes_written h).of_le (one_le_level t)
  exact exists_readsAs htarget hopens hspells hderives

/-- A reduction over a power, an array element and a call. -/
def weightedSum : Term :=
  let index : Ident := ⟨"i", .nowhere⟩
  let copied : Ident := ⟨"j", .nowhere⟩
  let power : Term := join .pow (.var .nowhere "x") (join .pow (.int .nowhere 2) (.int .nowhere 3))
  let element : Term := .subscript .nowhere ⟨"a", .nowhere⟩
    [.var .nowhere "i", join .add (.var .nowhere "j") (.int .nowhere 1)]
  let half : Term := join .div (join .add (.var .nowhere "n") (.int .nowhere 1)) (.int .nowhere 2)
  .reduce .nowhere .sum .nowhere [⟨index, false⟩, ⟨copied, true⟩]
    (join .sub (join .mul (.neg .nowhere power) element)
      (.call .nowhere ⟨"max", .nowhere⟩ [.tagged .nowhere "y" "t", half]))

/-- The weighted sum is written with one pair of parentheses around operands, and read back. -/
theorem written_reads_back_weightedSum :
    weightedSum.IsWritable ∧ IsName "out" ∧
      weightedSum.written = "sum((i, @j), -x**2**3*a[i, j + 1] - max(y$t, (n + 1) / 2))" ∧
      ∃ t', ReadsAs "out" weightedSum.written t' ∧ t'.unplaced = weightedSum.unplaced := by
  have hwritable : weightedSum.IsWritable := by
    have hnames : ∀ name ∈ ["x", "a", "i", "j", "max", "y", "t", "n"], IsName name := by
      decide +kernel
    simp [weightedSum, join, Term.IsWritable, Term.AllWritable, LooksLikeReduction, hnames]
  have hname : IsName "out" := by decide +kernel
  exact ⟨hwritable, hname, by decide +kernel, written_reads_back hwritable hname⟩

end Source

end LoopKernel
