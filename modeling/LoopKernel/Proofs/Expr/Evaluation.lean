import LoopKernel.Proofs.Expr.Range
import Mathlib.Logic.Relation

/-!
# The course of an evaluation

Evaluation goes from an expression to its parts, one after the other, and ends at the first part
without a value. Every value is a word. Evaluation overflows exactly if it comes to a division of
the least word by minus one.
-/

namespace LoopKernel.Expr

variable {env : String → Option Int} {e c p a b : Expr} {es before after : List Expr}
  {op : BinaryOp} {f : Int → Int → Int} {n total x y : Int}

/-- Whether an expression is evaluated and has a value. -/
abbrev HasValue (env : String → Option Int) (e : Expr) (n : Int) : Prop :=
  e.evalInt env = .ok (some n)

/-- An expression has at most one value. -/
theorem HasValue.unique (hx : e.HasValue env x) (hy : e.HasValue env y) : x = y := by
  rw [HasValue, hx, Except.ok.injEq, Option.some.injEq] at hy
  exact hy

theorem hasValue_int : (Expr.int x).HasValue env n ↔ n = x := by
  rw [HasValue, evalInt, Attempt.pure_eq_ok, Option.some.injEq, eq_comm]

theorem hasValue_var {name : String} : (Expr.var name).HasValue env n ↔ env name = some n := by
  rw [HasValue, evalInt, Attempt.pure_eq_ok]

mutual

/-- What holds of an expression if it holds of its parts holds of all expressions. -/
theorem induction_on_children {P : Expr → Prop} (step : ∀ e, (∀ c ∈ e.children, P c) → P e) :
    (e : Expr) → P e
  | .int n => step (.int n) fun _ h => nomatch h
  | .float x => step (.float x) fun _ h => nomatch h
  | .var name => step (.var name) fun _ h => nomatch h
  | .tagged name tag => step (.tagged name tag) fun _ h => nomatch h
  | .subscript _ index => step _ (induction_on_all_children step index)
  | .sum es => step _ (induction_on_all_children step es)
  | .product es => step _ (induction_on_all_children step es)
  | .binary _ a b => step _ (List.forall_mem_cons.mpr ⟨induction_on_children step a,
      List.forall_mem_singleton.mpr (induction_on_children step b)⟩)
  | .call _ args => step _ (induction_on_all_children step args)
  | .reduction _ _ body => step _ (List.forall_mem_singleton.mpr (induction_on_children step body))

theorem induction_on_all_children {P : Expr → Prop}
    (step : ∀ e, (∀ c ∈ e.children, P c) → P e) : (es : List Expr) → ∀ c ∈ es, P c
  | [] => fun _ h => nomatch h
  | e :: rest => List.forall_mem_cons.mpr
    ⟨induction_on_children step e, induction_on_all_children step rest⟩

end

theorem allLiteralsFit_iff : AllLiteralsFit es ↔ ∀ e ∈ es, e.LiteralsFit := by
  induction es with
  | nil => simp [AllLiteralsFit]
  | cons e rest ih => simp [AllLiteralsFit, ih]

/-! ## Sums and products -/

/-- Several values taken in one after the other by an operation whose results are words. -/
def accumulate (env : String → Option Int) (f : Int → Int → Int) (total : Int) :
    List Expr → Checked (Option Int)
  | [] => pure (some total)
  | e :: rest => do
    let some n ← e.evalInt env | pure none
    let some total := WordRange.signed64.fit? (f total n) | pure none
    accumulate env f total rest

theorem accumulate_nil : accumulate env f total [] = pure (some total) :=
  rfl

theorem accumulate_cons : accumulate env f total (e :: es) = (do
    let some n ← e.evalInt env | pure none
    let some total := WordRange.signed64.fit? (f total n) | pure none
    accumulate env f total es) :=
  rfl

/-- Nothing more is taken in. -/
theorem accumulate_nil_eq_ok : accumulate env f total [] = .ok (some n) ↔ n = total := by
  rw [accumulate_nil, Attempt.pure_eq_ok, Option.some.injEq, eq_comm]

theorem evalSum_eq_accumulate : evalSum env total es = accumulate env (· + ·) total es := by
  induction es generalizing total with
  | nil => rw [evalSum, accumulate_nil]
  | cons e rest ih =>
    rw [evalSum]
    simp only [ih]
    rfl

theorem evalProduct_eq_accumulate : evalProduct env total es = accumulate env (· * ·) total es := by
  induction es generalizing total with
  | nil => rw [evalProduct, accumulate_nil]
  | cons e rest ih =>
    rw [evalProduct]
    simp only [ih]
    rfl

/-- One more value is taken in if the result is a word. -/
theorem accumulate_cons_eq_ok : accumulate env f total (e :: es) = .ok (some n) ↔
    ∃ m, e.HasValue env m ∧ WordRange.signed64.Holds (f total m) ∧
      accumulate env f (f total m) es = .ok (some n) := by
  rw [accumulate_cons, Attempt.bind_option_eq_some (by rfl)]
  refine exists_congr fun m => and_congr_right fun _ => ?_
  dsimp only
  unfold WordRange.fit?
  by_cases hword : WordRange.signed64.Holds (f total m) <;> simp [hword]

/-- The next value is taken in safely if it is computed safely, and so is all that follows. -/
theorem safe_accumulate_cons : (accumulate env f total (e :: es)).Safe ↔
    (e.evalInt env).Safe ∧ ∀ m, e.HasValue env m → WordRange.signed64.Holds (f total m) →
      (accumulate env f (f total m) es).Safe := by
  rw [accumulate_cons, Attempt.safe_bind_option (by rfl)]
  refine and_congr_right fun _ => forall_congr' fun m => forall_congr' fun _ => ?_
  dsimp only
  unfold WordRange.fit?
  by_cases hword : WordRange.signed64.Holds (f total m) <;> simp [hword]

/-- What is taken in are values of all expressions. -/
theorem exists_values_of_accumulate (h : accumulate env f total es = .ok (some n)) :
    ∃ values, List.Forall₂ (HasValue env) es values ∧ n = values.foldl f total := by
  induction es generalizing total with
  | nil => exact ⟨[], .nil, accumulate_nil_eq_ok.mp h⟩
  | cons e rest ih =>
    obtain ⟨m, hm, -, h⟩ := accumulate_cons_eq_ok.mp h
    obtain ⟨values, hvalues, hn⟩ := ih h
    exact ⟨m :: values, .cons hm hvalues, hn⟩

/-- A total stays a word. -/
theorem holds_of_accumulate (htotal : WordRange.signed64.Holds total)
    (h : accumulate env f total es = .ok (some n)) : WordRange.signed64.Holds n := by
  induction es generalizing total with
  | nil => exact accumulate_nil_eq_ok.mp h ▸ htotal
  | cons e rest ih =>
    obtain ⟨m, -, hword, h⟩ := accumulate_cons_eq_ok.mp h
    exact ih hword h

/-- Values are taken in one part after the other. -/
theorem accumulate_append_eq_ok : accumulate env f total (before ++ after) = .ok (some n) ↔
    ∃ m, accumulate env f total before = .ok (some m) ∧
      accumulate env f m after = .ok (some n) := by
  induction before generalizing total with
  | nil => simp [accumulate_nil_eq_ok]
  | cons e rest ih =>
    rw [List.cons_append]
    simp only [accumulate_cons_eq_ok, ih]
    constructor
    · rintro ⟨x, hx, hword, m, hm, h⟩
      exact ⟨m, ⟨x, hx, hword, hm⟩, h⟩
    · rintro ⟨m, ⟨x, hx, hword, hm⟩, h⟩
      exact ⟨x, hx, hword, m, hm, h⟩

/-- Values are taken in safely exactly if each is computed safely where those before it exist. -/
theorem safe_accumulate_iff : (accumulate env f total es).Safe ↔
    ∀ before e after, es = before ++ e :: after →
      ∀ n, accumulate env f total before = .ok (some n) → (e.evalInt env).Safe := by
  induction es generalizing total with
  | nil => simp [accumulate_nil]
  | cons e rest ih =>
    rw [safe_accumulate_cons]
    constructor
    · rintro ⟨he, hrest⟩ before e' after hes n hn
      rcases before with _ | ⟨first, before⟩
      · rw [List.nil_append, List.cons.injEq] at hes
        exact hes.1 ▸ he
      · rw [List.cons_append, List.cons.injEq] at hes
        obtain ⟨rfl, hes⟩ := hes
        obtain ⟨m, hm, hword, hn⟩ := accumulate_cons_eq_ok.mp hn
        exact ih.mp (hrest m hm hword) before e' after hes n hn
    · intro h
      refine ⟨h [] e rest rfl total rfl, fun m hm hword => ih.mpr ?_⟩
      intro before e' after hes n hn
      exact h (e :: before) e' after (congrArg _ hes) n
        (accumulate_cons_eq_ok.mpr ⟨m, hm, hword, hn⟩)

/-- The value of a sum is the sum of the values of its terms. -/
theorem exists_values_of_sum (h : (Expr.sum es).HasValue env n) :
    ∃ values, List.Forall₂ (HasValue env) es values ∧ n = values.sum := by
  rw [HasValue, evalInt, evalSum_eq_accumulate] at h
  obtain ⟨values, hvalues, hn⟩ := exists_values_of_accumulate h
  exact ⟨values, hvalues, hn.trans List.sum_eq_foldl.symm⟩

/-- The value of a product is the product of the values of its factors. -/
theorem exists_values_of_product (h : (Expr.product es).HasValue env n) :
    ∃ values, List.Forall₂ (HasValue env) es values ∧ n = values.prod := by
  rw [HasValue, evalInt, evalProduct_eq_accumulate] at h
  obtain ⟨values, hvalues, hn⟩ := exists_values_of_accumulate h
  exact ⟨values, hvalues, hn.trans List.prod_eq_foldl.symm⟩

/-! ## Binary operations -/

/-- The right operand of an operation other than a quotient comes first. -/
theorem evalInt_binary (hop : op ≠ .quotient) : (Expr.binary op a b).evalInt env = (do
    let some y ← b.evalInt env | pure none
    if acceptsRight op y then
      let some x ← a.evalInt env | pure none
      applyBinary op x y
    else pure none) := by
  cases op with
  | quotient => exact absurd rfl hop
  | _ => rfl

/-- The value of a binary operation comes from the values of its operands. -/
theorem hasValue_binary_iff : (Expr.binary op a b).HasValue env n ↔
    ∃ x y, a.HasValue env x ∧ b.HasValue env y ∧ acceptsRight op y = true ∧
      applyBinary op x y = .ok (some n) := by
  unfold HasValue
  by_cases hop : op = .quotient
  · subst hop
    rw [evalInt, Attempt.bind_option_eq_some (by rfl)]
    simp only [Attempt.bind_option_eq_some, acceptsRight, true_and, exists_and_left]
  · rw [evalInt_binary hop, Attempt.bind_option_eq_some (by rfl)]
    constructor
    · rintro ⟨y, hy, h⟩
      dsimp only at h
      split at h
      · next haccepts =>
        obtain ⟨x, hx, h⟩ := (Attempt.bind_option_eq_some (by rfl)).mp h
        exact ⟨x, y, hx, hy, haccepts, h⟩
      · simp at h
    · rintro ⟨x, y, hx, hy, haccepts, h⟩
      refine ⟨y, hy, ?_⟩
      dsimp only
      rw [if_pos haccepts]
      exact (Attempt.bind_option_eq_some (by rfl)).mpr ⟨x, hx, h⟩

/-! ## The parts that are visited -/

/-- Whether the evaluation of an expression visits one of its parts, which is decided by the parts
before. -/
inductive Visits (env : String → Option Int) : Expr → Expr → Prop
  | term {before after : List Expr} {e : Expr} {total : Int}
      (h : evalSum env 0 before = .ok (some total)) : Visits env (.sum (before ++ e :: after)) e
  | factor {before after : List Expr} {e : Expr} {total : Int}
      (h : evalProduct env 1 before = .ok (some total)) :
      Visits env (.product (before ++ e :: after)) e
  | dividend {a b : Expr} : Visits env (.binary .quotient a b) a
  | divisor {a b : Expr} {x : Int} (h : a.HasValue env x) : Visits env (.binary .quotient a b) b
  | right {op : BinaryOp} {a b : Expr} (hop : op ≠ .quotient) : Visits env (.binary op a b) b
  | left {op : BinaryOp} {a b : Expr} {y : Int} (hop : op ≠ .quotient) (h : b.HasValue env y)
      (haccepts : acceptsRight op y = true) : Visits env (.binary op a b) a

/-- Whether the evaluation of an expression comes to a part of it at any depth. -/
def Reaches (env : String → Option Int) : Expr → Expr → Prop :=
  Relation.ReflTransGen (Visits env)

/-- Whether an expression is a part of another one at any depth. -/
def Contains : Expr → Expr → Prop := Relation.ReflTransGen fun e c => c ∈ e.children

theorem Visits.mem_children (h : Visits env e c) : c ∈ e.children := by
  cases h <;> simp [children]

/-- The literals of the parts of an expression fit if those of the expression do. -/
theorem LiteralsFit.of_mem_children (h : e.LiteralsFit) (hc : c ∈ e.children) : c.LiteralsFit := by
  cases e with
  | subscript _ es => exact allLiteralsFit_iff.mp h c hc
  | sum es => exact allLiteralsFit_iff.mp h c hc
  | product es => exact allLiteralsFit_iff.mp h c hc
  | call _ es => exact allLiteralsFit_iff.mp h c hc
  | binary _ a b =>
    rw [children, List.mem_cons, List.mem_singleton] at hc
    rcases hc with rfl | rfl
    · exact h.1
    · exact h.2
  | reduction _ _ body =>
    obtain rfl := List.mem_singleton.mp hc
    exact h
  | _ => cases hc

/-- What evaluation comes to is a part. -/
theorem Reaches.contains (h : e.Reaches env p) : e.Contains p :=
  Relation.ReflTransGen.mono (fun _ _ hvisits => Visits.mem_children hvisits) _ _ h

/-- The literals of a part of an expression whose literals fit are words. -/
theorem LiteralsFit.holds_of_contains (he : e.LiteralsFit) (h : e.Contains (.int n)) :
    WordRange.signed64.Holds n := by
  have hpart : ∀ c, e.Contains c → c.LiteralsFit := by
    intro c hc
    induction hc with
    | refl => exact he
    | tail _ hchild ih => exact ih.of_mem_children hchild
  exact WordRange.safe_check.mp (safe_check64 (hpart _ h))

/-- Where an expression has a value, all its parts are visited. -/
theorem visits_of_mem_children (h : e.HasValue env n) (hc : c ∈ e.children) : Visits env e c := by
  cases e with
  | sum es =>
    obtain ⟨before, after, rfl⟩ := List.append_of_mem hc
    rw [HasValue, evalInt, evalSum_eq_accumulate] at h
    obtain ⟨total, htotal, -⟩ := accumulate_append_eq_ok.mp h
    rw [← evalSum_eq_accumulate] at htotal
    exact .term htotal
  | product es =>
    obtain ⟨before, after, rfl⟩ := List.append_of_mem hc
    rw [HasValue, evalInt, evalProduct_eq_accumulate] at h
    obtain ⟨total, htotal, -⟩ := accumulate_append_eq_ok.mp h
    rw [← evalProduct_eq_accumulate] at htotal
    exact .factor htotal
  | binary op a b =>
    obtain ⟨x, y, hx, hy, haccepts, -⟩ := hasValue_binary_iff.mp h
    rw [children, List.mem_cons, List.mem_singleton] at hc
    by_cases hop : op = .quotient
    · subst hop
      rcases hc with rfl | rfl
      · exact .dividend
      · exact .divisor hx
    · rcases hc with rfl | rfl
      · exact .left hop hy haccepts
      · exact .right hop
  | int _ => cases hc
  | var _ => cases hc
  | _ => simp [HasValue, evalInt] at h

/-- A binary operation is evaluated safely if the operands that are visited are, and if so is the
operation on their values. -/
theorem safe_binary_iff : ((Expr.binary op a b).evalInt env).Safe ↔
    (∀ c, Visits env (.binary op a b) c → (c.evalInt env).Safe) ∧
      ∀ x y, a.HasValue env x → b.HasValue env y → acceptsRight op y = true →
        (applyBinary op x y).Safe := by
  by_cases hop : op = .quotient
  · subst hop
    rw [evalInt, Attempt.safe_bind_option (by rfl)]
    simp only [Attempt.safe_bind_option]
    constructor
    · rintro ⟨ha, hnext⟩
      refine ⟨fun c hc => ?_, fun x y hx hy _ => (hnext x hx).2 y hy⟩
      cases hc with
      | dividend => exact ha
      | divisor hx => exact (hnext _ hx).1
      | right hop => exact absurd rfl hop
      | left hop => exact absurd rfl hop
    · rintro ⟨hvisits, happly⟩
      exact ⟨hvisits a .dividend, fun x hx => ⟨hvisits b (.divisor hx), fun y hy =>
        happly x y hx hy rfl⟩⟩
  · rw [evalInt_binary hop, Attempt.safe_bind_option (by rfl)]
    constructor
    · rintro ⟨hb, hnext⟩
      have haccepted : ∀ y, b.HasValue env y → acceptsRight op y = true →
          (a.evalInt env).Safe ∧ ∀ x, a.HasValue env x → (applyBinary op x y).Safe := by
        intro y hy haccepts
        have h := hnext y hy
        dsimp only at h
        rwa [if_pos haccepts, Attempt.safe_bind_option (by rfl)] at h
      refine ⟨fun c hc => ?_, fun x y hx hy haccepts => (haccepted y hy haccepts).2 x hx⟩
      cases hc with
      | dividend => exact absurd rfl hop
      | divisor hx => exact absurd rfl hop
      | right => exact hb
      | left _ hy haccepts => exact (haccepted _ hy haccepts).1
    · rintro ⟨hvisits, happly⟩
      refine ⟨hvisits b (.right hop), fun y hy => ?_⟩
      dsimp only
      split
      · next haccepts =>
        exact (Attempt.safe_bind_option (by rfl)).mpr ⟨hvisits a (.left hop hy haccepts),
          fun x hx => happly x y hx hy haccepts⟩
      · exact Attempt.safe_pure _

theorem safe_sum_iff : ((Expr.sum es).evalInt env).Safe ↔
    ∀ c, Visits env (.sum es) c → (c.evalInt env).Safe := by
  rw [evalInt, evalSum_eq_accumulate, safe_accumulate_iff]
  constructor
  · intro h c hc
    generalize hsum : Expr.sum es = e at hc
    cases hc with
    | term htotal =>
      rw [Expr.sum.injEq] at hsum
      rw [evalSum_eq_accumulate] at htotal
      exact h _ c _ hsum _ htotal
    | _ => cases hsum
  · rintro h before e after rfl n hn
    rw [← evalSum_eq_accumulate] at hn
    exact h e (.term hn)

theorem safe_product_iff : ((Expr.product es).evalInt env).Safe ↔
    ∀ c, Visits env (.product es) c → (c.evalInt env).Safe := by
  rw [evalInt, evalProduct_eq_accumulate, safe_accumulate_iff]
  constructor
  · intro h c hc
    generalize hproduct : Expr.product es = e at hc
    cases hc with
    | factor htotal =>
      rw [Expr.product.injEq] at hproduct
      rw [evalProduct_eq_accumulate] at htotal
      exact h _ c _ hproduct _ htotal
    | _ => cases hproduct
  · rintro h before e after rfl n hn
    rw [← evalProduct_eq_accumulate] at hn
    exact h e (.factor hn)

/-! ## Words -/

/-- An operation on words is safe unless it divides the least word by minus one. -/
theorem safe_applyBinary_iff (hx : WordRange.signed64.Holds x) (hy : WordRange.signed64.Holds y) :
    (applyBinary op x y).Safe ↔
      ¬(op ≠ .power ∧ x = WordRange.signed64.least ∧ y = -1) := by
  constructor
  · rintro hsafe ⟨hop, rfl, rfl⟩
    cases op with
    | power => exact hop rfl
    | _ => exact absurd hsafe (by decide)
  · intro h
    exact (gives_applyBinary hx hy fun hop hleast => h ⟨hop, hleast⟩).1

/-- Values are words if the literals and the values of the variables are. -/
theorem holds_of_hasValue (henv : ∀ name n, env name = some n → WordRange.signed64.Holds n) :
    ∀ (e : Expr), (∀ n, e.Contains (.int n) → WordRange.signed64.Holds n) →
      ∀ n, e.HasValue env n → WordRange.signed64.Holds n := by
  apply induction_on_children
  intro e ih hints n h
  have hpart : ∀ c ∈ e.children, ∀ n, c.HasValue env n → WordRange.signed64.Holds n :=
    fun c hc => ih c hc fun n hn => hints n (.head hc hn)
  cases e with
  | int m => exact hasValue_int.mp h ▸ hints m .refl
  | var name => exact henv name n (hasValue_var.mp h)
  | sum es =>
    rw [HasValue, evalInt, evalSum_eq_accumulate] at h
    exact holds_of_accumulate (by decide) h
  | product es =>
    rw [HasValue, evalInt, evalProduct_eq_accumulate] at h
    exact holds_of_accumulate (by decide) h
  | binary op a b =>
    obtain ⟨x, y, hx, hy, -, h⟩ := hasValue_binary_iff.mp h
    have hwordx := hpart a (by simp [children]) x hx
    have hwordy := hpart b (by simp [children]) y hy
    have hsafe : (applyBinary op x y).Safe := h ▸ Attempt.safe_ok _
    have hdivision := (safe_applyBinary_iff hwordx hwordy).mp hsafe
    exact (gives_applyBinary hwordx hwordy fun hop hleast => hdivision ⟨hop, hleast⟩).2 n h
  | _ => simp [HasValue, evalInt] at h

/-- Whether an expression divides the least word by minus one. -/
def DividesLeast (env : String → Option Int) (e : Expr) : Prop :=
  ∃ op a b, e = .binary op a b ∧ op ≠ .power ∧ a.HasValue env WordRange.signed64.least ∧
    b.HasValue env (-1)

/-- On words, an expression is evaluated safely if the parts that are visited are, and if it does
not itself divide the least word by minus one. -/
theorem safe_evalInt_iff_visits (henv : ∀ name n, env name = some n → WordRange.signed64.Holds n)
    (hints : ∀ n, e.Contains (.int n) → WordRange.signed64.Holds n) :
    (e.evalInt env).Safe ↔
      (∀ c, Visits env e c → (c.evalInt env).Safe) ∧ ¬e.DividesLeast env := by
  cases e with
  | sum es => exact safe_sum_iff.trans (and_iff_left (by rintro ⟨_, _, _, h, -⟩; cases h)).symm
  | product es =>
    exact safe_product_iff.trans (and_iff_left (by rintro ⟨_, _, _, h, -⟩; cases h)).symm
  | binary op a b =>
    rw [safe_binary_iff]
    refine and_congr_right fun _ => ?_
    have hwordx := holds_of_hasValue henv a fun n hn => hints n (.head (by simp [children]) hn)
    have hwordy := holds_of_hasValue henv b fun n hn => hints n (.head (by simp [children]) hn)
    constructor
    · rintro h ⟨_, _, _, heq, hop, hx, hy⟩
      cases heq
      refine (safe_applyBinary_iff (hwordx _ hx) (hwordy _ hy)).mp (h _ _ hx hy ?_) ⟨hop, rfl, rfl⟩
      cases op with
      | power => exact absurd rfl hop
      | _ => rfl
    · intro h x y hx hy _
      rw [safe_applyBinary_iff (hwordx x hx) (hwordy y hy)]
      rintro ⟨hop, rfl, rfl⟩
      exact h ⟨op, a, b, rfl, hop, hx, hy⟩
  | _ =>
    refine iff_of_true ?_ ⟨?_, ?_⟩
    · exact Attempt.safe_pure _
    · rintro _ ⟨⟩
    · rintro ⟨_, _, _, h, -⟩
      cases h

/-- Evaluation overflows exactly if it comes to a division of the least word by minus one. -/
theorem safe_evalInt_iff (henv : ∀ name n, env name = some n → WordRange.signed64.Holds n) :
    ∀ (e : Expr), (∀ n, e.Contains (.int n) → WordRange.signed64.Holds n) →
      ((e.evalInt env).Safe ↔ ∀ p, e.Reaches env p → ¬p.DividesLeast env) := by
  apply induction_on_children
  intro e ih hints
  have hpart : ∀ c, Visits env e c →
      ((c.evalInt env).Safe ↔ ∀ p, c.Reaches env p → ¬p.DividesLeast env) := fun c hc =>
    ih c hc.mem_children fun n hn => hints n (.head hc.mem_children hn)
  rw [safe_evalInt_iff_visits henv hints]
  constructor
  · rintro ⟨hvisits, hself⟩ p hp
    rcases Relation.ReflTransGen.cases_head hp with rfl | ⟨c, hc, hp⟩
    · exact hself
    · exact (hpart c hc).mp (hvisits c hc) p hp
  · intro h
    exact ⟨fun c hc => (hpart c hc).mpr fun p hp => h p (.head hc hp), h e .refl⟩

end LoopKernel.Expr
