import LoopKernel.Expr.Text
import LoopKernel.Proofs.Expr.Range
import LoopKernel.Proofs.Source.Lexer

/-!
# Arithmetic expressions

Expressions of integers and names by sums, products and binary operations, in the form in which
lowering builds them: a sum does not start with a sum, nor a product with a product. Settling the
negations of literals in place keeps the value.
-/

namespace LoopKernel.Expr

/-! ## Shape -/

/-- Whether an expression is a sum. -/
def isSum : Expr → Bool
  | .sum _ => true
  | _ => false

/-- Whether an expression is a product. -/
def isProduct : Expr → Bool
  | .product _ => true
  | _ => false

mutual

/-- Whether an expression is one of integers within words and names. -/
def IsArithmetic : Expr → Prop
  | .int n => n.natAbs < 2 ^ 63
  | .var name => IsName name
  | .sum (e :: rest) => e.isSum = false ∧ rest ≠ [] ∧ e.IsArithmetic ∧ AllArithmetic rest
  | .product (e :: rest) => e.isProduct = false ∧ rest ≠ [] ∧ e.IsArithmetic ∧ AllArithmetic rest
  | .binary _ a b => a.IsArithmetic ∧ b.IsArithmetic
  | _ => False

/-- Whether several expressions are ones of integers within words and names. -/
def AllArithmetic : List Expr → Prop
  | [] => True
  | e :: rest => e.IsArithmetic ∧ AllArithmetic rest

end

variable {e f l r : Expr} {es : List Expr} {env : String → Option Int}

theorem allArithmetic_iff : AllArithmetic es ↔ ∀ e ∈ es, e.IsArithmetic := by
  induction es with
  | nil => simp [AllArithmetic]
  | cons e rest ih => simp [AllArithmetic, ih]

theorem AllArithmetic.concat (hes : AllArithmetic es) (he : e.IsArithmetic) :
    AllArithmetic (es ++ [e]) := by
  rw [allArithmetic_iff, List.forall_mem_append, List.forall_mem_singleton]
  exact ⟨allArithmetic_iff.mp hes, he⟩

/-- A negation stays arithmetic. -/
theorem IsArithmetic.negate (h : e.IsArithmetic) (hf : e.negate = .ok f) : f.IsArithmetic := by
  unfold Expr.negate at hf
  split at hf
  · next n =>
    simp only [Attempt.bind_eq_ok, WordRange.check_eq_ok, Attempt.pure_eq_ok] at hf
    obtain ⟨_, ⟨-, rfl⟩, rfl⟩ := hf
    rw [IsArithmetic] at h ⊢
    rwa [Int.natAbs_neg]
  · exact h.elim
  · rw [← Attempt.pure_eq_ok.mp hf]
    exact ⟨rfl, List.cons_ne_nil _ _, by simp [IsArithmetic], h, trivial⟩

theorem IsArithmetic.add (hl : l.IsArithmetic) (hr : r.IsArithmetic) : (l.add r).IsArithmetic := by
  cases l with
  | sum terms =>
    cases terms with
    | nil => exact hl.elim
    | cons e rest =>
      obtain ⟨hsum, -, he, hrest⟩ := hl
      exact ⟨hsum, by simp, he, hrest.concat hr⟩
  | _ => exact ⟨rfl, List.cons_ne_nil _ _, hl, hr, trivial⟩

theorem IsArithmetic.mul (hl : l.IsArithmetic) (hr : r.IsArithmetic) : (l.mul r).IsArithmetic := by
  cases l with
  | product factors =>
    cases factors with
    | nil => exact hl.elim
    | cons e rest =>
      obtain ⟨hproduct, -, he, hrest⟩ := hl
      exact ⟨hproduct, by simp, he, hrest.concat hr⟩
  | _ => exact ⟨rfl, List.cons_ne_nil _ _, hl, hr, trivial⟩

mutual

/-- The literals of an arithmetic expression fit. -/
theorem IsArithmetic.literalsFit : (e : Expr) → e.IsArithmetic → e.LiteralsFit
  | .int _, h => h
  | .var _, _ => trivial
  | .sum (e :: rest), h | .product (e :: rest), h =>
    ⟨IsArithmetic.literalsFit e h.2.2.1, AllArithmetic.allLiteralsFit rest h.2.2.2⟩
  | .binary _ a b, h => ⟨IsArithmetic.literalsFit a h.1, IsArithmetic.literalsFit b h.2⟩
  | .sum [], h | .product [], h | .float _, h | .tagged _ _, h | .subscript _ _, h | .call _ _, h
  | .reduction _ _ _, h => h.elim

theorem AllArithmetic.allLiteralsFit : (es : List Expr) → AllArithmetic es → AllLiteralsFit es
  | [], _ => trivial
  | e :: rest, h => ⟨IsArithmetic.literalsFit e h.1, AllArithmetic.allLiteralsFit rest h.2⟩

end

/-! ## Settled negations -/

/-- The negation, computed without a check. -/
def opposite : Expr → Expr
  | .int n => .int (-n)
  | .float x => .float x.neg
  | e => .product [.int (-1), e]

/-- Negating gives the opposite. -/
theorem negate_eq_ok (h : e.LiteralsFit) : e.negate = .ok e.opposite := by
  cases e with
  | int n =>
    rw [LiteralsFit] at h
    have hword : check64 (-n) = .ok (-n) :=
      WordRange.check_eq_ok.mpr ⟨WordRange.safe_check.mp (safe_check64 (by rwa [Int.natAbs_neg])),
        rfl⟩
    rw [negate, hword]
    rfl
  | _ => rfl

mutual

/-- The expression with negations of literals computed. -/
def settle : Expr → Expr
  | .sum es => .sum (settleAll es)
  | .product es => match es with
    | [.int (-1), e] => e.settle.opposite
    | es => .product (settleAll es)
  | .binary op a b => .binary op a.settle b.settle
  | e => e

/-- Several expressions with negations of literals computed. -/
def settleAll : List Expr → List Expr
  | [] => []
  | e :: rest => e.settle :: settleAll rest

end

/-- A product is a negation if it has two factors and the first one is minus one. -/
theorem isNegation_eq_true_iff : isNegation es = true ↔ ∃ e, es = [.int (-1), e] := by
  unfold isNegation
  split <;> simp_all

theorem settle_negation (e : Expr) : (Expr.product [.int (-1), e]).settle = e.settle.opposite := by
  rw [settle]

theorem settle_product (h : isNegation es = false) :
    (Expr.product es).settle = .product (settleAll es) := by
  rw [settle]
  rintro e rfl
  cases h

theorem settleAll_ne_nil (h : es ≠ []) : settleAll es ≠ [] := by
  cases es with
  | nil => exact absurd rfl h
  | cons e rest => exact List.cons_ne_nil _ _

theorem isSum_settle (h : e.isSum = false) : e.settle.isSum = false := by
  cases e with
  | sum es => cases h
  | product es =>
    cases hneg : isNegation es with
    | true =>
      obtain ⟨e, rfl⟩ := isNegation_eq_true_iff.mp hneg
      rw [settle_negation]
      cases e.settle <;> rfl
    | false =>
      rw [settle_product hneg]
      rfl
  | _ => rfl

theorem isProduct_settle (h : e.isProduct = false) : e.settle.isProduct = false := by
  cases e with
  | product es => cases h
  | _ => rfl

/-- Adding terms to something that is no sum gives the sum of all. -/
theorem foldl_add (h : e.isSum = false) (hes : es ≠ []) : es.foldl add e = .sum (e :: es) := by
  have hsum : ∀ (rest terms : List Expr), rest.foldl add (.sum terms) = .sum (terms ++ rest) := by
    intro rest
    induction rest with
    | nil => simp
    | cons f rest ih => exact fun terms => (ih (terms ++ [f])).trans (by simp)
  cases es with
  | nil => exact absurd rfl hes
  | cons f rest =>
    have hfirst : e.add f = .sum [e, f] := by
      cases e with
      | sum terms => cases h
      | _ => rfl
    rw [List.foldl_cons, hfirst, hsum]
    rfl

/-- Multiplying something that is no product gives the product of all. -/
theorem foldl_mul (h : e.isProduct = false) (hes : es ≠ []) :
    es.foldl mul e = .product (e :: es) := by
  have hproduct : ∀ (rest factors : List Expr),
      rest.foldl mul (.product factors) = .product (factors ++ rest) := by
    intro rest
    induction rest with
    | nil => simp
    | cons f rest ih => exact fun factors => (ih (factors ++ [f])).trans (by simp)
  cases es with
  | nil => exact absurd rfl hes
  | cons f rest =>
    have hfirst : e.mul f = .product [e, f] := by
      cases e with
      | product factors => cases h
      | _ => rfl
    rw [List.foldl_cons, hfirst, hproduct]
    rfl

theorem LiteralsFit.opposite (h : e.LiteralsFit) : e.opposite.LiteralsFit :=
  h.negate (negate_eq_ok h)

/-- The opposite has the value of the negation. -/
theorem evalInt_opposite (h : e.LiteralsFit) :
    e.opposite.evalInt env = (Expr.product [.int (-1), e]).evalInt env := by
  have hsign : WordRange.signed64.fit? (-1) = some (-1) := by decide
  cases e with
  | int n =>
    rw [LiteralsFit] at h
    have hword : WordRange.signed64.fit? (-n) = some (-n) := by
      rw [WordRange.fit?, if_pos]
      exact WordRange.safe_check.mp (safe_check64 (by rwa [Int.natAbs_neg]))
    simp [Expr.opposite, evalInt, evalProduct, hsign, hword, bind, Except.bind, pure, Except.pure]
  | float x =>
    simp [Expr.opposite, evalInt, evalProduct, hsign, bind, Except.bind, pure, Except.pure]
  | _ => rfl

mutual

/-- Settling keeps fitting literals. -/
theorem LiteralsFit.settle : (e : Expr) → e.LiteralsFit → e.settle.LiteralsFit
  | .sum es, h => AllLiteralsFit.settleAll es h
  | .product es, h => by
    have hall := AllLiteralsFit.settleAll es h
    cases hneg : isNegation es with
    | true =>
      obtain ⟨e, rfl⟩ := isNegation_eq_true_iff.mp hneg
      rw [settle_negation]
      exact LiteralsFit.opposite hall.2.1
    | false =>
      rw [settle_product hneg]
      exact hall
  | .binary op a b, h => ⟨LiteralsFit.settle a h.1, LiteralsFit.settle b h.2⟩
  | .int _, h | .float _, h | .var _, h | .tagged _ _, h | .subscript _ _, h | .call _ _, h
  | .reduction _ _ _, h => h

theorem AllLiteralsFit.settleAll : (es : List Expr) → AllLiteralsFit es →
    AllLiteralsFit (settleAll es)
  | [], _ => trivial
  | e :: rest, h => ⟨LiteralsFit.settle e h.1, AllLiteralsFit.settleAll rest h.2⟩

end

mutual

/-- Settling keeps the value. -/
theorem evalInt_settle : (e : Expr) → e.LiteralsFit → e.settle.evalInt env = e.evalInt env
  | .sum es, h => evalSum_settleAll es h 0
  | .product es, h => by
    have hall := evalProduct_settleAll es h 1
    cases hneg : isNegation es with
    | true =>
      obtain ⟨e, rfl⟩ := isNegation_eq_true_iff.mp hneg
      have hfits := AllLiteralsFit.settleAll _ h
      rw [settle_negation, evalInt_opposite hfits.2.1]
      exact hall
    | false =>
      rw [settle_product hneg]
      exact hall
  | .binary op a b, h => by
    simp only [settle, evalInt, evalInt_settle a h.1, evalInt_settle b h.2]
  | .int _, _ | .float _, _ | .var _, _ | .tagged _ _, _ | .subscript _ _, _ | .call _ _, _
  | .reduction _ _ _, _ => rfl

theorem evalSum_settleAll : (es : List Expr) → AllLiteralsFit es → (total : Int) →
    evalSum env total (settleAll es) = evalSum env total es
  | [], _, _ => rfl
  | e :: rest, h, total => by
    simp only [settleAll, evalSum, evalInt_settle e h.1, evalSum_settleAll rest h.2]

theorem evalProduct_settleAll : (es : List Expr) → AllLiteralsFit es → (total : Int) →
    evalProduct env total (settleAll es) = evalProduct env total es
  | [], _, _ => rfl
  | e :: rest, h, total => by
    simp only [settleAll, evalProduct, evalInt_settle e h.1, evalProduct_settleAll rest h.2]

end

end LoopKernel.Expr
