import LoopKernel.Proofs.Expr.Range
import LoopKernel.Proofs.Source.Grammar
import LoopKernel.Proofs.Source.Lexer
import LoopKernel.Source.Lowering

/-!
# Lowering within words

Lowering a tree whose numbers are those of a source does not overflow. The affine form of what it
gives has bounds that can be read off the tree: the form that the tree would have if no number in
it had a sign.
-/

namespace LoopKernel.Source

variable {scope : Scope} {t : Term} {e : Expr}

/-! ## Literals -/

/-- An operator on expressions with fitting literals does not overflow. -/
theorem Operator.safe_apply (op : Operator) {l r : Expr} (hr : r.LiteralsFit) :
    (op.apply l r).Safe := by
  cases op with
  | sub => exact Attempt.Safe.bind hr.safe_negate fun _ _ => Attempt.safe_pure _
  | _ => exact Attempt.safe_pure _

/-- An operator keeps fitting literals. -/
theorem Operator.literalsFit_apply (op : Operator) {l r : Expr} (hl : l.LiteralsFit)
    (hr : r.LiteralsFit) (h : op.apply l r = .ok e) : e.LiteralsFit := by
  cases op with
  | sub =>
    simp only [Operator.apply, Expr.sub, Attempt.bind_eq_ok, Attempt.pure_eq_ok] at h
    obtain ⟨negated, hnegated, rfl⟩ := h
    exact hl.add (hr.negate hnegated)
  | add =>
    rw [← Attempt.pure_eq_ok.mp h]
    exact hl.add hr
  | mul =>
    rw [← Attempt.pure_eq_ok.mp h]
    exact hl.mul hr
  | _ =>
    rw [← Attempt.pure_eq_ok.mp h]
    exact ⟨hl, hr⟩

mutual

/-- The literals of what a tree stands for fit. -/
theorem literalsFit_of_lower : (t : Term) → {e : Expr} → t.MadeOf Token.IsReadable →
    lower scope t = .ok e → e.LiteralsFit
  | .int _ n, e, ht, h => by
    rw [lower, Attempt.pure_eq_ok] at h
    rw [Term.MadeOf] at ht
    obtain ⟨m, rfl, hm⟩ := ht
    rw [← h]
    exact hm
  | .neg _ operand, e, ht, h => by
    rw [lower, Attempt.bind_eq_ok] at h
    obtain ⟨l, hl, h⟩ := h
    rw [Term.MadeOf] at ht
    exact (literalsFit_of_lower operand ht hl).negate (Attempt.liftM_eq_ok.mp h)
  | .float _ _, e, _, h | .var _ _, e, _, h | .tagged _ _ _, e, _, h => by
    rw [lower, Attempt.pure_eq_ok] at h
    rw [← h]
    trivial
  | .subscript _ _ index, e, ht, h => by
    simp only [lower, Attempt.bind_eq_ok, Attempt.pure_eq_ok] at h
    obtain ⟨es, hes, rfl⟩ := h
    rw [Term.MadeOf] at ht
    exact allLiteralsFit_of_lowerAll index ht.2 hes
  | .call _ _ args, e, ht, h => by
    simp only [lower, Attempt.bind_eq_ok, Attempt.pure_eq_ok] at h
    obtain ⟨es, hes, rfl⟩ := h
    rw [Term.MadeOf] at ht
    exact allLiteralsFit_of_lowerAll args ht.2 hes
  | .binary _ op left right, e, ht, h => by
    simp only [lower, Attempt.bind_eq_ok] at h
    obtain ⟨l, hl, r, hr, h⟩ := h
    rw [Term.MadeOf] at ht
    exact op.literalsFit_apply (literalsFit_of_lower left ht.1 hl)
      (literalsFit_of_lower right ht.2 hr) (Attempt.liftM_eq_ok.mp h)
  | .reduce _ op _ indices body, e, ht, h => by
    simp only [lower, Attempt.bind_eq_ok] at h
    obtain ⟨b, hb, h⟩ := h
    rw [Term.MadeOf] at ht
    have hbody := literalsFit_of_lower body ht.2 hb
    split at h
    · rw [← Attempt.pure_eq_ok.mp h]
      exact ⟨trivial, hbody, trivial⟩
    · simp only [Attempt.bind_eq_ok, Attempt.pure_eq_ok] at h
      obtain ⟨_, -, rfl⟩ := h
      exact hbody

/-- The literals of what several trees stand for fit. -/
theorem allLiteralsFit_of_lowerAll : (ts : List Term) → {es : List Expr} →
    Term.AllMadeOf Token.IsReadable ts → lowerAll scope ts = .ok es → Expr.AllLiteralsFit es
  | [], es, _, h => by
    rw [lowerAll, Attempt.pure_eq_ok] at h
    rw [← h]
    trivial
  | t :: rest, es, ht, h => by
    simp only [lowerAll, Attempt.bind_eq_ok, Attempt.pure_eq_ok] at h
    obtain ⟨e, he, es', hes, rfl⟩ := h
    rw [Term.AllMadeOf] at ht
    exact ⟨literalsFit_of_lower t ht.1 he, allLiteralsFit_of_lowerAll rest ht.2 hes⟩

end

/-! ## Overflow -/

/-- The indices of a reduction are looked up without overflow. -/
theorem safe_lowerIndices (span : Span) (indices : List BoundIndex) :
    (lowerIndices scope span indices).Safe := by
  induction indices with
  | nil => exact Attempt.safe_pure _
  | cons b rest ih =>
    unfold lowerIndices
    split
    · exact Attempt.Safe.bind ih fun _ _ => Attempt.safe_pure _
    · exact Attempt.safe_fail _

mutual

/-- Lowering a tree does not overflow. -/
theorem safe_lower : (t : Term) → t.MadeOf Token.IsReadable → (lower scope t).Safe
  | .int _ _, _ | .float _ _, _ | .var _ _, _ | .tagged _ _ _, _ => Attempt.safe_pure _
  | .subscript _ _ index, ht => by
    rw [Term.MadeOf] at ht
    exact Attempt.Safe.bind (safe_lowerAll index ht.2) fun _ _ => Attempt.safe_pure _
  | .neg _ operand, ht => by
    rw [Term.MadeOf] at ht
    exact Attempt.Safe.bind (safe_lower operand ht) fun l hl =>
      Attempt.safe_liftM.mpr ((literalsFit_of_lower operand ht hl).safe_negate)
  | .binary _ op left right, ht => by
    rw [Term.MadeOf] at ht
    exact Attempt.Safe.bind (safe_lower left ht.1) fun l _ =>
      Attempt.Safe.bind (safe_lower right ht.2) fun r hr =>
        Attempt.safe_liftM.mpr (op.safe_apply (literalsFit_of_lower right ht.2 hr))
  | .call _ _ args, ht => by
    rw [Term.MadeOf] at ht
    exact Attempt.Safe.bind (safe_lowerAll args ht.2) fun _ _ => Attempt.safe_pure _
  | .reduce span op _ indices body, ht => by
    rw [Term.MadeOf] at ht
    rw [lower]
    refine Attempt.Safe.bind (safe_lower body ht.2) fun _ _ => ?_
    split
    · exact Attempt.safe_pure _
    · exact Attempt.Safe.bind (safe_lowerIndices span indices) fun _ _ => Attempt.safe_pure _

/-- Lowering several trees does not overflow. -/
theorem safe_lowerAll : (ts : List Term) → Term.AllMadeOf Token.IsReadable ts →
    (lowerAll scope ts).Safe
  | [], _ => Attempt.safe_pure _
  | t :: rest, ht => by
    rw [Term.AllMadeOf] at ht
    exact Attempt.Safe.bind (safe_lower t ht.1) fun _ _ =>
      Attempt.Safe.bind (safe_lowerAll rest ht.2) fun _ _ => Attempt.safe_pure _

end

/-! ## Weights -/

open LoopKernel.Affine (Fits mulBound)

/-- Whether an operator gives affine forms. -/
def Operator.isAffine : Operator → Bool
  | .add | .sub | .mul => true
  | .div | .floorDiv | .mod | .pow => false

/-- Bounds for what an operator gives, from bounds for its operands. -/
def Operator.weight (op : Operator) (A B : Option String → Nat) : Option String → Nat :=
  match op with
  | .add | .sub => fun p => A p + B p
  | .mul => mulBound A B
  | .div | .floorDiv | .mod | .pow => fun _ => 0

theorem Operator.weight_of_not_isAffine {op : Operator} (h : op.isAffine = false)
    (A B : Option String → Nat) : op.weight A B = fun _ => 0 := by
  cases op with
  | add | sub | mul => cases h
  | _ => rfl

/-- An operator on affine forms within words keeps within its bounds, if these are within words. -/
theorem Operator.fits_apply {op : Operator} {l r : Expr} {A B : Option String → Nat}
    (hop : op.isAffine = true) (hl : Fits l.toAffine? A) (hr : Fits r.toAffine? B)
    (hA : ∀ p, A p < 2 ^ 63) (hB : ∀ p, B p < 2 ^ 63) (hwords : ∀ p, op.weight A B p < 2 ^ 63)
    (h : op.apply l r = .ok e) : Fits e.toAffine? (op.weight A B) := by
  cases op with
  | add =>
    rw [← Attempt.pure_eq_ok.mp h]
    exact Expr.fits_add hl hr hwords
  | sub =>
    simp only [Operator.apply, Expr.sub, Attempt.bind_eq_ok, Attempt.pure_eq_ok] at h
    obtain ⟨negated, hnegated, rfl⟩ := h
    exact Expr.fits_add hl (Expr.fits_negate hr hB hnegated) hwords
  | mul =>
    rw [← Attempt.pure_eq_ok.mp h]
    exact Expr.fits_mul hl hA hr hwords
  | _ => cases hop

/-- What another operator gives has no affine form. -/
theorem Operator.fits_apply_of_not_isAffine {op : Operator} {l r : Expr}
    {bound : Option String → Nat} (hop : op.isAffine = false) (h : op.apply l r = .ok e) :
    Fits e.toAffine? bound := by
  cases op with
  | add | sub | mul => cases hop
  | _ =>
    rw [← Attempt.pure_eq_ok.mp h]
    exact Attempt.gives_none

/-- Bounds for the parts of the affine form of a tree: the parts as they would be if no number had a
sign. -/
def Term.weight : Term → Option String → Nat
  | .int _ n => fun p => if p = none then n.natAbs else 0
  | .var _ name => fun p => if p = some name then 1 else 0
  | .neg _ operand => operand.weight
  | .binary _ op left right => op.weight left.weight right.weight
  | _ => fun _ => 0

/-- The parts that may have a weight: the constant, and the coefficients of the variables. -/
def Term.parts : Term → List (Option String)
  | .var _ name => [none, some name]
  | .neg _ operand => operand.parts
  | .binary _ _ left right => left.parts ++ right.parts
  | _ => [none]

/-- Other parts have no weight. -/
theorem Term.weight_eq_zero : (t : Term) → {p : Option String} → p ∉ t.parts → t.weight p = 0
  | .int _ n, p, h => by
    simp only [parts, List.mem_singleton] at h
    simp [weight, h]
  | .var _ name, p, h => by
    simp only [parts, List.mem_cons, List.not_mem_nil, or_false, not_or] at h
    simp [weight, h.2]
  | .neg _ operand, p, h => by
    rw [weight]
    exact weight_eq_zero operand (by rwa [parts] at h)
  | .binary _ op left right, p, h => by
    rw [parts, List.mem_append, not_or] at h
    have hleft := weight_eq_zero left h.1
    have hright := weight_eq_zero right h.2
    cases op <;> simp only [weight, Operator.weight, hleft, hright]
    cases p <;> simp [mulBound, hleft, hright]
  | .float _ _, p, _ | .tagged _ _ _, p, _ | .subscript _ _ _, p, _ | .call _ _ _, p, _
  | .reduce _ _ _ _ _, p, _ => by simp [weight]

/-- Whether the weights of a tree are within words. -/
def Term.isLight (t : Term) : Bool := t.parts.all fun p => t.weight p < 2 ^ 63

/-- The weights of a light tree are within words. -/
theorem Term.weight_lt {t : Term} (h : t.isLight = true) (p : Option String) :
    t.weight p < 2 ^ 63 := by
  by_cases hp : p ∈ t.parts
  · exact of_decide_eq_true (List.all_eq_true.mp h p hp)
  · rw [t.weight_eq_zero hp]
    decide

/-- Whether the affine form of a tree is computed within words: the tree is light, and so are the
trees from which it is computed. -/
def Term.isNarrow : Term → Bool
  | .neg _ operand => operand.isNarrow
  | .binary span op left right =>
    !op.isAffine ||
      left.isNarrow && right.isNarrow && (Term.binary span op left right).isLight
  | _ => true

/-- A narrow tree of numbers within words is light. -/
theorem Term.isLight_of_isNarrow : (t : Term) → t.MadeOf Token.IsReadable → t.isNarrow = true →
    t.isLight = true
  | .int _ n, ht, _ => by
    rw [MadeOf] at ht
    obtain ⟨m, rfl, hm⟩ := ht
    have hlt : m < 9223372036854775808 := hm
    simpa [isLight, parts, weight] using hlt
  | .var _ name, _, _ => by simp [isLight, parts, weight]
  | .neg _ operand, ht, h => by
    rw [MadeOf] at ht
    rw [isNarrow] at h
    have hlight := isLight_of_isNarrow operand ht h
    unfold isLight at hlight ⊢
    rwa [parts, weight]
  | .binary span op left right, _, h => by
    cases hop : op.isAffine with
    | true =>
      simp only [isNarrow, hop, Bool.not_true, Bool.false_or, Bool.and_eq_true] at h
      exact h.2
    | false =>
      simp [isLight, weight, Operator.weight_of_not_isAffine hop]
  | .float _ _, _, _ | .tagged _ _ _, _, _ | .subscript _ _ _, _, _ | .call _ _ _, _, _
  | .reduce _ _ _ _ _, _, _ => by simp [isLight, weight]

/-- The affine form of a narrow tree is computed, and is within the weights of the tree. -/
theorem fits_of_lower {scope : Scope} : (t : Term) → {e : Expr} → t.MadeOf Token.IsReadable →
    t.isNarrow = true → lower scope t = .ok e → Fits e.toAffine? t.weight
  | .int _ n, e, _, _, h => by
    rw [lower, Attempt.pure_eq_ok] at h
    subst h
    refine Attempt.gives_some (.const ?_)
    simp [Term.weight]
  | .var _ name, e, _, _, h => by
    rw [lower, Attempt.pure_eq_ok] at h
    subst h
    refine Attempt.gives_some (.var ?_)
    simp [Term.weight]
  | .neg _ operand, e, ht, hnarrow, h => by
    rw [lower, Attempt.bind_eq_ok] at h
    obtain ⟨l, hl, h⟩ := h
    rw [Term.MadeOf] at ht
    rw [Term.isNarrow] at hnarrow
    rw [Term.weight]
    exact Expr.fits_negate (fits_of_lower operand ht hnarrow hl)
      (Term.weight_lt (operand.isLight_of_isNarrow ht hnarrow)) (Attempt.liftM_eq_ok.mp h)
  | .binary span op left right, e, ht, hnarrow, h => by
    simp only [lower, Attempt.bind_eq_ok] at h
    obtain ⟨l, hl, r, hr, h⟩ := h
    rw [Attempt.liftM_eq_ok] at h
    rw [Term.MadeOf] at ht
    cases hop : op.isAffine with
    | true =>
      simp only [Term.isNarrow, hop, Bool.not_true, Bool.false_or, Bool.and_eq_true] at hnarrow
      obtain ⟨⟨hleft, hright⟩, hlight⟩ := hnarrow
      exact Operator.fits_apply hop (fits_of_lower left ht.1 hleft hl)
        (fits_of_lower right ht.2 hright hr) (Term.weight_lt (left.isLight_of_isNarrow ht.1 hleft))
        (Term.weight_lt (right.isLight_of_isNarrow ht.2 hright)) (Term.weight_lt hlight) h
    | false => exact Operator.fits_apply_of_not_isAffine hop h
  | .float _ _, e, _, _, h | .tagged _ _ _, e, _, _, h => by
    rw [lower, Attempt.pure_eq_ok] at h
    subst h
    exact Attempt.gives_none
  | .subscript _ _ _, e, _, _, h | .call _ _ _, e, _, _, h => by
    simp only [lower, Attempt.bind_eq_ok, Attempt.pure_eq_ok] at h
    obtain ⟨_, -, rfl⟩ := h
    exact Attempt.gives_none
  | .reduce _ _ _ _ _, e, _, _, h => by
    simp only [lower, Attempt.bind_eq_ok] at h
    obtain ⟨b, -, h⟩ := h
    split at h
    · rw [Attempt.pure_eq_ok] at h
      subst h
      exact Attempt.gives_none
    · simp only [Attempt.bind_eq_ok, Attempt.pure_eq_ok] at h
      obtain ⟨_, -, rfl⟩ := h
      exact Attempt.gives_none

end LoopKernel.Source
