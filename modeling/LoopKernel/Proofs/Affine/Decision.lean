import LoopKernel.Proofs.Affine.Constraint
import LoopKernel.Proofs.Affine.Content
import Mathlib.Tactic.Linarith

/-!
# Decisions about one constraint

What is said of a constraint by looking at its coefficients is exact on the integers. It is found to
hold always exactly if every assignment satisfies it, and to be a contradiction exactly if none
does: an equality is solvable when the common divisor of its coefficients divides its constant. A
violated constraint has exactly one satisfied negation, although each negation is rounded when it is
normalized.
-/

namespace LoopKernel

namespace Affine

variable {f : Affine} {n : Nat}

/-- A form with variables grows along some direction. -/
theorem exists_linear_pos (hf : f.Proper) (hvar : f.isConstant = false) : ∃ v, 0 < f.linear v := by
  obtain ⟨name, hname⟩ := exists_coeff_ne_zero hf hvar
  refine ⟨f.coeff name • Pi.single name 1, ?_⟩
  rw [map_smul, linear_single, smul_eq_mul]
  exact mul_self_pos.mpr hname

/-- A form with variables has values above every bound. -/
theorem exists_value_ge (hf : f.Proper) (hvar : f.isConstant = false) (bound : Int) :
    ∃ x, bound ≤ f.value x := by
  obtain ⟨v, hv⟩ := exists_linear_pos hf hvar
  refine ⟨|bound - f.constant| • v, ?_⟩
  rw [value_eq_linear, map_smul, smul_eq_mul]
  nlinarith [le_abs_self (bound - f.constant), abs_nonneg (bound - f.constant)]

/-- A form with variables has values below every bound. -/
theorem exists_value_le (hf : f.Proper) (hvar : f.isConstant = false) (bound : Int) :
    ∃ x, f.value x ≤ bound := by
  obtain ⟨v, hv⟩ := exists_linear_pos hf hvar
  refine ⟨-|f.constant - bound| • v, ?_⟩
  rw [value_eq_linear, map_smul, smul_eq_mul]
  nlinarith [le_abs_self (f.constant - bound), abs_nonneg (f.constant - bound)]

/-- A form is zero somewhere exactly if the common divisor of its coefficients divides its
constant. -/
theorem exists_value_eq_zero_iff (h : f.content = .ok n) :
    (∃ x, f.value x = 0) ↔ (n : Int) ∣ f.constant := by
  constructor
  · rintro ⟨x, hx⟩
    rw [value_eq_linear, add_eq_zero_iff_eq_neg] at hx
    rw [hx, Int.dvd_neg]
    exact content_dvd_linear h x
  · rintro ⟨k, hk⟩
    obtain ⟨u, hu⟩ := exists_linear_eq_content h
    refine ⟨-k • u, ?_⟩
    rw [value_eq_linear, map_smul, hu, hk, smul_eq_mul]
    ring

end Affine

namespace Constraint

variable {c : Constraint} {b : Bool} {negated : List Constraint} {x : String → Int}

/-- A constraint without variables holds everywhere or nowhere. -/
theorem holds_iff_of_isConstant (h : c.form.isConstant = true) :
    c.Holds x ↔ c.relation.Holds c.form.constant := by
  rw [Holds, Affine.value_of_isConstant x h]

/-- A constraint with variables is violated somewhere. -/
theorem exists_not_holds (hproper : c.form.Proper) (hvar : c.form.isConstant = false) :
    ∃ x, ¬c.Holds x := by
  obtain ⟨x, hx⟩ := Affine.exists_value_le hproper hvar (-1)
  refine ⟨x, fun hholds => ?_⟩
  rw [Holds] at hholds
  cases hrelation : c.relation <;> rw [hrelation, Relation.Holds] at hholds <;> omega

/-- A constraint is found to hold always exactly if it does. -/
theorem isTautology_iff (hproper : c.form.Proper) : c.isTautology = true ↔ ∀ x, c.Holds x := by
  refine ⟨fun h x => holds_of_isTautology h, fun h => ?_⟩
  have hconstant : c.form.isConstant = true := by
    by_contra hvar
    obtain ⟨x, hx⟩ := exists_not_holds hproper (Bool.not_eq_true _ ▸ hvar)
    exact hx (h x)
  rw [isTautology, hconstant, Bool.true_and, decide_eq_true_eq]
  exact (holds_iff_of_isConstant hconstant).mp (h 0)

/-- A constraint is found to be a contradiction exactly if it has no solutions. -/
theorem isContradiction_iff (hproper : c.form.Proper) (h : c.isContradiction = .ok b) :
    b = true ↔ ∀ x, ¬c.Holds x := by
  refine ⟨fun hb x => not_holds_of_isContradiction (hb ▸ h), fun hnone => ?_⟩
  obtain ⟨relation, f⟩ := c
  cases relation with
  | inequality =>
    simp only [isContradiction, Attempt.pure_eq_ok] at h
    have hconstant : f.isConstant = true := by
      by_contra hvar
      obtain ⟨x, hx⟩ := Affine.exists_value_ge hproper (Bool.not_eq_true _ ▸ hvar) 0
      exact hnone x hx
    rw [← h, hconstant, Bool.true_and, decide_eq_true_eq, ← not_le]
    exact fun hholds => hnone 0 ((holds_iff_of_isConstant hconstant).mpr hholds)
  | equality =>
    simp only [isContradiction, Attempt.bind_eq_ok, Attempt.pure_eq_ok] at h
    obtain ⟨n, hn, rfl⟩ := h
    split
    · next hconstant =>
      rw [bne_iff_ne]
      exact fun hholds => hnone 0 ((holds_iff_of_isConstant hconstant).mpr hholds)
    · rw [bne_iff_ne]
      intro hdvd
      obtain ⟨x, hx⟩ := (Affine.exists_value_eq_zero_iff hn).mpr (Int.dvd_of_emod_eq_zero hdvd)
      exact hnone x hx

/-- Of the negations of a constraint none holds where it holds, and exactly one holds where it does
not. -/
theorem countP_negations (h : c.negations = .ok negated) (x : String → Int) :
    negated.countP (fun d => d.Holds x) = if c.Holds x then 0 else 1 := by
  obtain ⟨negative, hnegative, ⟨hrelation, below, rfl, hbelow⟩ |
    ⟨hrelation, above, below, rfl, habove, hbelow⟩⟩ := negations_cases h
  · have hself : c.Holds x ↔ 0 ≤ c.form.value x := by rw [Holds, hrelation, Relation.Holds]
    simp only [List.countP_cons, List.countP_nil, decide_eq_true_eq, hbelow.holds_iff,
      Affine.value_neg x hnegative, hself]
    split_ifs <;> omega
  · have hself : c.Holds x ↔ c.form.value x = 0 := by rw [Holds, hrelation, Relation.Holds]
    simp only [List.countP_cons, List.countP_nil, decide_eq_true_eq, habove.holds_iff,
      hbelow.holds_iff, Affine.value_neg x hnegative, hself]
    split_ifs <;> omega

/-- What is decided about a constraint is exact on the integers. It is found to hold always exactly
if every assignment satisfies it, and to be a contradiction exactly if none does. Every assignment
satisfies exactly one of the constraint and its negations, so it violates the constraint exactly if
it satisfies exactly one negation. -/
theorem decisions_exact {c : Constraint} (hproper : c.form.Proper) :
    (c.isTautology = true ↔ ∀ x, c.Holds x) ∧
      (∀ b, c.isContradiction = .ok b → (b = true ↔ ∀ x, ¬c.Holds x)) ∧
      ∀ negated, c.negations = .ok negated → ∀ x,
        (c :: negated).countP (fun d => d.Holds x) = 1 ∧
          (¬c.Holds x ↔ negated.countP (fun d => d.Holds x) = 1) := by
  refine ⟨isTautology_iff hproper, fun b => isContradiction_iff hproper, ?_⟩
  intro negated hnegated x
  rw [List.countP_cons, countP_negations hnegated]
  by_cases hx : c.Holds x <;> simp [hx]

/-- `6 i + 10 j + 4 k = 7`. -/
def oddSum : Constraint := ⟨.equality, ⟨.ofList [("i", 6), ("j", 10), ("k", 4)], -7⟩⟩

/-- All coefficients are even and the constant is odd, so there are no solutions, and every
assignment satisfies one of the two rounded negations `3 i + 5 j + 2 k ≥ 4` and
`3 i + 5 j + 2 k ≤ 3`. -/
theorem decisions_exact_oddSum :
    ∃ negated, oddSum.isContradiction = .ok true ∧ oddSum.negations = .ok negated ∧
      (∀ x, ¬oddSum.Holds x) ∧ ∀ x, negated.countP (fun d => d.Holds x) = 1 := by
  obtain ⟨negated, hnegated⟩ := Attempt.exists_eq_ok (x := oddSum.negations) (by decide)
  obtain ⟨-, hcontradiction, hnegations⟩ := decisions_exact (c := oddSum) (by decide)
  have hfound : oddSum.isContradiction = .ok true := by decide
  have hnone := (hcontradiction true hfound).mp rfl
  exact ⟨negated, hfound, hnegated, hnone, fun x => (hnegations negated hnegated x).2.mp (hnone x)⟩

end Constraint

end LoopKernel
