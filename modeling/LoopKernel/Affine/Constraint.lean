import LoopKernel.Affine.Form

/-!
# Affine constraints

An affine form required to be nonnegative, or to be zero. A normalized constraint has its
coefficients divided by their greatest common divisor; the constant of an inequality is then rounded
down, which keeps the integer solutions, and an equality starts with a positive coefficient.
Spec guidance: `SPEC_FULL.md` §12 (`Constraint`).
-/

namespace LoopKernel

/-- What is required of a form (`ConstraintKind`): to be nonnegative, or to be zero. -/
inductive Relation where
  | inequality
  | equality
deriving DecidableEq, Repr

/-- Whether an integer is as required. -/
def Relation.Holds : Relation → Int → Prop
  | .inequality, n => 0 ≤ n
  | .equality, n => n = 0

instance (r : Relation) (n : Int) : Decidable (r.Holds n) :=
  match r with
  | .inequality => inferInstanceAs (Decidable (0 ≤ n))
  | .equality => inferInstanceAs (Decidable (n = 0))

/-- An affine condition on integers. -/
structure Constraint where
  relation : Relation
  form : Affine
deriving DecidableEq

namespace Constraint

/-- A form with its coefficients divided by a common divisor, and a given constant. -/
def divideCoeffs (f : Affine) (g : Nat) (constant : Int) : Affine :=
  ⟨f.coeffs.mapValues fun _ c => c / g, constant⟩

/-- An inequality in lowest terms: the constant is divided with rounding down. -/
def tighten (f : Affine) (g : Nat) : Affine :=
  if 1 < g then divideCoeffs f g (f.constant / g) else f

/-- An equality in lowest terms, where the constant is divisible too. -/
def reduce (f : Affine) (g : Nat) : Affine :=
  if 1 < g ∧ f.constant % g = 0 then divideCoeffs f g (f.constant / g) else f

/-- The form or its negation, so that the first coefficient is positive. -/
def orient (f : Affine) : Checked Affine :=
  match f.coeffs.entries with
  | (_, c) :: _ => if c < 0 then f.neg else pure f
  | [] => pure f

/-- The normalized constraint, with the same integer solutions (`normalized`). -/
def normalize (c : Constraint) : Checked Constraint := do
  let g ← c.form.content
  match c.relation with
  | .inequality => pure ⟨.inequality, tighten c.form g⟩
  | .equality => pure ⟨.equality, ← orient (reduce c.form g)⟩

/-- The form is nonnegative (`ge_zero`). -/
def geZero (f : Affine) : Checked Constraint := normalize ⟨.inequality, f⟩

/-- The form is zero (`eq_zero`). -/
def eqZero (f : Affine) : Checked Constraint := normalize ⟨.equality, f⟩

/-- `f ≥ g`. -/
def ge (f g : Affine) : Checked Constraint := do geZero (← f.sub g)

/-- `f ≤ g`. -/
def le (f g : Affine) : Checked Constraint := ge g f

/-- `f < g`, which over the integers is `g - f - 1 ≥ 0`. -/
def lt (f g : Affine) : Checked Constraint := do
  geZero (← (← g.sub f).sub (.const 1))

/-- `f > g`. -/
def gt (f g : Affine) : Checked Constraint := lt g f

/-- `f = g`. -/
def eq (f g : Affine) : Checked Constraint := do eqZero (← f.sub g)

/-- Whether a variable occurs. -/
def involves (c : Constraint) (name : String) : Bool := c.form.coeff name != 0

/-- Whether the constraint is constant and holds (`is_tautology`). -/
def isTautology (c : Constraint) : Bool := c.form.isConstant && c.relation.Holds c.form.constant

/-- Whether no integers satisfy the constraint (`is_contradiction`): it is constant and fails, or it
is an equality whose constant is no multiple of the common divisor of its coefficients. -/
def isContradiction (c : Constraint) : Checked Bool :=
  match c.relation with
  | .inequality => pure (c.form.isConstant && decide (c.form.constant < 0))
  | .equality => do
    let g ← c.form.content
    pure (if c.form.isConstant then c.form.constant != 0 else c.form.constant % g != 0)

/-- Constraints whose solutions together are the integers that violate this one. -/
def negations (c : Constraint) : Checked (List Constraint) := do
  match c.relation with
  | .inequality => pure [← geZero (← (← c.form.neg).sub (.const 1))]
  | .equality =>
    let above ← geZero (← c.form.sub (.const 1))
    let below ← geZero (← (← c.form.neg).sub (.const 1))
    pure [above, below]

/-- Whether an assignment satisfies the constraint, if every variable has a value (`is_satisfied`).
-/
def satisfied? (c : Constraint) (env : String → Option Int) : Checked (Option Bool) := do
  pure ((← c.form.eval env).map fun n => decide (c.relation.Holds n))

/-- Replace a variable by a form, and normalize. -/
def substitute (c : Constraint) (name : String) (value : Affine) : Checked Constraint := do
  normalize ⟨c.relation, ← c.form.substitute name value⟩

/-- Text of a constraint. -/
def text (c : Constraint) : Checked String := do
  let form ← c.form.text
  match c.relation with
  | .inequality => pure (form ++ " >= 0")
  | .equality => pure (form ++ " = 0")

end Constraint

end LoopKernel
