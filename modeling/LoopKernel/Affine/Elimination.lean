import LoopKernel.Affine.Constraint

/-!
# Eliminating a variable

Fourier–Motzkin elimination of one variable from a list of constraints. An equality that mentions
the variable is solved for it; otherwise every lower bound is paired with every upper bound. Each
derived constraint follows from two of the given ones, and is normalized.
Spec guidance: `SPEC_FULL.md` §12 (`eliminate`).
-/

namespace LoopKernel.Constraint

/-- Append a constraint, unless it always holds or is in the list already (`push_unique`). -/
def pushUnique (out : List Constraint) (c : Constraint) : List Constraint :=
  if c.isTautology || out.contains c then out else out ++ [c]

/-- Whether the constraint is an equality that mentions a variable. -/
def isPivot (name : String) (c : Constraint) : Bool :=
  c.relation == .equality && c.involves name

/-- The form of a pivot and its coefficient of the variable, which is made positive. -/
def orientedPivot (name : String) (pivot : Constraint) : Checked (Affine × Int) :=
  if pivot.form.coeff name < 0 then do
    pure (← pivot.form.neg, ← check64 (-pivot.form.coeff name))
  else pure (pivot.form, pivot.form.coeff name)

/-- Cancel a variable of a constraint against a form with positive coefficient `a` that is zero. -/
def cancel (name : String) (pivot : Affine) (a : Int) (c : Constraint) : Checked Constraint :=
  let b := c.form.coeff name
  if b = 0 then pure c
  else do normalize ⟨c.relation, ← (← c.form.scale a).sub (← pivot.scale b)⟩

/-- Add up a lower and an upper bound so that the variable cancels. -/
def combine (name : String) (lower upper : Constraint) : Checked Constraint := do
  let a := lower.form.coeff name
  let b ← check64 (-upper.form.coeff name)
  geZero (← (← lower.form.scale b).add (← upper.form.scale a))

/-- Every pair of a lower and an upper bound, in the order of the lower ones. -/
def boundPairs (lowers uppers : List Constraint) : List (Constraint × Constraint) :=
  lowers.flatMap fun l => uppers.map fun u => (l, u)

/-- Eliminate a variable from a list of constraints (`eliminate_var`). -/
def eliminate (name : String) (constraints : List Constraint) : Checked (List Constraint) :=
  match constraints.findIdx? (isPivot name) with
  | some position => do
    let pivot := constraints.getD position ⟨.equality, .const 0⟩
    let (form, a) ← orientedPivot name pivot
    (constraints.eraseIdx position).foldlM
      (fun out c => do pure (pushUnique out (← cancel name form a c)))
      []
  | none =>
    let lowers := constraints.filter fun c => 0 < c.form.coeff name
    let uppers := constraints.filter fun c => c.form.coeff name < 0
    let others := constraints.filter fun c => c.form.coeff name = 0
    (boundPairs lowers uppers).foldlM
      (fun out (lower, upper) => do pure (pushUnique out (← combine name lower upper)))
      (others.foldl pushUnique [])

/-- Eliminate several variables, one after the other. -/
def eliminateAll (names : List String) (constraints : List Constraint) :
    Checked (List Constraint) :=
  names.foldlM (fun constraints name => eliminate name constraints) constraints

end LoopKernel.Constraint
