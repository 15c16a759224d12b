import LoopKernel.Polyhedron.Basic

/-!
# Bounds of a dimension

Integer bounds of one dimension, read off the constraints that mention it, and the number of values
it can take where that is a constant.
Spec guidance: `SPEC_FULL.md` §12.
-/

namespace LoopKernel

/-- Bounds of a dimension, affine in the other variables. -/
structure DimBounds where
  lower : List Affine
  upper : List Affine
deriving DecidableEq

namespace DimBounds

/-- The quotient rounded up, for a positive divisor. -/
def ceilDiv (n d : Int) : Int := -(-n / d)

/-- The lower bound of `x` from `a * x + rest ≥ 0` with `a > 0`. -/
def lowerFrom (name : String) (a : Int) (rest : Affine) : Attempt PolyhedronError Affine :=
  if a = 1 then rest.neg
  else if rest.isConstant then do pure (.const (ceilDiv (← check64 (-rest.constant)) a))
  else .fail (.nonUnitCoefficient name)

/-- The upper bound of `x` from `-b * x + rest ≥ 0` with `b > 0`. -/
def upperFrom (name : String) (b : Int) (rest : Affine) : Attempt PolyhedronError Affine :=
  if b = 1 then pure rest
  else if rest.isConstant then pure (.const (rest.constant / b))
  else .fail (.nonUnitCoefficient name)

/-- Add the bounds that one constraint puts on a dimension. -/
def addFrom (name : String) (bounds : DimBounds) (c : Constraint) :
    Attempt PolyhedronError DimBounds := do
  let a := c.form.coeff name
  let rest := c.form.without name
  match c.relation with
  | .inequality =>
    if 0 < a then pure { bounds with lower := bounds.lower ++ [← lowerFrom name a rest] }
    else do
      let b ← check64 (-a)
      pure { bounds with upper := bounds.upper ++ [← upperFrom name b rest] }
  | .equality =>
    let (a, rest) ← if a < 0 then do pure (← check64 (-a), ← rest.neg) else pure (a, rest)
    let lower ← lowerFrom name a rest
    let upper ← upperFrom name a (← rest.neg)
    pure ⟨bounds.lower ++ [lower], bounds.upper ++ [upper]⟩

end DimBounds

namespace Polyhedron

/-- The bounds of a dimension in the constraints that mention it (`dim_bounds`). -/
def dimBounds (s : Polyhedron) (name : String) : Attempt PolyhedronError DimBounds :=
  if !s.hasDim name then .fail (.unknownDim name)
  else (s.constraints.filter fun c => c.involves name).foldlM (DimBounds.addFrom name) ⟨[], []⟩

/-- The constants among a list of forms. -/
def constants (forms : List Affine) : List Int :=
  (forms.filter Affine.isConstant).map Affine.constant

/-- Number of values a dimension can take, after projecting out every other variable
(`static_size`). -/
def staticSize (s : Polyhedron) (name : String) : Attempt PolyhedronError Int := do
  if !s.hasDim name then .fail (.unknownDim name)
  else
    let projected ← s.eliminate (s.allVariables.filter fun v => v != name)
    let bounds ← projected.dimBounds name
    match (constants bounds.lower).max?, (constants bounds.upper).min? with
    | some lo, some hi =>
      let span ← check64 (hi - lo)
      pure (max (← check64 (span + 1)) 0)
    | _, _ => .fail (.nonConstantBound name)

end Polyhedron

end LoopKernel
