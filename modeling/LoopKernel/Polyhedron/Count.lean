import LoopKernel.Polyhedron.Bounds
import LoopKernel.Polynomial.Summation

/-!
# Counting points

The number of integer points of a polyhedron, as a polynomial in its parameters. Dimensions are
summed from the last to the first. Where no single bound of a dimension is the tightest everywhere,
the polyhedron is cut in two along the difference of two bounds.
Spec guidance: `SPEC_FULL.md` §12.
-/

namespace LoopKernel.Polyhedron

/-- Which end of a range a bound is for. -/
inductive RangeEnd where
  | lower
  | upper
deriving DecidableEq, Repr

/-- The tightest of several bounds, or a form whose sign decides between two of them. -/
inductive Dominance where
  | bound (form : Affine)
  | incomparable (split : Affine)
deriving DecidableEq

/-- `f - g` for lower bounds, `g - f` for upper ones: nonnegative where `f` is at least as tight. -/
def tightness (rangeEnd : RangeEnd) (f g : Affine) : Checked Affine :=
  match rangeEnd with
  | .lower => f.sub g
  | .upper => g.sub f

/-- Whether a bound is at least as tight as another one everywhere in a context. -/
def isTighter (context : Polyhedron) (rangeEnd : RangeEnd) (f g : Affine) : Checked Bool := do
  context.implies (← Constraint.geZero (← tightness rangeEnd f g))

/-- The first bound of a list that is as tight as all of `all`. -/
def tightest? (context : Polyhedron) (rangeEnd : RangeEnd) (all : List Affine) :
    List Affine → Checked (Option Affine)
  | [] => pure none
  | f :: rest => do
    if ← all.allM fun g => isTighter context rangeEnd f g then pure (some f)
    else tightest? context rangeEnd all rest

/-- The first bound of a list than which a given one is not tighter. -/
def rival? (context : Polyhedron) (rangeEnd : RangeEnd) (f : Affine) :
    List Affine → Checked (Option Affine)
  | [] => pure none
  | g :: rest => do
    if ← isTighter context rangeEnd f g then rival? context rangeEnd f rest else pure (some g)

/-- The bound that is the tightest of all in a context, or two bounds that it does not order
(`dominant_bound`). -/
def dominantBound (candidates : List Affine) (context : Polyhedron) (rangeEnd : RangeEnd)
    (name : String) : Attempt PolyhedronError Dominance :=
  match candidates.foldl (fun out f => if out.contains f then out else out ++ [f]) [] with
  | [] => .fail (.unbounded name)
  | [f] => pure (.bound f)
  | first :: others => do
    match ← (tightest? context rangeEnd (first :: others) (first :: others) : Checked _) with
    | some f => pure (.bound f)
    | none =>
      match ← (rival? context rangeEnd first others : Checked _) with
      | none => .fail (.notCountable name)
      | some other => pure (.incomparable (← tightness rangeEnd first other))

/-- Bound on the cuts made one inside the other. -/
def maxCuts : Nat := 32

/-- The two sides of a cut along a form: where the form is nonnegative, and where it is negative. -/
def cutAlong (split : Affine) : Checked (Constraint × Constraint) := do
  let above ← Constraint.geZero split
  let below ← Constraint.geZero (← (← split.neg).sub (.const 1))
  pure (above, below)

/-- Run an action on the piece of a polyhedron on one side of a cut, unless there is nothing. -/
def onPiece {α : Type} (s : Polyhedron) (cut : Constraint) (none : α)
    (action : Polyhedron → Attempt PolyhedronError α) : Attempt PolyhedronError α := do
  let piece ← s.constrain cut
  if ← piece.isEmpty then pure none else action piece

/-- Sum a polynomial over the points, for dimensions listed from the innermost outwards, with a
number of cuts left (`count_chamber`). A cut must involve an outer dimension: one over parameters
alone would separate parameter values, whose counts must not be added. -/
def sumOverPoints (s : Polyhedron) (count : Polynomial) :
    (dims : List String) → (cutsLeft : Nat) → Attempt PolyhedronError Polynomial
  | [], _ => pure count
  | name :: outer, cutsLeft => do
    let bounds ← s.dimBounds name
    let context ← s.eliminate [name]
    let lower ← dominantBound bounds.lower context .lower name
    let upper ← dominantBound bounds.upper context .upper name
    match lower, upper, cutsLeft with
    | .bound lower, .bound upper, cutsLeft =>
      let count ← count.sumOver name (← lower.toPolynomial) (← upper.toPolynomial)
      sumOverPoints context count outer cutsLeft
    | .incomparable split, _, cutsLeft + 1 | _, .incomparable split, cutsLeft + 1 =>
      if outer.all fun d => split.coeff d == 0 then .fail (.notCountable name)
      else do
        let (above, below) ← cutAlong split
        let part (cut : Constraint) :=
          s.onPiece cut .zero fun piece => sumOverPoints piece count (name :: outer) cutsLeft
        let total ← Polynomial.add .zero (← part above)
        total.add (← part below)
    | _, _, 0 => .fail (.notCountable name)
termination_by dims cutsLeft => (dims.length, cutsLeft)

/-- Number of integer points, as a polynomial in the parameters. -/
def cardinality (s : Polyhedron) : Attempt PolyhedronError Polynomial :=
  sumOverPoints s (.ofInt 1) s.dims.reverse maxCuts

end LoopKernel.Polyhedron
