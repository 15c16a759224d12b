import LoopKernel.Polyhedron.Bounds

/-!
# Listing points

All integer points of a polyhedron for given parameter values, in lexicographic order of its
dimensions. The range of each dimension comes from the projection onto it and the ones before it.
Spec guidance: `SPEC_FULL.md` §12.
-/

namespace LoopKernel

/-- An integer point: coordinates by dimension name. -/
abbrev Point := SortedMap String Int

namespace Polyhedron

/-- Replace the parameters among a list of variables by their values. -/
def fixParams (s : Polyhedron) (params : String → Option Int) :
    List String → Constraint → Attempt PolyhedronError Constraint
  | [], c => pure c
  | v :: rest, c =>
    if s.hasDim v then fixParams s params rest c
    else
      match params v with
      | none => .fail (.missingParameter v)
      | some value => do fixParams s params rest (← c.substitute v (.const value))

/-- The polyhedron for given parameter values. -/
def atParams (s : Polyhedron) (params : String → Option Int) :
    Attempt PolyhedronError Polyhedron :=
  s.constraints.foldlM
    (fun (out : Polyhedron) c => do out.constrain (← fixParams s params c.form.vars c))
    (whole s.dims)

/-- Pair each dimension with the constraints on it and the dimensions before it. The dimensions come
in reverse order, with the constraints on all of them. -/
def projections (constraints : List Constraint) :
    List String → Checked (List (String × List Constraint))
  | [] => pure []
  | name :: outer => do
    let earlier ← projections (← Constraint.eliminate name constraints) outer
    pure (earlier ++ [(name, constraints)])

/-- A range of integers of which either end may be missing. -/
structure Range where
  lo : Option Int
  hi : Option Int
deriving DecidableEq, Repr

/-- The range with its lower end raised to at least `n`. -/
def Range.raise (r : Range) (n : Int) : Range :=
  { r with lo := some (match r.lo with | none => n | some m => max m n) }

/-- The range with its upper end lowered to at most `n`. -/
def Range.lower (r : Range) (n : Int) : Range :=
  { r with hi := some (match r.hi with | none => n | some m => min m n) }

/-- The range of a dimension under its constraints, where the coordinates before it are known.
Nothing is left when an equality has no integer solution. -/
def rangeOf (name : String) (point : Point) (range : Range) :
    List Constraint → Checked (Option Range)
  | [] => pure (some range)
  | c :: rest =>
    let a := c.form.coeff name
    if a = 0 then rangeOf name point range rest
    else do
      match ← (c.form.without name).eval point.get? with
      | none => rangeOf name point range rest
      | some n =>
        match c.relation with
        | .inequality =>
          if 0 < a then
            rangeOf name point (range.raise (DimBounds.ceilDiv (← check64 (-n)) a)) rest
          else rangeOf name point (range.lower (n / (← check64 (-a)))) rest
        | .equality =>
          if n % a ≠ 0 then pure none
          else
            let value := (← check64 (-n)) / a
            rangeOf name point ((range.raise value).lower value) rest

/-- Run an action on `count` consecutive integers from `first` on, and join the results. -/
def forConsecutive {α : Type} (action : Int → Attempt PolyhedronError (List α)) :
    Nat → Int → Attempt PolyhedronError (List α)
  | 0, _ => pure []
  | count + 1, first => do
    let here ← action first
    pure (here ++ (← forConsecutive action count (first + 1)))

/-- The points that extend a point by the listed dimensions and satisfy all constraints
(`enumerate_level`). -/
def extendPoint (constraints : List Constraint) :
    List (String × List Constraint) → Point → Attempt PolyhedronError (List Point)
  | [], point => do
    let holds ← (constraints.allM fun c => do
      pure ((← c.satisfied? point.get?) == some true) : Checked Bool)
    pure (if holds then [point] else [])
  | (name, onName) :: rest, point => do
    match ← (rangeOf name point ⟨none, none⟩ onName : Checked _) with
    | none => pure []
    | some ⟨some lo, some hi⟩ =>
      forConsecutive (fun value => extendPoint constraints rest (point.insert name value))
        (hi - lo + 1).toNat lo
    | some _ => .fail (.unbounded name)

/-- All integer points for given parameter values, in lexicographic order of the dimensions
(`enumerate_points`). -/
def enumeratePoints (s : Polyhedron) (params : String → Option Int) :
    Attempt PolyhedronError (List Point) := do
  let fixed ← s.atParams params
  if ← (fixed.constraints.anyM Constraint.isContradiction : Checked Bool) then pure []
  else
    let levels ← (projections fixed.constraints s.dims.reverse : Checked _)
    extendPoint fixed.constraints levels ∅

end Polyhedron

end LoopKernel
