import LoopKernel.Affine.Elimination

/-!
# Polyhedra over named dimensions

A conjunction of affine constraints over a list of named dimensions. Variables of the constraints
that are no dimensions are parameters.
Spec guidance: `SPEC_FULL.md` §12 (`BasicSet`).
-/

namespace LoopKernel

/-- A conjunction of constraints over named dimensions. -/
structure Polyhedron where
  dims : List String
  constraints : List Constraint
deriving DecidableEq

/-- Why a question about a polyhedron has no answer (`DomainError`). -/
inductive PolyhedronError where
  | unknownDim (name : String)
  | duplicateDim (name : String)
  | unbounded (name : String)
  | nonConstantBound (name : String)
  | nonUnitCoefficient (name : String)
  | notCountable (name : String)
  | missingParameter (name : String)
deriving DecidableEq, Repr

/-- The wording of an error. -/
def PolyhedronError.message : PolyhedronError → String
  | .unknownDim name => "unknown dimension '" ++ name ++ "'"
  | .duplicateDim name => "dimension '" ++ name ++ "' already exists"
  | .unbounded name => "dimension '" ++ name ++ "' is unbounded"
  | .nonConstantBound name => "extent of '" ++ name ++ "' is not a compile-time constant"
  | .nonUnitCoefficient name => "bound on '" ++ name ++ "' has a non-unit coefficient"
  | .notCountable name => "bounds on '" ++ name ++ "' are piecewise; cannot count points"
  | .missingParameter name => MissingParameter.message ⟨name⟩

namespace Polyhedron

/-- All integer points over the given dimensions (`universe`). -/
def whole (dims : List String) : Polyhedron := ⟨dims, []⟩

instance : Inhabited Polyhedron := ⟨whole []⟩

/-- The polyhedron with one more constraint, unless it always holds or is present already
(`add_constraint`). -/
def constrain (s : Polyhedron) (c : Constraint) : Checked Polyhedron := do
  pure { s with constraints := Constraint.pushUnique s.constraints (← c.normalize) }

/-- Whether a name is a dimension. -/
def hasDim (s : Polyhedron) (name : String) : Bool := s.dims.contains name

/-- The variables of the constraints that are no dimensions. -/
def params (s : Polyhedron) : NameSet :=
  NameSet.ofList ((s.constraints.flatMap fun c => c.form.vars).filter fun v => !s.hasDim v)

/-- The dimensions, then the parameters. -/
def allVariables (s : Polyhedron) : List String := s.dims ++ s.params.toList

/-- The polyhedron with one more, unconstrained dimension (`add_dim`). -/
def addDim (s : Polyhedron) (name : String) : Attempt PolyhedronError Polyhedron :=
  if s.hasDim name then .fail (.duplicateDim name) else pure { s with dims := s.dims ++ [name] }

/-- Add a dimension under the same constraints as an existing one (`duplicate_axis`). -/
def duplicateAxis (s : Polyhedron) (old new : String) : Attempt PolyhedronError Polyhedron := do
  if !s.hasDim old then .fail (.unknownDim old)
  else
    let out ← s.addDim new
    (s.constraints.filter fun c => c.involves old).foldlM
      (fun (out : Polyhedron) c => do out.constrain (← c.substitute old (.var new)))
      out

/-- Replace a dimension by a form in other variables (`substitute_dim`). -/
def substituteDim (s : Polyhedron) (name : String) (value : Affine) :
    Attempt PolyhedronError Polyhedron :=
  if !s.hasDim name then .fail (.unknownDim name)
  else
    s.constraints.foldlM
      (fun (out : Polyhedron) c => do out.constrain (← c.substitute name value))
      (whole (s.dims.filter fun d => d != name))

/-- Project out variables, dimensions or parameters. -/
def eliminate (s : Polyhedron) (names : List String) : Checked Polyhedron := do
  pure ⟨s.dims.filter fun d => !names.contains d, ← Constraint.eliminateAll names s.constraints⟩

/-- Project out every dimension that is not to be kept (`eliminate_except`). Parameters stay. -/
def eliminateExcept (s : Polyhedron) (keep : NameSet) : Checked Polyhedron :=
  s.eliminate (s.dims.filter fun d => !keep.contains d)

/-- The points in both polyhedra, with dimensions identified by name. -/
def intersect (s t : Polyhedron) : Checked Polyhedron :=
  let addNew (dims : List String) (d : String) := if dims.contains d then dims else dims ++ [d]
  t.constraints.foldlM constrain { s with dims := t.dims.foldl addNew s.dims }

/-- Whether elimination of all variables shows that there is no point, for any parameters
(`is_empty`). -/
def isEmpty (s : Polyhedron) : Checked Bool := do
  if ← s.constraints.anyM Constraint.isContradiction then pure true
  else (← s.eliminate s.allVariables).constraints.anyM Constraint.isContradiction

/-- Whether every point is shown to satisfy a constraint: adding any negation leaves nothing. -/
def implies (s : Polyhedron) (c : Constraint) : Checked Bool := do
  (← c.negations).allM fun negation => do (← s.constrain negation).isEmpty

/-- Drop the constraints that a context implies already. -/
def gist (s context : Polyhedron) : Checked Polyhedron := do
  let aligned ← context.intersect (whole s.dims)
  pure { s with constraints := ← s.constraints.filterM fun c => do pure (!(← aligned.implies c)) }

/-- Go through constraints in order, dropping each one that the kept ones before it and all the ones
after it imply. -/
def dropRedundant (dims : List String) (kept : List Constraint) :
    List Constraint → Checked (List Constraint)
  | [] => pure kept
  | c :: rest => do
    if ← (⟨dims, kept ++ rest⟩ : Polyhedron).implies c then dropRedundant dims kept rest
    else dropRedundant dims (kept ++ [c]) rest

/-- Drop constraints implied by the remaining ones (`remove_redundancies`). -/
def removeRedundancies (s : Polyhedron) : Checked Polyhedron := do
  pure { s with constraints := ← dropRedundant s.dims [] s.constraints }

/-- Text of a polyhedron: its dimensions, then its constraints. -/
def text (s : Polyhedron) : Checked String := do
  let constraints ← s.constraints.mapM Constraint.text
  let condition := if constraints.isEmpty then "" else " : " ++ " and ".intercalate constraints
  pure ("\x7b [" ++ ", ".intercalate s.dims ++ "]" ++ condition ++ " \x7d")

end Polyhedron

end LoopKernel
