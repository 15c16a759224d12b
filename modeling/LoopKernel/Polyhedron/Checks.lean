import LoopKernel.Polyhedron.Basic

/-!
# Bounds that are still to be checked

What generated code must test at a point so that the point is in the domain, given what the loops
around it guarantee already.
Spec guidance: `SPEC_FULL.md` §15.
-/

namespace LoopKernel.Polyhedron

/-- The constraints of a domain on some of its dimensions that are not implied by what is
implemented (`approximate_convex_bounds_checks`). The other dimensions are projected out. -/
def boundsChecks (domain : Polyhedron) (inames : NameSet) (implemented : Polyhedron) :
    Checked (List Constraint) := do
  let projection ← (← domain.removeRedundancies).eliminateExcept inames
  pure (← projection.gist implemented).constraints

end LoopKernel.Polyhedron
