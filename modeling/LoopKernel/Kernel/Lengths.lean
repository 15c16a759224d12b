import LoopKernel.Diagnostic
import LoopKernel.Kernel.Basic
import LoopKernel.Polyhedron.Bounds

/-!
# Lengths of loops

The number of iterations of a loop index, and of the local axes that indices are tagged with.
Spec guidance: `SPEC_FULL.md` §§4.3/4.4.
-/

namespace LoopKernel.Kernel

/-- Number of iterations of a loop index, which must be a constant (`constant_iname_length`). -/
def inameLength (k : Kernel) (iname : String) : Attempt Diagnostic Int :=
  if k.domain.hasDim iname then
    (k.domain.staticSize iname).mapCause fun e => .about (.iname iname) (.nonConstantLength e)
  else .fail (.about (.iname iname) .notADimension)

/-- Greatest number of local axes; the lengths of more do not fit in memory. -/
def maxAxes : Nat := 1 <<< 60 - 1

/-- Raise the length of an axis to at least `length`; axes that the list does not reach yet have
length one. -/
def raiseAxis (lengths : List Int) (axis : Nat) (length : Int) : List Int :=
  (lengths ++ List.replicate (axis + 1 - lengths.length) 1).modify axis (max length)

/-- Take account of one tagged index in the list of axis lengths. -/
def addAxisLength (k : Kernel) (lengths : List Int) (iname : String) (tag : IndexTag) :
    Attempt Diagnostic (List Int) :=
  match tag with
  | .localAxis axis => do
    let length ← k.inameLength iname
    if axis + 1 ≤ maxAxes then pure (raiseAxis lengths axis length) else .overflow
  | _ => pure lengths

/-- Lengths of the local axes that indices are tagged with (`local_axis_lengths`). An axis without
an index has length one. -/
def localAxisLengths (k : Kernel) : Attempt Diagnostic (List Int) :=
  k.tags.entries.foldlM (fun lengths (iname, tag) => k.addAxisLength lengths iname tag) []

end LoopKernel.Kernel
