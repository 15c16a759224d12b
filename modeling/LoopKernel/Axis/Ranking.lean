import LoopKernel.Expr.Evaluation
import LoopKernel.Kernel.Strides

/-!
# Loop indices ranked by stride

How far apart in memory the accesses of an instruction are when a loop index goes up by one, in
bytes and added up over its accesses to global arrays. Products and sums stay at the end of the
range of signed 64-bit words when they would leave it.
Spec guidance: `SPEC_FULL.md` §4.4.
-/

namespace LoopKernel

/-- The product, or the end of the range of signed 64-bit words beyond which it is. -/
def saturatingMul (a b : Int) : Int := WordRange.signed64.clamp (a * b)

/-- The sum, or the end of the range of signed 64-bit words beyond which it is. -/
def saturatingAdd (a b : Int) : Int := WordRange.signed64.clamp (a + b)

/-- Distance in bytes of neighbouring accesses, from the coefficient of the index, the element
stride and the size of an element. -/
def strideBytes (coefficient stride itemsize : Int) : Checked Int :=
  Affine.magnitude (saturatingMul (saturatingMul coefficient stride) itemsize)

namespace Kernel

/-- The array accesses of an instruction: those of its expression, then the one it assigns to. -/
def accesses (insn : Instruction) : List (String × List Expr) :=
  insn.expression.arrayAccesses ++
    match insn.assignee with
    | .subscript aggregate index => [(aggregate, index)]
    | _ => []

/-- The smaller of a distance and the one noted for an index. -/
def noteSmaller (distances : SortedMap String Int) (iname : String) (bytes : Int) :
    SortedMap String Int :=
  match distances.get? iname with
  | some old => distances.insert iname (min old bytes)
  | none => distances.insert iname bytes

/-- Note the distances that one subscript gives to the indices in a set. -/
def noteSubscript (inames : NameSet) (env : String → Option Int) (itemsize : Nat)
    (distances : SortedMap String Int) (subscript stride : Expr) :
    Checked (SortedMap String Int) := do
  let form ← subscript.toAffine?
  let stride ← stride.evalInt env
  match form, stride with
  | some form, some stride =>
    (form.vars.filter inames.contains).foldlM
      (fun distances iname => do
        pure (noteSmaller distances iname (← strideBytes (form.coeff iname) stride itemsize)))
      distances
  | _, _ => pure distances

/-- Add the distances of one access to the totals. -/
def addAccess (k : Kernel) (inames : NameSet) (totals : SortedMap String Int)
    (access : String × List Expr) : Checked (SortedMap String Int) := do
  let some arg := k.arg? access.1 | pure totals
  let some strides := arg.strides? | pure totals
  let distances ← (access.2.zip strides).foldlM
    (fun distances (subscript, stride) =>
      noteSubscript inames k.approximateValues.get? arg.dtype.itemsize distances subscript stride)
    ∅
  pure (distances.entries.foldl
    (fun totals (iname, bytes) =>
      totals.insert iname (saturatingAdd (totals.getD iname 0) bytes))
    totals)

/-- The loop indices of an instruction, those with the smallest distances first
(`auto_axis_iname_ranking_by_stride`). Only indices whose axis is to be chosen have a distance; the
others come last. There is no ranking when no access has a distance. -/
def strideRanking (k : Kernel) (insn : Instruction) : Checked (Option (List String)) := do
  let inames := k.insnInames insn
  let auto := inames.select fun i => (k.tag i).isAuto
  let totals ← (accesses insn).foldlM (k.addAccess auto) ∅
  let key (iname : String) : Int := totals.getD iname WordRange.signed64.greatest
  pure (if totals.isEmpty then none
    else some (inames.toList.mergeSort fun a b => key a ≤ key b))

end Kernel

end LoopKernel
