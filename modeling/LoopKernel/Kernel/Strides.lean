import LoopKernel.Kernel.Basic

/-!
# Strides of arrays

Element strides of row-major arrays: one for the last axis, and for each other axis the product of
the extents after it.
Spec guidance: `SPEC_FULL.md` §4.4.
-/

namespace LoopKernel

/-- The stride of an axis, from the stride and the extent of the axis after it. -/
def strideBefore (stride extent : Expr) : Expr :=
  match stride with
  | .int 1 => extent
  | stride => .mul stride extent

/-- Strides of a row-major array with given extents. -/
def rowMajorStrides : List Expr → List Expr
  | [] => []
  | _ :: rest =>
    match rest, rowMajorStrides rest with
    | extent :: _, stride :: strides => strideBefore stride extent :: stride :: strides
    | _, _ => [.int 1]

/-- Strides of a global array. -/
def Argument.strides? (arg : Argument) : Option (List Expr) :=
  match arg.kind with
  | .global shape => some (rowMajorStrides shape)
  | _ => none

end LoopKernel
