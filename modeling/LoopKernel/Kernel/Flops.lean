import LoopKernel.Diagnostic
import LoopKernel.Kernel.Basic
import LoopKernel.Polyhedron.Count

/-!
# Operation counts

The number of arithmetic operations of a kernel as a polynomial in its parameters: the operations of
each instruction, times the number of points that it runs at.
Spec guidance: `SPEC_FULL.md` §4.9.
-/

namespace LoopKernel

namespace Expr

mutual

/-- Number of operations of an expression (`count`). Reductions count as nothing. -/
def operations : Expr → Nat
  | .int _ | .float _ | .var _ | .tagged _ _ => 0
  | .subscript _ index => operationsOfAll index
  | .sum es | .product es => es.length - 1 + operationsOfAll es
  | .binary _ a b => 1 + a.operations + b.operations
  | .call _ args => operationsOfAll args
  | .reduction _ _ _ => 0

/-- Number of operations of several expressions together. -/
def operationsOfAll : List Expr → Nat
  | [] => 0
  | e :: rest => e.operations + operationsOfAll rest

end

mutual

/-- Number of reductions that are not inside another one. -/
def outerReductions : Expr → Nat
  | .int _ | .float _ | .var _ | .tagged _ _ => 0
  | .subscript _ index => outerReductionsOfAll index
  | .sum es | .product es => outerReductionsOfAll es
  | .binary _ a b => a.outerReductions + b.outerReductions
  | .call _ args => outerReductionsOfAll args
  | .reduction _ _ _ => 1

/-- Number of outer reductions of several expressions together. -/
def outerReductionsOfAll : List Expr → Nat
  | [] => 0
  | e :: rest => e.outerReductions + outerReductionsOfAll rest

end

end Expr

namespace Kernel

/-- Number of points that an instruction runs at. -/
def points (k : Kernel) (insn : Instruction) : Attempt Diagnostic Polynomial := do
  let projection ← k.domain.eliminateExcept (k.insnInames insn)
  projection.cardinality.mapCause fun e => .about (.insn insn.id) (.uncountableDomain e)

/-- Add the operations of an instruction to a total. -/
def addFlops (k : Kernel) (total : Polynomial) (insn : Instruction) :
    Attempt Diagnostic Polynomial :=
  let operations := insn.expression.operations
  if operations = 0 then pure total
  else do
    let points ← k.points insn
    let factor : Int := min operations WordRange.signed64.greatest
    total.add (← points.scale factor)

/-- Number of operations of a kernel (`kernel_flop_poly`). -/
def flops (k : Kernel) : Attempt Diagnostic Polynomial :=
  k.instructions.foldlM k.addFlops .zero

/-- One warning for each reduction that is counted as nothing. -/
def flopWarnings (k : Kernel) : List Diagnostic :=
  k.instructions.flatMap fun insn =>
    List.replicate insn.expression.outerReductions
      (.about (.insn insn.id) .unrealizedReduction)

/-- The value of an operation count for given parameters (`eval`). -/
def flopsAt (flops : Polynomial) (params : String → Option Int) : Attempt Diagnostic Rat :=
  (flops.eval params).mapCause fun e => .about .kernel (.missingParameter e)

end Kernel

end LoopKernel
