import LoopKernel.Diagnostic
import LoopKernel.Expr.Basic
import LoopKernel.Source.Tree

/-!
# Expressions of source trees

The expression that a source tree stands for. Reductions take the element type of what is assigned,
and run over dimensions of the domain only.
Spec guidance: `SPEC_FULL.md` §11.
-/

namespace LoopKernel.Source

/-- What an expression is read against: the dimensions, and the element type of reductions. -/
structure Scope where
  dims : List String
  dtype : Dtype

/-- The expression of an operator on two expressions. -/
def Operator.apply (op : Operator) (l r : Expr) : Checked Expr :=
  match op with
  | .add => pure (.add l r)
  | .sub => Expr.sub l r
  | .mul => pure (.mul l r)
  | .div => pure (.binary .quotient l r)
  | .floorDiv => pure (.binary .floorDiv l r)
  | .mod => pure (.binary .remainder l r)
  | .pow => pure (.binary .power l r)

/-- The bound indices of a reduction, which must be dimensions. -/
def lowerIndices (scope : Scope) (span : Span) :
    List BoundIndex → Attempt Diagnostic (List Binder)
  | [] => pure []
  | b :: rest =>
    if scope.dims.contains b.index.name then do
      pure (⟨b.index.name, if b.marked then 1 else 0⟩ :: (← lowerIndices scope span rest))
    else
      .fail ((Diagnostic.about (.iname b.index.name) .reductionOverOtherName).relatedTo
        (.source span) "reduction here")

/-- The name in front of the body, where `max` or `min` is used as a function of two values. -/
def binaryOperand? (scope : Scope) (op : ReductionKind) (indices : List BoundIndex) :
    Option String :=
  match op, indices with
  | .max, [b] | .min, [b] =>
    if !b.marked && !scope.dims.contains b.index.name then some b.index.name else none
  | _, _ => none

mutual

/-- The expression of a source tree. -/
def lower (scope : Scope) : Term → Attempt Diagnostic Expr
  | .int _ n => pure (.int n)
  | .float _ x => pure (.float x)
  | .var _ name => pure (.var name)
  | .tagged _ name tag => pure (.tagged name tag)
  | .subscript _ aggregate index => do pure (.subscript aggregate.name (← lowerAll scope index))
  | .neg _ operand => do (← lower scope operand).negate
  | .binary _ op left right => do
    let l ← lower scope left
    let r ← lower scope right
    op.apply l r
  | .call _ function args => do pure (.call function.name (← lowerAll scope args))
  | .reduce span op _ indices body => do
    let body ← lower scope body
    match binaryOperand? scope op indices with
    | some name => pure (.call op.name [.var name, body])
    | none => pure (.reduction ⟨op, scope.dtype⟩ (← lowerIndices scope span indices) body)

/-- The expressions of several source trees. -/
def lowerAll (scope : Scope) : List Term → Attempt Diagnostic (List Expr)
  | [] => pure []
  | t :: rest => do
    let e ← lower scope t
    pure (e :: (← lowerAll scope rest))

end

end LoopKernel.Source
