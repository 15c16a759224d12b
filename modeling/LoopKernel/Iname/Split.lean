import LoopKernel.Diagnostic
import LoopKernel.Kernel.Basic

/-!
# Splitting and tagging loop indices

A loop index is split into an outer and an inner one, the inner one with a given number of values,
so that the index is the length times the outer one plus the inner one.
Spec guidance: `SPEC_FULL.md` §13.
-/

namespace LoopKernel

/-- The two indices that replace an index, and the number of values of the inner one. -/
structure IndexSplit where
  index : String
  outer : String
  inner : String
  length : Int

namespace IndexSplit

/-- The index in terms of the two new ones, as an affine form. -/
def form (s : IndexSplit) : Checked Affine := (Affine.term s.outer s.length).add (.var s.inner)

/-- The index in terms of the two new ones, as an expression. -/
def value (s : IndexSplit) : Expr :=
  .add (.mul (.int s.length) (.var s.outer)) (.var s.inner)

/-- The binders of a reduction, with the index replaced by the two new ones. -/
def splitBinders (s : IndexSplit) (binders : List Binder) : List Binder :=
  binders.flatMap fun b =>
    if b.name = s.index then [⟨s.outer, min b.marks 1⟩, ⟨s.inner, min b.marks 1⟩] else [b]

mutual

/-- An expression in terms of the two new indices. -/
def splitExpr (s : IndexSplit) : Expr → Expr
  | .var name => if name = s.index then s.value else .var name
  | .subscript aggregate index => .subscript aggregate (splitExprs s index)
  | .sum es => .sum (splitExprs s es)
  | .product es => .product (splitExprs s es)
  | .binary op a b => .binary op (splitExpr s a) (splitExpr s b)
  | .call function args => .call function (splitExprs s args)
  | .reduction op binders body => .reduction op (s.splitBinders binders) (splitExpr s body)
  | e => e

/-- Several expressions in terms of the two new indices. -/
def splitExprs (s : IndexSplit) : List Expr → List Expr
  | [] => []
  | e :: rest => splitExpr s e :: splitExprs s rest

end

/-- A set of indices, with the index replaced by the two new ones (`replace_in_set`). -/
def splitNames (s : IndexSplit) (names : NameSet) : NameSet :=
  if names.contains s.index then (names.remove s.index).addAll [s.outer, s.inner] else names

/-- An instruction in terms of the two new indices. -/
def splitInsn (s : IndexSplit) (insn : Instruction) : Instruction :=
  { insn with
    assignee := s.splitExpr insn.assignee
    expression := s.splitExpr insn.expression
    forcedInames := s.splitNames insn.forcedInames
    boostableInto := insn.boostableInto.map s.splitNames }

/-- The domain in terms of the two new indices, with the inner one in its range. The two stand where
the index stood among the dimensions. -/
def splitDomain (s : IndexSplit) (domain : Polyhedron) : Attempt PolyhedronError Polyhedron := do
  let form ← s.form
  let wider ← (← domain.addDim s.outer).addDim s.inner
  let wider ← wider.constrain (← Constraint.ge (.var s.inner) (.const 0))
  let wider ← wider.constrain (← Constraint.lt (.var s.inner) (.const s.length))
  let replaced ← wider.substituteDim s.index form
  pure { replaced with
    dims := domain.dims.flatMap fun d => if d = s.index then [s.outer, s.inner] else [d] }

end IndexSplit

namespace Kernel

/-- Split a loop index (`split_iname`). A new index without a tag is sequential. -/
def splitIname (k : Kernel) (iname : String) (length : Int) (outerTag innerTag : Option IndexTag) :
    Attempt Diagnostic Kernel := do
  if !k.domain.hasDim iname then .fail (.about (.iname iname) .notADimension)
  else if length ≤ 0 then .fail (.about (.iname iname) (.nonPositiveLength length))
  else
    let outer := k.freshVar (iname ++ "_outer") []
    let inner := k.freshVar (iname ++ "_inner") [outer]
    let s : IndexSplit := ⟨iname, outer, inner, length⟩
    let domain ← (s.splitDomain k.domain).mapCause fun e =>
      Diagnostic.about (.iname iname) (.domainChange e)
    let tags := ((k.tags.erase iname).insert outer (outerTag.getD .sequential)).insert inner
      (innerTag.getD .sequential)
    pure { k with domain := domain, instructions := k.instructions.map s.splitInsn, tags := tags }

/-- Set the tags of loop indices (`tag_inames`). -/
def tagInames (k : Kernel) (tags : List (String × IndexTag)) : Attempt Diagnostic Kernel :=
  tags.foldlM
    (fun (out : Kernel) (iname, tag) =>
      if k.domain.hasDim iname then pure { out with tags := out.tags.insert iname tag }
      else .fail (.about (.iname iname) .notADimension))
    k

end Kernel

end LoopKernel
