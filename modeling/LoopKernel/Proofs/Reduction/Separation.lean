import LoopKernel.Proofs.Execution.Meaning
import LoopKernel.Proofs.WellFormed.Basic
import LoopKernel.Reduction.Realization

/-!
# What accumulators rely on

The accumulator of a reduction has a cell for each valuation of the indices of its owner and of
those that the body mentions outside the reductions in it, for these are all that is left of the
body when the accumulator is made. The cells are right only if the body depends on no other index
around the reduction, and if no other index limits the values of the indices that are bound.
-/

namespace LoopKernel

namespace Expr

mutual

/-- Free names outside reductions, those of subscripted arrays included. -/
def surfaceNames : Expr → NameSet
  | .int _ | .float _ => ∅
  | .var name | .tagged name _ => NameSet.ofList [name]
  | .subscript aggregate index => (surfaceNamesOfAll index).add aggregate
  | .sum es | .product es => surfaceNamesOfAll es
  | .binary _ a b => a.surfaceNames.union b.surfaceNames
  | .call _ args => surfaceNamesOfAll args
  | .reduction _ _ _ => ∅

/-- The free names of several expressions outside reductions. -/
def surfaceNamesOfAll : List Expr → NameSet
  | [] => ∅
  | e :: rest => e.surfaceNames.union (surfaceNamesOfAll rest)

end

mutual

/-- What is free outside reductions is free. -/
theorem mem_dependencies_of_mem_surfaceNames {n : String} :
    (e : Expr) → n ∈ e.surfaceNames → n ∈ e.dependencies
  | .int _, h => by simp [surfaceNames] at h
  | .float _, h => by simp [surfaceNames] at h
  | .var _, h => h
  | .tagged _ _, h => h
  | .subscript _ index, h => by
    simp only [surfaceNames, dependencies, NameSet.mem_add] at h ⊢
    exact h.imp_right (mem_dependenciesOfAll_of_mem_surfaceNamesOfAll index)
  | .sum es, h => mem_dependenciesOfAll_of_mem_surfaceNamesOfAll es h
  | .product es, h => mem_dependenciesOfAll_of_mem_surfaceNamesOfAll es h
  | .binary _ a b, h => by
    simp only [surfaceNames, dependencies, NameSet.mem_union] at h ⊢
    exact h.imp (mem_dependencies_of_mem_surfaceNames a) (mem_dependencies_of_mem_surfaceNames b)
  | .call _ args, h => mem_dependenciesOfAll_of_mem_surfaceNamesOfAll args h
  | .reduction _ _ _, h => by simp [surfaceNames] at h

/-- What is free outside reductions in several expressions is free in them. -/
theorem mem_dependenciesOfAll_of_mem_surfaceNamesOfAll {n : String} :
    (es : List Expr) → n ∈ surfaceNamesOfAll es → n ∈ dependenciesOfAll es
  | [], h => h
  | e :: rest, h => by
    simp only [surfaceNamesOfAll, dependenciesOfAll, NameSet.mem_union] at h ⊢
    exact h.imp (mem_dependencies_of_mem_surfaceNames e)
      (mem_dependenciesOfAll_of_mem_surfaceNamesOfAll rest)

end

/-- A single expression mentions what it mentions. -/
theorem mem_dependenciesOfAll_singleton {e : Expr} {n : String} :
    n ∈ dependenciesOfAll [e] ↔ n ∈ e.dependencies := by
  simp [dependenciesOfAll]

/-- A single expression mentions outside reductions what it mentions there. -/
theorem mem_surfaceNamesOfAll_singleton {e : Expr} {n : String} :
    n ∈ surfaceNamesOfAll [e] ↔ n ∈ e.surfaceNames := by
  simp [surfaceNamesOfAll]

/-- A reduction mentions what its body mentions, but for the bound names. -/
theorem mem_dependencies_reduction {op : ReductionOp} {binders : List Binder} {body : Expr}
    {n : String} : n ∈ (reduction op binders body).dependencies ↔
      n ∈ body.dependencies ∧ n ∉ boundNames binders := by
  rw [dependencies, NameSet.mem_diff]
  rfl

end Expr

namespace Kernel

/-- The indices that the accumulator of a reduction has cells for: those of the owner and those that
the body mentions outside the reductions in it, without the bound ones. -/
def cellInames (k : Kernel) (own bound : NameSet) (body : Expr) : NameSet :=
  (own.union (body.surfaceNames.select k.domain.hasDim)).diff bound

/-- The indices of the cells are mentioned outside reductions or those of the owner, and not
bound. -/
theorem mem_cellInames {k : Kernel} {own bound : NameSet} {body : Expr} {n : String} :
    n ∈ k.cellInames own bound body ↔
      (n ∈ own ∨ n ∈ body.surfaceNames ∧ k.domain.hasDim n = true) ∧ n ∉ bound := by
  rw [cellInames, NameSet.mem_diff, NameSet.mem_union, NameSet.mem_select]

/-- Whether the accumulator of a reduction can hold its value, for the indices of the owner, the
lanes among them, and all indices around the reduction. -/
structure Separates (k : Kernel) (env : String → Int) (own : NameSet) (lanes : List String)
    (around : NameSet) (op : ReductionOp) (bound : NameSet) (body : Expr) : Prop where
  /-- The indices that are bound are dimensions. -/
  dims : ∀ n ∈ bound, k.domain.hasDim n = true
  /-- No lane of the owner is bound. -/
  lanes : ∀ n ∈ lanes, n ∉ bound
  /-- The neutral element mentions no index. -/
  neutral : ∀ n ∈ op.neutral.dependencies, n ∉ own ∧ k.domain.hasDim n = false
  /-- What the body mentions in the reductions in it, it mentions outside of them too, unless it is
  bound or an index of the owner. -/
  mentions : ∀ n ∈ body.dependencies, k.domain.hasDim n = true →
    n ∈ own ∨ n ∈ bound ∨ n ∈ body.surfaceNames
  /-- The values of the bound indices depend on no index around but those of the cells. -/
  independent : ∀ x ∈ k.domain.pointsAt env, ∀ z ∈ k.domain.pointsAt env,
    (∀ n ∈ k.cellInames own bound body, z n = x n) →
      ∃ y ∈ k.domain.pointsAt env,
        (∀ n ∈ around, n ∉ bound → y n = x n) ∧ ∀ n ∈ bound, y n = z n

/-- The bound indices depend on no others if all indices around have cells. -/
theorem independent_of_mentions {k : Kernel} {env : String → Int} {own around bound : NameSet}
    {body : Expr}
    (h : ∀ n ∈ around, n ∉ bound → n ∈ own ∨ k.domain.hasDim n = true ∧ n ∈ body.surfaceNames) :
    ∀ x ∈ k.domain.pointsAt env, ∀ z ∈ k.domain.pointsAt env,
      (∀ n ∈ k.cellInames own bound body, z n = x n) →
        ∃ y ∈ k.domain.pointsAt env,
          (∀ n ∈ around, n ∉ bound → y n = x n) ∧ ∀ n ∈ bound, y n = z n := by
  intro x _ z hz hagree
  refine ⟨z, hz, fun n hn hb => hagree n ?_, fun _ _ => rfl⟩
  exact mem_cellInames.mpr ⟨(h n hn hb).imp_right And.symm, hb⟩

variable (k : Kernel) (env : String → Int) (own : NameSet) (lanes : List String)

mutual

/-- Whether the accumulators of all reductions in an expression can hold their values. -/
def Realizable (around : NameSet) : Expr → Prop
  | .int _ | .float _ | .var _ | .tagged _ _ => True
  | .subscript _ index => RealizableAll around index
  | .sum es | .product es => RealizableAll around es
  | .binary _ a b => Realizable around a ∧ Realizable around b
  | .call _ args => RealizableAll around args
  | .reduction op binders body =>
    k.Separates env own lanes around op (Expr.boundNames binders) body ∧
      Realizable (around.union (Expr.boundNames binders)) body

/-- Whether the accumulators of all reductions in several expressions can hold their values. -/
def RealizableAll (around : NameSet) : List Expr → Prop
  | [] => True
  | e :: rest => Realizable around e ∧ RealizableAll around rest

end

end Kernel

end LoopKernel
