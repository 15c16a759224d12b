import LoopKernel.Kernel.Basic
import LoopKernel.Proofs.NameSet

/-!
# Free occurrences

Where a name occurs freely in an expression, said apart from the collection of names: as a variable,
with a tag, or as the name of a subscripted array, and not below a reduction that binds it. The
names that are collected are those that occur so.
-/

namespace LoopKernel

namespace Expr

/-- The names that the outermost operation of an expression binds. -/
def boundHere : Expr → List String
  | .reduction _ binders _ => binders.map Binder.name
  | _ => []

/-- Whether a name occurs in an expression and no reduction around the occurrence binds it. -/
inductive OccursFree (name : String) : Expr → Prop
  | var : OccursFree name (.var name)
  | tagged (tag : String) : OccursFree name (.tagged name tag)
  | aggregate (index : List Expr) : OccursFree name (.subscript name index)
  | child {e c : Expr} (hchild : c ∈ e.children) (hfree : name ∉ e.boundHere)
      (h : OccursFree name c) : OccursFree name e

variable {n : String}

/-- In an expression that is no name, names occur where they occur in its parts. -/
private theorem occursFree_iff_child {e : Expr} (hvar : e ≠ .var n)
    (htagged : ∀ tag, e ≠ .tagged n tag) (haggregate : ∀ index, e ≠ .subscript n index) :
    e.OccursFree n ↔ n ∉ e.boundHere ∧ ∃ c ∈ e.children, c.OccursFree n := by
  constructor
  · intro h
    cases h with
    | var => exact absurd rfl hvar
    | tagged tag => exact absurd rfl (htagged tag)
    | aggregate index => exact absurd rfl (haggregate index)
    | child hchild hfree h => exact ⟨hfree, _, hchild, h⟩
  · rintro ⟨hfree, c, hchild, h⟩
    exact .child hchild hfree h

mutual

/-- The names that are collected are those that occur freely. -/
theorem mem_dependencies_iff_occursFree : (e : Expr) → (n ∈ e.dependencies ↔ e.OccursFree n)
  | .int _ | .float _ => by simp [dependencies, occursFree_iff_child, children]
  | .var name => by
    rw [dependencies, NameSet.mem_ofList, List.mem_singleton]
    constructor
    · rintro rfl
      exact .var
    · intro h
      cases h with
      | var => rfl
      | child hchild _ _ => cases hchild
  | .tagged name tag => by
    rw [dependencies, NameSet.mem_ofList, List.mem_singleton]
    constructor
    · rintro rfl
      exact .tagged tag
    · intro h
      cases h with
      | tagged => rfl
      | child hchild _ _ => cases hchild
  | .subscript aggregate index => by
    rw [dependencies, NameSet.mem_add, mem_dependenciesOfAll_iff_occursFree index]
    constructor
    · rintro (rfl | ⟨e, he, h⟩)
      · exact .aggregate index
      · exact .child he List.not_mem_nil h
    · intro h
      cases h with
      | aggregate => exact .inl rfl
      | child hchild _ h => exact .inr ⟨_, hchild, h⟩
  | .sum es | .product es => by
    simp [dependencies, occursFree_iff_child, children, boundHere,
      mem_dependenciesOfAll_iff_occursFree es]
  | .binary _ a b => by
    simp [dependencies, occursFree_iff_child, children, boundHere,
      mem_dependencies_iff_occursFree a, mem_dependencies_iff_occursFree b]
  | .call _ args => by
    simp [dependencies, occursFree_iff_child, children, boundHere,
      mem_dependenciesOfAll_iff_occursFree args]
  | .reduction _ binders body => by
    simp [dependencies, occursFree_iff_child, children, boundHere,
      mem_dependencies_iff_occursFree body, and_comm]

/-- The names that are collected from several expressions are those that occur freely in one. -/
theorem mem_dependenciesOfAll_iff_occursFree : (es : List Expr) →
    (n ∈ dependenciesOfAll es ↔ ∃ e ∈ es, e.OccursFree n)
  | [] => by simp [dependenciesOfAll]
  | e :: rest => by
    simp [dependenciesOfAll, mem_dependencies_iff_occursFree e,
      mem_dependenciesOfAll_iff_occursFree rest]

end

end Expr

/-- Whether an instruction reads a name: in its expression, or in the index of its assignee. -/
def Instruction.Reads (insn : Instruction) (name : String) : Prop :=
  insn.expression.OccursFree name ∨ ∃ e ∈ insn.targetIndex, e.OccursFree name

/-- The names that are collected as read are those that are read. -/
theorem Instruction.mem_reads_iff {insn : Instruction} {name : String} :
    name ∈ insn.reads ↔ insn.Reads name := by
  rw [Instruction.reads, NameSet.mem_union, Expr.mem_dependencies_iff_occursFree,
    Expr.mem_dependenciesOfAll_iff_occursFree, Instruction.Reads]

end LoopKernel
