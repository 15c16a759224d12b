import LoopKernel.Diagnostic
import LoopKernel.Kernel.Basic

/-!
# Copies of reduction indices

Every marked index of a reduction is replaced by a fresh copy of its own, named after the index and
the instruction. The domain gets a dimension for the copy, with the constraints of the index copied.
Spec guidance: `SPEC_FULL.md` §4.2.
-/

namespace LoopKernel

/-- What has been renamed (`InameDuplicator`): all new names of the kernel, and the copies made for
an instruction. -/
structure Renaming where
  generated : List String
  created : List (String × String)

namespace Renaming

/-- Make a copy of an index for an instruction. -/
def copy (k : Kernel) (insn index : String) : StateM Renaming String := fun r =>
  let fresh := k.freshVar (index ++ "_" ++ insn) r.generated
  (fresh, ⟨fresh :: r.generated, r.created ++ [(index, fresh)]⟩)

/-- Give every marked index in a list a copy. The new names of the marked ones are returned too. -/
def copyMarked (k : Kernel) (insn : String) :
    List Binder → StateM Renaming (List Binder × SortedMap String Expr)
  | [] => pure ([], ∅)
  | b :: rest => do
    if b.isMarked then
      let fresh ← copy k insn b.name
      let (binders, values) ← copyMarked k insn rest
      pure (⟨fresh, 0⟩ :: binders, values.insertNew b.name (.var fresh))
    else
      let (binders, values) ← copyMarked k insn rest
      pure (b :: binders, values)

/-- Rename the marked indices of a reduction, in its body too (`rewrite` of `InameDuplicator`). -/
def renameReduction (k : Kernel) (insn : String) (op : ReductionOp) (binders : List Binder)
    (body : Expr) : StateM Renaming Expr := do
  let (binders, values) ← copyMarked k insn binders
  pure (.reduction op binders (body.substitute values))

end Renaming

namespace Kernel

/-- Give the domain and the tags a copy of an index. -/
def addCopy (insn : String) (k : Kernel) (copy : String × String) : Attempt Diagnostic Kernel := do
  let domain ← (k.domain.duplicateAxis copy.1 copy.2).mapCause fun e =>
    Diagnostic.about (.insn insn) (.domainChange e)
  pure { k with domain := domain, tags := k.tags.insert copy.2 .sequential }

/-- Rename the marked indices of the listed instructions. New names are fresh for the kernel before
any copy; `out` collects the instructions, domain and tags. -/
def duplicateIn (k : Kernel) :
    List Instruction → (generated : List String) → (out : Kernel) → Attempt Diagnostic Kernel
  | [], _, out => pure out
  | insn :: rest, generated, out => do
    let (expression, r) :=
      (insn.expression.mapReductionsM (Renaming.renameReduction k insn.id)).run ⟨generated, []⟩
    let out ← r.created.foldlM (addCopy insn.id) out
    let insns := out.instructions ++ [{ insn with expression := expression }]
    duplicateIn k rest r.generated { out with instructions := insns }

/-- The kernel in which no reduction index is marked any more (`duplicate_reduction_inames`). -/
def duplicateReductionInames (k : Kernel) : Attempt Diagnostic Kernel :=
  k.duplicateIn k.instructions [] { k with instructions := [] }

end Kernel

end LoopKernel
