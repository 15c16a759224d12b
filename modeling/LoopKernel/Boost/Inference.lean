import LoopKernel.Diagnostic
import LoopKernel.Kernel.Basic
import LoopKernel.Reachability

/-!
# Dependencies and extra runs of instructions

An instruction that reads a variable with a single writer depends on that writer. An instruction may
be run again without harm when it does not depend on its own result, through any number of other
instructions, and when nothing that it reads or writes is written by one that does.
Spec guidance: `SPEC_FULL.md` §4.5.
-/

namespace LoopKernel

/-- What dependencies are inferred from: who writes each variable, which names are arguments, which
declared variables the expression of each instruction mentions, and which ones the writers of each
variable mention. -/
structure DataFlow where
  writers : SortedMap String NameSet
  args : NameSet
  declared : NameSet
  uses : SortedMap String NameSet
  origins : SortedMap String NameSet

namespace DataFlow

/-- The names in the sets that a map has for several keys. -/
def gather (m : SortedMap String NameSet) (keys : NameSet) : NameSet :=
  keys.toList.foldl (fun s key => s.union (m.getD key ∅)) ∅

/-- The data flow of a kernel. -/
def ofKernel (k : Kernel) : DataFlow :=
  let declared := k.argNames.addAll k.temporaries.keys
  let uses := SortedMap.ofList (k.instructions.map fun insn =>
    (insn.id, insn.expression.dependencies.select declared.contains))
  { writers := k.writers
    args := k.argNames
    declared := declared
    uses := uses
    origins := k.writers.mapValues fun _ ids => gather uses ids }

/-- The instructions that write a variable. -/
def writersOf (f : DataFlow) (name : String) : NameSet := f.writers.getD name ∅

/-- The declared variables that an instruction mentions. -/
def usesOf (f : DataFlow) (id : String) : List String := (f.uses.getD id ∅).toList

/-- The declared variables that the writers of a variable mention. -/
def originsOf (f : DataFlow) (name : String) : List String := (f.origins.getD name ∅).toList

/-- The declared variables that an instruction gets values from, through any number of other
instructions. -/
def sources (f : DataFlow) (id : String) : List String :=
  Reachability.reachable f.declared.toList f.originsOf (f.usesOf id)

/-- Whether an instruction depends on its own result. -/
def isCyclic (f : DataFlow) (id : String) : Bool :=
  (f.sources id).any fun name => (f.writersOf name).contains id

/-- The single writers of the variables that an instruction mentions. -/
def singleWriters (f : DataFlow) (id : String) : NameSet :=
  (f.usesOf id).foldl
    (fun s name => if (f.writersOf name).size = 1 then s.union (f.writersOf name) else s) ∅

/-- What is odd about the use of a variable by an instruction. -/
def useProblems (f : DataFlow) (insn : Instruction) (name : String) : List Diagnostic :=
  let writers := f.writersOf name
  let unwritten :=
    if writers.isEmpty && !f.args.contains name then
      [(Diagnostic.about (.var name) .neverWritten).relatedTo (.insn insn.id) "read here"]
    else []
  let ambiguous :=
    if 1 < writers.size && !writers.toList.any insn.deps.contains then
      [Diagnostic.about (.var name) (.severalWriters insn.id)]
    else []
  unwritten ++ ambiguous

end DataFlow

namespace Kernel

/-- The instructions that depend on their own results. -/
def cyclicInsns (k : Kernel) (f : DataFlow) : List Instruction :=
  k.instructions.filter fun insn => f.isCyclic insn.id

/-- Whether an instruction reads or writes one of several variables. -/
def touches (names : NameSet) (insn : Instruction) : Bool :=
  (insn.reads.add insn.target).toList.any names.contains

/-- An instruction with inferred dependencies, and whether it may be run again. An instruction that
depends on its own result writes a poisoned variable itself. -/
def inferFor (f : DataFlow) (poisoned : NameSet) (insn : Instruction) : Instruction :=
  { insn with
    deps := insn.deps.union (f.singleWriters insn.id)
    boostable := some (!touches poisoned insn) }

/-- The kernel with inferred dependencies, and what is odd about its data flow
(`add_boostability_and_automatic_dependencies`). -/
def inferDependencies (k : Kernel) : Kernel × List Diagnostic :=
  let f := DataFlow.ofKernel k
  let poisoned := NameSet.ofList ((k.cyclicInsns f).map Instruction.target)
  ({ k with instructions := k.instructions.map (inferFor f poisoned) },
    k.instructions.flatMap fun insn => (f.usesOf insn.id).flatMap (f.useProblems insn))

end Kernel

end LoopKernel
