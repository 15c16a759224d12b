import LoopKernel.Device.Basic
import LoopKernel.Expr.Basic
import LoopKernel.FreshName
import LoopKernel.IndexTag
import LoopKernel.Polyhedron.Basic
import LoopKernel.Schedule.Item

/-!
# Kernels

A kernel runs its instructions over the points of an iteration domain. It is a value: a pass takes a
kernel and gives a new one.
Spec guidance: `SPEC_FULL.md` §3.
-/

namespace LoopKernel

/-- What an argument of a kernel is. -/
inductive ArgumentKind where
  /-- A row-major array in global memory. -/
  | global (shape : List Expr)
  | image (shape : List Expr)
  /-- A scalar, with an approximate value for cost estimates. -/
  | scalar (approximately : Int)

/-- An argument of a kernel (`KernelArg`). -/
structure Argument where
  name : String
  dtype : Dtype
  kind : ArgumentKind

/-- An array that lives while the kernel runs (`TemporaryVariable`). -/
structure Temporary where
  name : String
  dtype : Dtype
  shape : List Int
  /-- Whether the array is in local memory. -/
  isLocal : Bool
  /-- The layout in memory, once it is chosen. -/
  storageShape : Option (List Int)
deriving DecidableEq

namespace Temporary

/-- A temporary that is private and has no layout yet. -/
def ofShape (name : String) (dtype : Dtype) (shape : List Int) : Temporary :=
  ⟨name, dtype, shape, false, none⟩

/-- The layout, or the shape while no layout is chosen (`effective_storage_shape`). -/
def layout (t : Temporary) : List Int := t.storageShape.getD t.shape

/-- Number of bytes of the layout (`nbytes`). -/
def bytes (t : Temporary) : Checked Nat := do
  let elements ← t.layout.foldlM (fun product n => check64 (product * n)) 1
  checkUnsigned 64 (t.dtype.itemsize * elements.toNat)

end Temporary

/-- An instruction: the assignment of an expression to a variable or array element. -/
structure Instruction where
  id : String
  assignee : Expr
  expression : Expr
  /-- Instructions that must run before. -/
  deps : NameSet
  /-- Loop indices that the instruction runs under whether it mentions them or not. -/
  forcedInames : NameSet
  /-- Whether extra runs do no harm, once it is known. -/
  boostable : Option Bool
  /-- Loop indices that the instruction may be run under in addition, once they are known. -/
  boostableInto : Option NameSet

namespace Instruction

/-- An instruction without dependencies, of which nothing more is known. -/
def assign (id : String) (assignee expression : Expr) : Instruction :=
  ⟨id, assignee, expression, ∅, ∅, none, none⟩

/-- The name of the variable or array assigned to (`assignee_var_name`). -/
def target (insn : Instruction) : String :=
  match insn.assignee with
  | .var name | .tagged name _ => name
  | .subscript aggregate _ => aggregate
  | _ => ""

/-- The index of the array element assigned to (`assignee_indices`). -/
def targetIndex (insn : Instruction) : List Expr :=
  match insn.assignee with
  | .subscript _ index => index
  | _ => []

/-- The names read by the expression or by the index of the assignee (`read_var_names`). -/
def reads (insn : Instruction) : NameSet :=
  insn.expression.dependencies.union (Expr.dependenciesOfAll insn.targetIndex)

end Instruction

/-- A kernel. -/
structure Kernel where
  name : String
  domain : Polyhedron
  instructions : List Instruction
  args : List Argument
  temporaries : SortedMap String Temporary
  tags : SortedMap String IndexTag
  device : Device
  schedule : Option Schedule

namespace Kernel

/-- The tag of a loop index; one without a tag is sequential (`iname_tag`). -/
def tag (k : Kernel) (iname : String) : IndexTag := k.tags.getD iname .sequential

/-- The first instruction with an id. -/
def insn? (k : Kernel) (id : String) : Option Instruction :=
  k.instructions.find? fun insn => insn.id == id

/-- The first argument with a name. -/
def arg? (k : Kernel) (name : String) : Option Argument :=
  k.args.find? fun arg => arg.name == name

/-- The loop indices that an instruction runs under (`insn_inames`): those forced on it, and the
dimensions that its expression or assignee mentions. -/
def insnInames (k : Kernel) (insn : Instruction) : NameSet :=
  insn.forcedInames.union
    ((insn.expression.dependencies.union insn.assignee.dependencies).select k.domain.hasDim)

/-- The instructions that assign to each variable (`find_writers`). -/
def writers (k : Kernel) : SortedMap String NameSet :=
  k.instructions.foldl
    (fun m insn => m.insert insn.target ((m.getD insn.target ∅).add insn.id)) ∅

/-- The dimensions of the domain (`all_inames`). -/
def inames (k : Kernel) : NameSet := NameSet.ofList k.domain.dims

/-- The names of the arguments. -/
def argNames (k : Kernel) : NameSet := NameSet.ofList (k.args.map Argument.name)

/-- All names of arguments, temporaries, dimensions and parameters (`all_variable_names`). -/
def names (k : Kernel) : NameSet :=
  ((k.argNames.addAll k.temporaries.keys).addAll k.domain.dims).union k.domain.params

/-- The ids of the instructions. -/
def insnIds (k : Kernel) : List String := k.instructions.map Instruction.id

/-- A name for a new variable that is used neither in the kernel nor in a given list
(`make_unique_var_name`). -/
def freshVar (k : Kernel) (base : String) (others : List String) : String :=
  FreshName.choose (k.names.toList ++ others) base

/-- An id for a new instruction that is used neither in the kernel nor in a given list
(`make_unique_instruction_id`). -/
def freshInsn (k : Kernel) (base : String) (others : List String) : String :=
  FreshName.choose (k.insnIds ++ others) base

/-- The approximate values of the scalar arguments; of two for one name the later one counts
(`approximate_values`). -/
def approximateValues (k : Kernel) : SortedMap String Int :=
  SortedMap.ofList (k.args.filterMap fun arg =>
    match arg.kind with
    | .scalar approximately => some (arg.name, approximately)
    | _ => none)

/-- Number of bytes of all temporaries in local memory (`local_mem_bytes`). -/
def localBytes (k : Kernel) : Checked Nat :=
  (k.temporaries.values.filter Temporary.isLocal).foldlM
    (fun total t => do checkUnsigned 64 (total + (← t.bytes))) 0

end Kernel

end LoopKernel
