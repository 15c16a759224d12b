import LoopKernel.Json.Basic
import LoopKernel.Kernel.Basic

/-!
# Exchange form of kernels

Kernels and their parts as JSON values: structures as objects with their fields in order, variants
as objects with the name of the variant.
Spec guidance: `SPEC_FULL.md` §10.4.
-/

namespace LoopKernel

/-- An affine form. -/
def Affine.toJson (f : Affine) : Json :=
  .object [("coeffs", .ofMap .int f.coeffs), ("constant", .int f.constant)]

/-- A constraint. -/
def Constraint.toJson (c : Constraint) : Json :=
  let kind := match c.relation with
    | .inequality => "Inequality"
    | .equality => "Equality"
  .object [("kind", .string kind), ("expr", c.form.toJson)]

/-- A polyhedron. -/
def Polyhedron.toJson (s : Polyhedron) : Json :=
  .object [("dims", .strings s.dims), ("constraints", .array (s.constraints.map Constraint.toJson))]

/-- A device. -/
def Device.toJson (d : Device) : Json :=
  .object [("name", .string d.name), ("local_mem_size", .int d.localMemory),
    ("reserved_local_mem", .int d.reserved), ("local_mem_kind", .string d.memoryKind.name),
    ("bank_count", .int d.bankCount), ("bank_granularity", .int d.bankWidth),
    ("simd_group_size", .int d.lanes)]

/-- A tag. -/
def IndexTag.toJson : IndexTag → Json
  | .sequential => .string "Sequential"
  | .unroll => .string "Unroll"
  | .ilp => .string "Ilp"
  | .vectorize => .string "Vectorize"
  | .groupAxis n => .variant "GroupAxis" (.int n)
  | .localAxis n => .variant "LocalAxis" (.int n)
  | .autoLocalAxis => .string "AutoLocalAxis"

/-- A reduction operation. -/
def ReductionOp.toJson (op : ReductionOp) : Json :=
  let kind := match op.kind with
    | .sum => "Sum"
    | .product => "Product"
    | .max => "Max"
    | .min => "Min"
  .object [("kind", .string kind), ("dtype", .string op.dtype.name)]

/-- The name of a variant with two operands. -/
def BinaryOp.variantName : BinaryOp → String
  | .quotient => "Quotient"
  | .floorDiv => "FloorDiv"
  | .remainder => "Remainder"
  | .power => "Power"

mutual

/-- An expression. -/
def Expr.toJson : Expr → Json
  | .int n => .variant "Int" (.int n)
  | .float x => .variant "Float" (.float x)
  | .var name => .variant "Var" (.string name)
  | .tagged name tag =>
    .variant "Tagged" (.object [("name", .string name), ("tag", .string tag)])
  | .subscript aggregate index =>
    .variant "Subscript"
      (.object [("aggregate", .string aggregate), ("index", .array (Expr.allToJson index))])
  | .sum es => .variant "Sum" (.array (Expr.allToJson es))
  | .product es => .variant "Product" (.array (Expr.allToJson es))
  | .binary op a b => .variant op.variantName (.array [a.toJson, b.toJson])
  | .call function args =>
    .variant "Call"
      (.object [("function", .string function), ("args", .array (Expr.allToJson args))])
  | .reduction op binders body =>
    .variant "Reduction"
      (.object [("op", op.toJson), ("inames", .strings (binders.map Binder.text)),
        ("expr", body.toJson)])

/-- Several expressions. -/
def Expr.allToJson : List Expr → List Json
  | [] => []
  | e :: rest => e.toJson :: Expr.allToJson rest

end

/-- An argument. -/
def Argument.toJson (arg : Argument) : Json :=
  let fields (last : String × Json) : Json :=
    .object [("name", .string arg.name), ("dtype", .string arg.dtype.name), last]
  match arg.kind with
  | .global shape => .variant "Global" (fields ("shape", .array (Expr.allToJson shape)))
  | .image shape => .variant "Image" (fields ("shape", .array (Expr.allToJson shape)))
  | .scalar approximately => .variant "Scalar" (fields ("approximately", .int approximately))

/-- A temporary. -/
def Temporary.toJson (t : Temporary) : Json :=
  let extents (shape : List Int) : Json := .array (shape.map .int)
  .object [("name", .string t.name), ("dtype", .string t.dtype.name), ("shape", extents t.shape),
    ("is_local", .bool t.isLocal), ("storage_shape", .ofOption extents t.storageShape)]

/-- An instruction. -/
def Instruction.toJson (insn : Instruction) : Json :=
  let set (s : NameSet) : Json := .strings s.toList
  .object [("id", .string insn.id), ("assignee", insn.assignee.toJson),
    ("expression", insn.expression.toJson), ("insn_deps", set insn.deps),
    ("forced_iname_deps", set insn.forcedInames), ("boostable", .ofOption .bool insn.boostable),
    ("boostable_into", .ofOption set insn.boostableInto)]

/-- An item of a schedule. -/
def ScheduleItem.toJson : ScheduleItem → Json
  | .enterLoop iname => .variant "EnterLoop" (.object [("iname", .string iname)])
  | .leaveLoop iname => .variant "LeaveLoop" (.object [("iname", .string iname)])
  | .callKernel name => .variant "CallKernel" (.object [("name", .string name)])
  | .returnFromKernel name => .variant "ReturnFromKernel" (.object [("name", .string name)])
  | .barrier => .string "Barrier"
  | .run insn => .variant "RunInstruction" (.object [("insn_id", .string insn)])

/-- A kernel. -/
def Kernel.toJson (k : Kernel) : Json :=
  .object [("name", .string k.name), ("domain", k.domain.toJson),
    ("instructions", .array (k.instructions.map Instruction.toJson)),
    ("args", .array (k.args.map Argument.toJson)),
    ("temporary_variables", .ofMap Temporary.toJson k.temporaries),
    ("iname_to_tag", .ofMap IndexTag.toJson k.tags), ("device", k.device.toJson),
    ("schedule", .ofOption (fun s => .array (s.map ScheduleItem.toJson)) k.schedule)]

end LoopKernel
