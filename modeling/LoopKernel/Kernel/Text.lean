import LoopKernel.Expr.Text
import LoopKernel.Kernel.Basic

/-!
# Text of kernels

A kernel is listed with one line for each of its parts, in the notation of kernel sources.
Spec guidance: `SPEC_FULL.md` §10.5.
-/

namespace LoopKernel

/-- Texts of extents in brackets. -/
def bracketed (extents : List String) : String := "[" ++ ", ".intercalate extents ++ "]"

/-- The line of an argument. -/
def Argument.text (arg : Argument) : Checked String := do
  let start (kind : String) : String := "arg " ++ kind ++ " " ++ arg.dtype.name ++ " " ++ arg.name
  match arg.kind with
  | .global shape => pure (start "global" ++ bracketed (← Expr.texts 0 shape))
  | .image shape => pure (start "image" ++ bracketed (← Expr.texts 0 shape))
  | .scalar approximately => pure (start "scalar" ++ " ~ " ++ toString approximately)

/-- The line of a temporary. -/
def Temporary.text (t : Temporary) : String :=
  "temp " ++ t.dtype.name ++ " " ++ t.name ++ bracketed (t.shape.map toString) ++
    (if t.isLocal then " local" else " private") ++
    (match t.storageShape with
      | some storage => " storage" ++ bracketed (storage.map toString)
      | none => "")

/-- What is known about extra runs of an instruction. -/
def Instruction.boostText (insn : Instruction) : String :=
  match insn.boostable, insn.boostableInto with
  | some true, some into => " boostable(" ++ into.render ++ ")"
  | some true, none => " boostable"
  | some false, _ => " fixed"
  | none, _ => ""

/-- The line of an instruction. -/
def Instruction.text (insn : Instruction) : Checked String := do
  let assignee ← insn.assignee.text
  let expression ← insn.expression.text
  pure ("insn " ++ insn.id ++ ": " ++ assignee ++ " = " ++ expression ++
    (if insn.deps.isEmpty then "" else " deps(" ++ insn.deps.render ++ ")") ++
    (if insn.forcedInames.isEmpty then "" else " inames(" ++ insn.forcedInames.render ++ ")") ++
    insn.boostText)

namespace Kernel

/-- The line of the tags, if there are any. -/
def tagLines (k : Kernel) : List String :=
  if k.tags.isEmpty then []
  else ["tag " ++ ", ".intercalate (k.tags.entries.map fun (iname, tag) =>
    iname ++ " = " ++ tag.text)]

/-- The listing of a kernel. -/
def text (k : Kernel) : Checked String := do
  let domain ← k.domain.text
  let args ← k.args.mapM Argument.text
  let insns ← k.instructions.mapM Instruction.text
  let lines := ["kernel " ++ k.name, "domain " ++ domain] ++ args ++
    k.temporaries.values.map Temporary.text ++ k.tagLines ++ insns
  pure (String.join (lines.map fun line => line ++ "\n"))

end Kernel

end LoopKernel
