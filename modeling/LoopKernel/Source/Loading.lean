import LoopKernel.Expr.Evaluation
import LoopKernel.Kernel.Basic
import LoopKernel.Source.Grammar
import LoopKernel.Source.Lowering
import LoopKernel.Text.Quoted

/-!
# Kernels from sources

A kernel is built from the statements of its source when nothing is wrong with them. Each group of
statements is read in turn (settings, domain, arguments, temporaries, tags, instructions), and
every problem found on the way is reported.
Spec guidance: `SPEC_FULL.md` §11.
-/

namespace LoopKernel.Source

/-- A value with the problems found on the way to it. -/
structure Noted (α : Type) where
  value : α
  problems : List Diagnostic

namespace Noted

variable {α β : Type}

/-- A value without problems. -/
def clean (value : α) : Noted α := ⟨value, []⟩

/-- A value with one problem. -/
def problem (value : α) (d : Diagnostic) : Noted α := ⟨value, [d]⟩

/-- Run a step on a value and collect the problems of both. -/
def andThen (n : Noted α) (step : α → Checked (Noted β)) : Checked (Noted β) := do
  let next ← step n.value
  pure ⟨next.value, n.problems ++ next.problems⟩

/-- Run a step for each item of a list, from left to right. -/
def overAll {ι : Type} (step : α → ι → Checked (Noted α)) :
    List ι → Noted α → Checked (Noted α)
  | [], n => pure n
  | i :: rest, n => do overAll step rest (← n.andThen fun value => step value i)

end Noted

/-! ## Settings -/

/-- The device with a setting, if the value fits the setting. -/
def applySetting? (device : Device) (name : String) (value : SettingValue) : Option Device :=
  match name, value with
  | "local_mem", .size bytes | "local_mem", .int bytes => some { device with localMemory := bytes }
  | "banks", .int n => if 0 < n ∧ n < 1 <<< 32 then some { device with bankCount := n } else none
  | "local_mem_kind", .word word =>
    (MemoryKind.ofName? word).map fun kind => { device with memoryKind := kind }
  | _, _ => none

/-- The names of the settings. -/
def settingNames : List String := ["local_mem", "banks", "local_mem_kind"]

/-- Apply a setting to a device (`apply_set`). -/
def addSetting (device : Device) (name : Ident) (value : SettingValue) : Noted Device :=
  match applySetting? device name.name value with
  | some device => .clean device
  | none =>
    .problem device (.about (.source name.span)
      (if settingNames.contains name.name then .invalidSetting name.name
        else .unknownSetting name.name))

/-- The device with the settings of a list of statements. -/
def settings (statements : List Statement) (device : Device) : Checked (Noted Device) :=
  Noted.overAll
    (fun device s =>
      match s.body with
      | .set name value _ => pure (addSetting device name value)
      | _ => pure (.clean device))
    statements (.clean device)

/-! ## The domain -/

/-- Add a dimension that is not listed yet. -/
def addDimension (dims : List String) (id : Ident) : Noted (List String) :=
  if dims.contains id.name then
    .problem dims (.about (.source id.span) (.repeatedDimension id.name))
  else .clean (dims ++ [id.name])

/-- The affine form of a source tree. -/
def affine (dims : List String) (term : Term) : Checked (Noted (Option Affine)) := do
  let form ← match ← (lower ⟨dims, .int64⟩ term).toOption with
    | some e => e.toAffine?
    | none => pure none
  match form with
  | some f => pure (.clean (some f))
  | none => pure (.problem none (.about (.source term.span) .nonAffineConstraint))

/-- The constraint that a comparison stands for. -/
def Comparison.constraint : Comparison → Affine → Affine → Checked Constraint
  | .lt => Constraint.lt
  | .le => Constraint.le
  | .gt => Constraint.gt
  | .ge => Constraint.ge
  | .eq => Constraint.eq

/-- Constrain a polyhedron by a comparison of two forms, if both exist. -/
def compareForms (s : Polyhedron) (op : Comparison) (left right : Option Affine) :
    Checked Polyhedron :=
  match left, right with
  | some l, some r => do s.constrain (← op.constraint l r)
  | _, _ => pure s

/-- Constrain a polyhedron by the rest of a chain after its left side. -/
def addComparisons (dims : List String) :
    List (Comparison × Term) → Option Affine → Polyhedron → Checked (Noted Polyhedron)
  | [], _, s => pure (.clean s)
  | (op, term) :: rest, left, s => do
    let right ← affine dims term
    right.andThen fun right => do
      addComparisons dims rest right (← compareForms s op left right)

/-- Constrain a polyhedron by a chain of comparisons. -/
def addChain (dims : List String) (s : Polyhedron) (chain : Chain) :
    Checked (Noted Polyhedron) := do
  (← affine dims chain.first).andThen fun left => addComparisons dims chain.rest left s

/-- The iteration domain (`resolve_domain`). -/
def domain (dims : List Ident) (chains : List Chain) : Checked (Noted Polyhedron) := do
  let dims ← Noted.overAll (fun dims id => pure (addDimension dims id)) dims (.clean [])
  dims.andThen fun dims =>
    Noted.overAll (addChain dims) chains (.clean (.whole dims))

/-! ## Arguments and temporaries -/

/-- What is declared so far: names taken, element types, arguments and temporaries. -/
structure Declared where
  taken : NameSet
  dtypes : SortedMap String Dtype
  args : List Argument
  temporaries : SortedMap String Temporary

/-- Take a name for a variable of an element type, and go on if both are valid. -/
def declare (d : Declared) (dtype name : Ident)
    (next : Declared → Dtype → Checked (Noted Declared)) : Checked (Noted Declared) :=
  match Dtype.ofName? dtype.name with
  | none => pure (.problem d (.about (.source dtype.span) (.unknownDtype dtype.name)))
  | some type =>
    if d.taken.contains name.name then
      pure (.problem d ((Diagnostic.about (.var name.name) .repeatedName).relatedTo
        (.source name.span) "defined again here"))
    else
      next { d with taken := d.taken.add name.name, dtypes := d.dtypes.insert name.name type } type

/-- What an argument is. -/
def argumentKind (dims : List String) : ArgumentForm → Attempt Diagnostic ArgumentKind
  | .global shape => do pure (.global (← lowerAll ⟨dims, .int64⟩ shape))
  | .image shape => do pure (.image (← lowerAll ⟨dims, .int64⟩ shape))
  | .scalar approximately _ => pure (.scalar approximately)

/-- Declare an argument (`resolve_arg`). -/
def addArgument (dims : List String) (d : Declared) (form : ArgumentForm) (dtype name : Ident) :
    Checked (Noted Declared) :=
  declare d dtype name fun d type => do
    match ← (argumentKind dims form).caught with
    | .ok kind => pure (.clean { d with args := d.args ++ [⟨name.name, type, kind⟩] })
    | .error problem => pure (.problem d problem)

/-- The value of an extent, which must be a positive constant. -/
def positiveConstant? (dims : List String) (term : Term) : Checked (Option Int) := do
  match ← (lower ⟨dims, .int64⟩ term).toOption with
  | some e => pure ((← e.evalInt fun _ => none).filter fun n => 0 < n)
  | none => pure none

/-- The values of extents, or the first extent that is no positive constant. -/
def extents (dims : List String) : List Term → Checked (Except Term (List Int))
  | [] => pure (.ok [])
  | t :: rest => do
    match ← positiveConstant? dims t with
    | none => pure (.error t)
    | some n =>
      match ← extents dims rest with
      | .ok ns => pure (.ok (n :: ns))
      | .error t => pure (.error t)

/-- Declare a temporary (`resolve_temp`). -/
def addTemporary (dims : List String) (d : Declared) (dtype name : Ident) (shape : List Term) :
    Checked (Noted Declared) :=
  declare d dtype name fun d type => do
    match ← extents dims shape with
    | .ok shape =>
      let t := Temporary.ofShape name.name type shape
      pure (.clean { d with temporaries := d.temporaries.insert name.name t })
    | .error t => pure (.problem d (.about (.source t.span) (.badExtent name.name)))

/-- All arguments, then all temporaries. -/
def declarations (dims : List String) (statements : List Statement) :
    Checked (Noted Declared) := do
  let start : Declared := ⟨NameSet.ofList dims, ∅, [], ∅⟩
  let args ← Noted.overAll
    (fun d s =>
      match s.body with
      | .arg form dtype name => addArgument dims d form dtype name
      | _ => pure (.clean d))
    statements (.clean start)
  Noted.overAll
    (fun d s =>
      match s.body with
      | .temp dtype name shape => addTemporary dims d dtype name shape
      | _ => pure (.clean d))
    statements args

/-! ## Tags -/

/-- Set the tag of a dimension. -/
def addTag (dims : List String) (tags : SortedMap String IndexTag) (entry : TagEntry) :
    Noted (SortedMap String IndexTag) :=
  if dims.contains entry.iname.name then .clean (tags.insert entry.iname.name entry.tag)
  else
    .problem tags ((Diagnostic.about (.iname entry.iname.name) .tagOnOtherName).relatedTo
      (.source entry.span) "tagged here")

/-- The entries of all tag statements. -/
def tagEntries (statements : List Statement) : List TagEntry :=
  statements.flatMap fun s =>
    match s.body with
    | .tag entries => entries
    | _ => []

/-- The tags of all dimensions; one without an entry is sequential. -/
def tags (dims : List String) (statements : List Statement) :
    Checked (Noted (SortedMap String IndexTag)) := do
  let given ← Noted.overAll (fun tags entry => pure (addTag dims tags entry))
    (tagEntries statements) (.clean ∅)
  pure { given with value := dims.foldl (fun m d => m.insertNew d .sequential) given.value }

/-! ## Instructions -/

/-- The instruction statements with their places. -/
def insnStatements (statements : List Statement) : List (InsnStatement × Span) :=
  statements.filterMap fun s =>
    match s.body with
    | .insn statement => some (statement, s.span)
    | _ => none

/-- Take the id of an instruction, if it is given. -/
def claimId (ids : NameSet) (id : Option Ident) : Noted NameSet :=
  match id with
  | none => .clean ids
  | some id =>
    if ids.contains id.name then
      .problem ids ((Diagnostic.about (.insn id.name) .repeatedInstructionId).relatedTo
        (.source id.span) "used again here")
    else .clean (ids.add id.name)

/-- The ids of instructions in order: the given one, or a fresh one. -/
def assignIds (taken : List String) : List (Option Ident) → List String
  | [] => []
  | some id :: rest => id.name :: assignIds taken rest
  | none :: rest =>
    let fresh := FreshName.choose taken "insn"
    fresh :: assignIds (fresh :: taken) rest

/-- The variable that an assignee names. -/
def assigned : Term → String
  | .var _ name => name
  | .subscript _ aggregate _ => aggregate.name
  | _ => ""

/-- Add the dependencies that are named in an instruction. -/
def addDep (known : NameSet) (insn : Instruction) (dep : Ident) : Noted Instruction :=
  if known.contains dep.name then .clean { insn with deps := insn.deps.add dep.name }
  else
    .problem insn ((Diagnostic.about (.insn insn.id) (.unknownDependency dep.name)).relatedTo
      (.source dep.span) "named here")

/-- Add a loop index that is forced on an instruction. -/
def addForcedIname (dims : List String) (span : Span) (insn : Instruction) (iname : Ident) :
    Noted Instruction :=
  if dims.contains iname.name then
    .clean { insn with forcedInames := insn.forcedInames.add iname.name }
  else
    .problem insn ((Diagnostic.about (.iname iname.name) .runsOverOtherName).relatedTo
      (.source span) "in this instruction")

/-- The assignee and the expression of an instruction. -/
def lowerAssignment (scope : Scope) (s : InsnStatement) : Attempt Diagnostic (Expr × Expr) := do
  let target ← lower scope s.assignee
  pure (target, ← lower scope s.expression)

/-- Build an instruction from its statement and add it to a list. -/
def addInstruction (dims : List String) (dtypes : SortedMap String Dtype) (known : NameSet)
    (insns : List Instruction) (s : InsnStatement) (span : Span) (id : String) :
    Checked (Noted (List Instruction)) := do
  let dtype := dtypes.getD (assigned s.assignee) .float32
  match ← (lowerAssignment ⟨dims, dtype⟩ s).caught with
  | .error d => pure (.problem insns (d.relatedTo (.insn id) "in this instruction"))
  | .ok (target, expression) =>
    let withDeps ← Noted.overAll (fun insn dep => pure (addDep known insn dep)) s.deps
      (.clean (.assign id target expression))
    let insn ← Noted.overAll (fun insn iname => pure (addForcedIname dims span insn iname)) s.inames
      withDeps
    pure ⟨insns ++ [insn.value], insn.problems⟩

/-- The instructions of a kernel (`resolve_instructions`). -/
def instructions (dims : List String) (dtypes : SortedMap String Dtype)
    (statements : List Statement) : Checked (Noted (List Instruction)) := do
  let stmts := insnStatements statements
  let givenIds := stmts.map fun s => s.1.id
  let claimed ← Noted.overAll (fun ids id => pure (claimId ids id)) givenIds (.clean ∅)
  claimed.andThen fun taken => do
    let ids := assignIds taken.toList givenIds
    let known := NameSet.ofList ids
    Noted.overAll
      (fun insns ((s, span), id) => addInstruction dims dtypes known insns s span id)
      (stmts.zip ids) (.clean [])

/-! ## Kernels -/

/-- The name of a kernel: the last one given. -/
def kernelName (statements : List Statement) : String :=
  statements.foldl
    (fun name s =>
      match s.body with
      | .kernel id => id.name
      | _ => name)
    "kernel"

/-- The domain statements with their places. -/
def domainStatements (statements : List Statement) : List ((List Ident × List Chain) × Span) :=
  statements.filterMap fun s =>
    match s.body with
    | .domain dims chains => some ((dims, chains), s.span)
    | _ => none

/-- Build all parts after the domain. -/
def buildOver (statements : List Statement) (device : Device) (domain : Polyhedron) :
    Checked (Noted (Option Kernel)) := do
  let declared ← declarations domain.dims statements
  declared.andThen fun declared => do
    (← tags domain.dims statements).andThen fun tags => do
      (← instructions domain.dims declared.dtypes statements).andThen fun insns =>
        pure (.clean (some ⟨kernelName statements, domain, insns, declared.args,
          declared.temporaries, tags, device, none⟩))

/-- Build a kernel (`resolve`). There is none without a domain. -/
def build (statements : List Statement) (device : Device) : Checked (Noted (Option Kernel)) := do
  (← settings statements device).andThen fun device =>
    match domainStatements statements with
    | [] => pure (.problem none (.about .kernel .missingDomain))
    | ((dims, chains), _) :: others => do
      let repeated := others.map fun (_, span) => Diagnostic.about (.source span) .repeatedDomain
      (⟨(), repeated⟩ : Noted Unit).andThen fun _ => do
        (← domain dims chains).andThen fun domain => buildOver statements device domain

/-- The problem of a stray piece of text. -/
def strayProblem (s : Stray) : Diagnostic :=
  .about (.source s.span) (.unexpectedCharacter (Quoted.ofChars s.text))

/-- The problem of a source whose tokens do not fit together. -/
def misfitProblem : Misfit → Diagnostic
  | .mismatch => .about .wholeSource .syntaxError
  | .unknownTag name span => .about (.source span) (.unknownTag name)

/-- The kernel of a source for a device, or all that is wrong with the source (`load_kernel`). -/
def load (source : String) (device : Device) : Attempt (List Diagnostic) Kernel := do
  let reading := read source
  let strays := reading.strays.map strayProblem
  match reading.file with
  | .error misfit => .fail (strays ++ [misfitProblem misfit])
  | .ok file =>
    if strays.isEmpty then
      match ← (build file.statements device : Checked (Noted (Option Kernel))) with
      | ⟨some kernel, []⟩ => pure kernel
      | ⟨_, problems⟩ => .fail problems
    else .fail strays

end LoopKernel.Source
