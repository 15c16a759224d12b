import LoopKernel.Axis.Ranking
import LoopKernel.Iname.Split
import LoopKernel.Kernel.Lengths

/-!
# Choosing local axes

Loop indices whose local axis is left open are given one of the axes that other indices fix. For
each axis in turn, an instruction that does not use it yet gives it to its index with the smallest
stride, unless an instruction that shares the index uses the axis already. What is left over takes
the first free axis that is long enough, or is split onto the longest shorter one, or becomes
sequential. After each decision the search starts again with the first axis.
Spec guidance: `SPEC_FULL.md` §4.4.
-/

namespace LoopKernel

/-- A decision (`Decision`): an index of an instruction, with the axis it is given or with the axes
it cannot be given. -/
structure AxisDecision where
  insn : String
  iname : String
  axis : Option Nat
  used : List Nat
deriving DecidableEq, Repr

namespace Kernel

/-- The local axes of several indices (`used_local_axes`). -/
def localAxesOf (k : Kernel) (inames : NameSet) : List Nat :=
  inames.toList.filterMap fun i => (k.tag i).localAxis?

/-- The local axes used by the instructions that run over an index (`axes_used_alongside`). -/
def axesAlongside (k : Kernel) (iname : String) : List Nat :=
  let users := (k.instructions.map k.insnInames).filter fun inames => inames.contains iname
  users.flatMap k.localAxesOf

/-- The indices of an instruction whose axis is left open. -/
def openInames (k : Kernel) (insn : Instruction) : List String :=
  (k.insnInames insn).toList.filter fun i => (k.tag i).isAuto

/-- The first index in a ranking that can take an axis. -/
def pickForAxis (k : Kernel) (insn : Instruction) (axis : Nat) (ranking : List String) :
    Option AxisDecision :=
  ((ranking.filter fun i => (k.tag i).isAuto).find? fun i => !(k.axesAlongside i).contains axis).map
    fun iname => ⟨insn.id, iname, some axis, k.axesAlongside iname⟩

/-- The longest of several indices, the first one of equally long ones. -/
def longest (k : Kernel) : List String → Option (String × Int) →
    Attempt Diagnostic (Option (String × Int))
  | [], best => pure best
  | iname :: rest, best => do
    let length ← k.inameLength iname
    match best with
    | none => longest k rest (some (iname, length))
    | some (i, l) => longest k rest (some (if l < length then (iname, length) else (i, l)))

/-- The decision for an instruction and an axis, or for what is left over when `axis` is beyond the
last one. -/
def decideFor (k : Kernel) (axis : Nat) (lengths : List Int) (insn : Instruction) :
    Attempt Diagnostic (Option AxisDecision) := do
  let candidates := k.openInames insn
  if candidates.isEmpty then pure none
  else if axis < lengths.length then
    if (k.localAxesOf (k.insnInames insn)).contains axis then pure none
    else
      match ← (k.strideRanking insn : Checked _) with
      | none => pure none
      | some ranking => pure (k.pickForAxis insn axis ranking)
  else
    match ← k.longest candidates none with
    | none => pure none
    | some (iname, _) => pure (some ⟨insn.id, iname, none, k.axesAlongside iname⟩)

/-- The first decision for one of several instructions. -/
def decideAmong (k : Kernel) (axis : Nat) (lengths : List Int) :
    List Instruction → Attempt Diagnostic (Option AxisDecision)
  | [] => pure none
  | insn :: rest => do
    match ← k.decideFor axis lengths insn with
    | some d => pure (some d)
    | none => decideAmong k axis lengths rest

/-- The first decision for one of several axes. -/
def decideOver (k : Kernel) (lengths : List Int) :
    List Nat → Attempt Diagnostic (Option AxisDecision)
  | [] => pure none
  | axis :: rest => do
    match ← k.decideAmong axis lengths k.instructions with
    | some d => pure (some d)
    | none => decideOver k lengths rest

/-- The next decision, axis by axis, and last what is left over (`next_decision`). -/
def nextDecision (k : Kernel) (lengths : List Int) : Attempt Diagnostic (Option AxisDecision) :=
  k.decideOver lengths (List.range (lengths.length + 1))

/-- The first free axis at least as long as desired, else the longest free one (`find_axis`). -/
def findAxis (desired : Int) (used : List Nat) (lengths : List Int) : Option Nat :=
  let free := (List.range lengths.length).filter fun a => !used.contains a
  let length (a : Nat) : Int := lengths.getD a 0
  match free.find? fun a => desired ≤ length a with
  | some a => some a
  | none =>
    free.foldl
      (fun best a =>
        match best with
        | some b => if length a ≤ length b then some b else some a
        | none => some a)
      none

/-- Carry out a decision (`apply`). -/
def applyDecision (k : Kernel) (d : AxisDecision) (lengths : List Int) :
    Attempt Diagnostic Kernel := do
  if !(k.tag d.iname).isAuto then
    .fail ((Diagnostic.about (.iname d.iname) (.fixedTag (k.tag d.iname))).relatedTo (.insn d.insn)
      "selected while assigning axes for")
  else
    let desired ← k.inameLength d.iname
    let axis := match d.axis with
      | some a => some a
      | none => findAxis desired d.used lengths
    match axis with
    | none => pure { k with tags := k.tags.insert d.iname .sequential }
    | some axis =>
      let length := lengths.getD axis 0
      if length < desired then k.splitIname d.iname length (some .unroll) (some (.localAxis axis))
      else pure { k with tags := k.tags.insert d.iname (.localAxis axis) }

/-- Make at most so many decisions. -/
def assignAxesWithin (lengths : List Int) : Nat → Kernel → Attempt Diagnostic Kernel
  | 0, k => pure k
  | n + 1, k => do
    match ← k.nextDecision lengths with
    | none => pure k
    | some d => do assignAxesWithin lengths n (← k.applyDecision d lengths)

/-- Number of indices whose axis is left open. -/
def openCount (k : Kernel) : Nat := (k.tags.values.filter IndexTag.isAuto).length

/-- The kernel with every open axis decided (`assign_automatic_axes`). The axis lengths are those of
the tags at the start, and each decision settles one index. -/
def assignAutomaticAxes (k : Kernel) : Attempt Diagnostic Kernel := do
  let lengths ← k.localAxisLengths
  assignAxesWithin lengths (k.openCount + 1) k

end Kernel

end LoopKernel
