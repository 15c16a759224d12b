import LoopKernel.Kernel.Lengths

/-!
# Accumulators for reductions

Every reduction becomes a temporary that accumulates its value: an instruction that sets it to the
neutral element, and one that applies the operation to it and the body, run before the instruction
that owned the reduction. Under instruction-level parallelism each lane has an accumulator of its
own.
Spec guidance: `SPEC_FULL.md` §4.3.
-/

namespace LoopKernel

/-- The instruction whose reductions are realized (`begin`). -/
structure ReductionOwner where
  id : String
  deps : NameSet
  inames : NameSet
  /-- Loop indices with instruction-level parallelism, with their lengths. -/
  lanes : List (String × Int)

/-- The element of an accumulator that an owner uses: the accumulator itself, or that of the present
lane. -/
def ReductionOwner.element (owner : ReductionOwner) (name : String) : Expr :=
  match owner.lanes with
  | [] => .var name
  | lanes => .subscript name (lanes.map fun lane => .var lane.1)

/-- The temporaries and instructions made so far, and the updates of the accumulators of the present
owner (`Accumulators`). -/
structure Realization where
  temporaries : SortedMap String Temporary
  ids : List String
  emitted : List Instruction
  updates : SortedMap String String

namespace Realization

/-- An id for a new instruction (`fresh_id`). -/
def freshId (k : Kernel) (base : String) : StateM Realization String := fun r =>
  let id := k.freshInsn base r.ids
  (id, { r with ids := id :: r.ids })

/-- Append an instruction (`push`). -/
def emit (insn : Instruction) : StateM Realization Unit := fun r =>
  ((), { r with ids := insn.id :: r.ids, emitted := r.emitted ++ [insn] })

/-- Make an accumulator with one element for each lane. -/
def addAccumulator (k : Kernel) (owner : ReductionOwner) (dtype : Dtype) :
    StateM Realization (String × Expr) := fun r =>
  let name := k.freshVar "acc" r.temporaries.keys
  let t := Temporary.ofShape name dtype (owner.lanes.map Prod.snd)
  ((name, owner.element name), { r with temporaries := r.temporaries.insert name t })

/-- The loop indices around a reduction: those of its owner, and the dimensions that its body
mentions and does not bind. -/
def outerInames (k : Kernel) (owner : ReductionOwner) (bound : NameSet) (body : Expr) : NameSet :=
  owner.inames.union (body.dependencies.select fun d => k.domain.hasDim d && !bound.contains d)

/-- The updates of the accumulators that a body reads. -/
def updatesRead (updates : SortedMap String String) (body : Expr) : List String :=
  body.dependencies.toList.filterMap updates.get?

/-- The instruction that sets an accumulator to the neutral element (INIT in §4.3). -/
def initInsn (id : String) (acc : Expr) (op : ReductionOp) (outer bound : NameSet) : Instruction :=
  { Instruction.assign id acc op.neutral with forcedInames := outer.diff bound }

/-- The instruction that applies the operation to an accumulator and the body (UPDATE in §4.3). -/
def updateInsn (id : String) (deps : NameSet) (acc : Expr) (op : ReductionOp) (body : Expr)
    (outer bound : NameSet) : Instruction :=
  { Instruction.assign id acc (op.apply acc body) with
    deps := deps
    forcedInames := outer.union bound }

/-- Replace a reduction by its accumulator (`rewrite` of `Accumulators`). -/
def realize (k : Kernel) (owner : ReductionOwner) (op : ReductionOp) (binders : List Binder)
    (body : Expr) : StateM Realization Expr := do
  let names := binders.map Binder.name
  let bound := NameSet.ofList names
  let outer := outerInames k owner bound body
  let (accName, acc) ← addAccumulator k owner op.dtype
  let base := owner.id ++ "_" ++ "_".intercalate names
  let initId ← freshId k (base ++ "_init")
  let updateId ← freshId k (base ++ "_update")
  let read := updatesRead (← get).updates body
  modify fun r => { r with updates := r.updates.insert accName updateId }
  emit (initInsn initId acc op outer bound)
  emit (updateInsn updateId ((owner.deps.add initId).addAll read) acc op body outer bound)
  pure acc

end Realization

namespace Kernel

/-- The loop indices with instruction-level parallelism among several ones, with their lengths. -/
def lanesOf (k : Kernel) (inames : NameSet) : Attempt Diagnostic (List (String × Int)) :=
  (inames.toList.filter fun i => k.tag i == .ilp).mapM fun i => do pure (i, ← k.inameLength i)

/-- Realize the reductions of an instruction, and append it after what they became. -/
def realizeOwner (k : Kernel) (r : Realization) (insn : Instruction) :
    Attempt Diagnostic Realization := do
  let inames := k.insnInames insn
  let owner : ReductionOwner := ⟨insn.id, insn.deps, inames, ← k.lanesOf inames⟩
  let (expression, r) :=
    (insn.expression.mapReductionsM (Realization.realize k owner)).run { r with updates := ∅ }
  let changed : Instruction :=
    { insn with
      expression := expression
      deps := insn.deps.addAll r.updates.values
      forcedInames := inames }
  pure ((Realization.emit changed).run r).2

/-- The instructions in which a reduction is left. -/
def unrealized (k : Kernel) : List Instruction :=
  k.instructions.filter fun insn =>
    insn.expression.containsReduction || insn.assignee.containsReduction

/-- The kernel without reductions (`realize_reduction`). -/
def realizeReduction (k : Kernel) : Attempt Diagnostic Kernel := do
  let r ← k.instructions.foldlM k.realizeOwner ⟨∅, [], [], ∅⟩
  let temporaries := r.temporaries.entries.foldl (fun m e => m.insert e.1 e.2) k.temporaries
  let out : Kernel := { k with instructions := r.emitted, temporaries := temporaries }
  match out.unrealized with
  | [] => pure out
  | insn :: _ => .fail (.about (.insn insn.id) .reductionSurvived)

end Kernel

end LoopKernel
