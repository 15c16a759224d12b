import LoopKernel.Kernel.Basic

/-!
# Tables over a schedule

For every position of a scheduled kernel: the active loops, the enclosing kernel call, the barriers
before it, and for a block its end. The tables are filled in one pass over the schedule, which also
finds what is wrong with it.
Spec guidance: `SPEC_FULL.md` §§4.8/15.
-/

namespace LoopKernel

/-- What holds just before a position of a schedule. -/
structure SchedulePoint where
  active : NameSet
  /-- Position of the enclosing kernel call. -/
  call : Option Nat
  /-- Number of barriers before. -/
  barriers : Nat
deriving DecidableEq

/-- The loop indices that conditions in a kernel call may use, without and with a barrier in the
way. -/
structure UsableInames where
  free : NameSet
  acrossBarrier : NameSet
deriving DecidableEq

/-- Tables over the schedule of a kernel (`CodegenCache`). -/
structure ScheduleTables where
  kernel : Kernel
  schedule : Schedule
  /-- One point for each position, and one for the end. -/
  points : List SchedulePoint
  /-- Ends of blocks by their starts. -/
  blockEnds : SortedMap Nat Nat
  /-- Usable indices by the position of the kernel call. -/
  usable : SortedMap Nat UsableInames

namespace ScheduleTables

/-- The point after an item. -/
def pointAfter (k : Kernel) (index : Nat) (item : ScheduleItem) (p : SchedulePoint) :
    Except ScheduleError SchedulePoint :=
  match item with
  | .enterLoop iname => .ok { p with active := p.active.add iname }
  | .leaveLoop iname =>
    if p.active.contains iname then .ok { p with active := p.active.remove iname }
    else .error (.inactiveLoop index iname)
  | .callKernel _ => .ok { p with call := some index }
  | .returnFromKernel _ => .ok { p with call := none }
  | .barrier => .ok { p with barriers := p.barriers + 1 }
  | .run insn =>
    if (k.insn? insn).isSome then .ok p else .error (.unknownInstruction index insn)

/-- The open blocks and the closed ones, innermost first, after an item. -/
def blocksAfter (index : Nat) (item : ScheduleItem) (openBlocks : List Nat)
    (ends : SortedMap Nat Nat) : Except ScheduleError (List Nat × SortedMap Nat Nat) :=
  if item.opensBlock then .ok (index :: openBlocks, ends)
  else if item.closesBlock then
    match openBlocks with
    | [] => .error (.notBeginBlock index)
    | start :: outer => .ok (outer, ends.insert start index)
  else .ok (openBlocks, ends)

/-- The points after each of the items from a position on, and the ends of all blocks. At the end no
block may be open; the outermost one is reported. -/
def fill (k : Kernel) : Schedule → (index : Nat) → SchedulePoint → (openBlocks : List Nat) →
    SortedMap Nat Nat → Except ScheduleError (List SchedulePoint × SortedMap Nat Nat)
  | [], _, _, openBlocks, ends =>
    match openBlocks.getLast? with
    | some start => .error (.unmatched start)
    | none => .ok ([], ends)
  | item :: rest, index, p, openBlocks, ends => do
    let p ← pointAfter k index item p
    let (openBlocks, ends) ← blocksAfter index item openBlocks ends
    let (points, ends) ← fill k rest (index + 1) p openBlocks ends
    pure (p :: points, ends)

/-- Whether conditions may use an index with a tag. -/
def isUsable (acrossBarrier : Bool) (tag : IndexTag) : Bool :=
  tag.isConcurrent && tag != .vectorize && tag != .ilp && !(tag.isLocal && acrossBarrier)

/-- The usable indices of the instructions in a block (`compute_subkernel_usable`). -/
def usableIn (k : Kernel) (insns : NameSet) (acrossBarrier : Bool) : NameSet :=
  NameSet.ofList (((insns.toList.filterMap k.insn?).flatMap fun insn =>
    (k.insnInames insn).toList).filter fun i => isUsable acrossBarrier (k.tag i))

/-- The positions of the kernel calls among the items from a position on. -/
def callPositions : Schedule → Nat → List Nat
  | [], _ => []
  | .callKernel _ :: rest, index => index :: callPositions rest (index + 1)
  | _ :: rest, index => callPositions rest (index + 1)

/-- Note the usable indices of a kernel call. -/
def addUsable (k : Kernel) (s : Schedule) (m : SortedMap Nat UsableInames) (index : Nat) :
    Except ScheduleError (SortedMap Nat UsableInames) := do
  let insns ← s.insnsInBlock index
  pure (m.insert index ⟨usableIn k insns false, usableIn k insns true⟩)

/-- The tables of a kernel. -/
def ofKernel (k : Kernel) : Except ScheduleError ScheduleTables := do
  let some s := k.schedule | .error .missing
  let start : SchedulePoint := ⟨∅, none, 0⟩
  let (points, ends) ← fill k s 0 start [] ∅
  let usable ← (callPositions s 0).foldlM (addUsable k s) ∅
  pure ⟨k, s, start :: points, ends, usable⟩

/-- The point just before a position. -/
def point (t : ScheduleTables) (index : Nat) : Except ScheduleError SchedulePoint :=
  match t.points[index]? with
  | some p => .ok p
  | none => .error (.outOfRange index t.schedule.length)

/-- The loop indices that are active just before a position (`find_active_inames_at`). -/
def activeInames (t : ScheduleTables) (index : Nat) : Except ScheduleError NameSet := do
  pure (← t.point index).active

/-- The kernel call around the point just before a position (`get_callkernel_index`). -/
def enclosingCall (t : ScheduleTables) (index : Nat) : Except ScheduleError (Option Nat) := do
  pure (← t.point index).call

/-- Number of barriers before a position. -/
def barriersBefore (t : ScheduleTables) (index : Nat) : Nat :=
  match t.points[index]? with
  | some p => p.barriers
  | none => 0

/-- Whether the block opened at a position holds a barrier (`has_barrier_within`). A barrier holds
itself. -/
def hasBarrier (t : ScheduleTables) (index : Nat) : Except ScheduleError Bool :=
  match t.schedule[index]? with
  | none => .error (.outOfRange index t.schedule.length)
  | some item =>
    if item.opensBlock then
      match t.blockEnds.get? index with
      | none => .error (.unmatched index)
      | some stop => .ok (decide (t.barriersBefore (index + 1) < t.barriersBefore stop))
    else .ok (item == .barrier)

/-- The usable indices of the kernel call at a position (`usable_inames_in_subkernel`). -/
def usableInames (t : ScheduleTables) (index : Nat) (acrossBarrier : Bool) :
    Except ScheduleError NameSet :=
  match t.usable.get? index with
  | some u => .ok (if acrossBarrier then u.acrossBarrier else u.free)
  | none => .error (.notCallKernel index)

/-- The loop indices that a condition at a position may test (`usable_inames_for_conditional`): the
active ones, and in a kernel call its usable ones. -/
def conditionInames (t : ScheduleTables) (index : Nat) : Except ScheduleError NameSet := do
  let active ← t.activeInames index
  match ← t.enclosingCall index with
  | none => pure active
  | some call =>
    let acrossBarrier ← if index < t.schedule.length then t.hasBarrier index else pure false
    pure (active.union (← t.usableInames call acrossBarrier))

end ScheduleTables

end LoopKernel
