import LoopKernel.Device.Conflicts
import LoopKernel.Diagnostic
import LoopKernel.Kernel.Basic

/-!
# Layouts of temporaries

The last extent of a temporary in banked local memory is padded where this lowers the number of bank
conflicts, as long as all local temporaries stay below the size of local memory.
Spec guidance: `SPEC_FULL.md` §4.7.
-/

namespace LoopKernel

/-- The padding chosen so far for a temporary. -/
structure Padding where
  layout : List Int
  conflict : Option Conflict
  increment : Option Int
  /-- Whether a better layout was passed over because it does not fit. -/
  overBudget : Bool

/-- The product of extents, negative ones counted as zero. -/
def elementCount (shape : List Int) : Checked Nat :=
  shape.foldlM (fun product n => checkUnsigned 64 (product * n.toNat)) 1

/-- A layout with its last extent increased. -/
def padLast : List Int → Int → Checked (List Int)
  | [], _ => pure []
  | [last], increment => do pure [← check64 (last + increment)]
  | n :: rest, increment => do pure (n :: (← padLast rest increment))

namespace Kernel

/-- Bytes of the local temporaries other than a given one. -/
def otherLocalBytes (k : Kernel) (name : String) : Checked Nat :=
  (k.temporaries.values.filter fun t => t.isLocal && t.name != name).foldlM
    (fun total t => do checkUnsigned 64 (total + (← t.bytes))) 0

/-- Try a larger last extent: it is taken when it has fewer conflicts and fits. -/
def tryPadding (device : Device) (others : Nat) (t : Temporary) (layout : List Int)
    (best : Padding) (increment : Int) : Checked Padding := do
  let padded ← padLast layout increment
  let conflict ← device.localConflict t.dtype.itemsize t.shape padded
  if conflictMultiplier best.conflict ≤ conflictMultiplier conflict then pure best
  else
    let bytes ← checkUnsigned 64 (t.dtype.itemsize * (← elementCount padded))
    let total ← checkUnsigned 64 (others + bytes)
    if device.usableMemory ≤ total then pure { best with overBudget := true }
    else pure ⟨padded, conflict, some increment, best.overBudget⟩

/-- Try all increments from `increment` on, so many of them. -/
def tryPaddings (device : Device) (others : Nat) (t : Temporary) (layout : List Int) :
    Nat → Int → Padding → Checked Padding
  | 0, _, best => pure best
  | count + 1, increment, best => do
    tryPaddings device others t layout count (increment + 1)
      (← tryPadding device others t layout best increment)

/-- The best padding of a layout: the last extent grows by less than half of it. -/
def bestPadding (device : Device) (others : Nat) (t : Temporary) (layout : List Int) :
    Checked Padding := do
  let conflict ← device.localConflict t.dtype.itemsize t.shape layout
  tryPaddings device others t layout ((layout.getLastD 0) / 2 - 1).toNat 1
    ⟨layout, conflict, none, false⟩

/-- What is to be said about a padding: nothing when no conflict is left. -/
def paddingProblems (name : String) (p : Padding) : List Diagnostic :=
  if conflictMultiplier p.conflict = 1 then []
  else [.about (.var name) (.bankConflict p.conflict p.increment p.overBudget)]

/-- The layout of a temporary, with what is to be said about it. -/
def chooseLayout (k : Kernel) (name : String) (t : Temporary) :
    Checked (List Int × List Diagnostic) :=
  if !t.isLocal then pure (t.shape, [])
  else
    match k.device.memoryKind, t.layout with
    | .emulated, layout => pure (layout, [])
    | .unknown, layout => pure (layout, [.about (.var name) (.unknownMemoryKind k.device.name)])
    | .dedicated, [] => pure ([], [])
    | .dedicated, layout => do
      let p ← bestPadding k.device (← k.otherLocalBytes name) t layout
      pure (p.layout, paddingProblems name p)

/-- Choose the layouts of the named temporaries, one after the other. -/
def chooseLayouts : List String → Kernel → Checked (Kernel × List Diagnostic)
  | [], k => pure (k, [])
  | name :: rest, k =>
    match k.temporaries.get? name with
    | none => chooseLayouts rest k
    | some t => do
      let (layout, problems) ← k.chooseLayout name t
      let t := { t with storageShape := some layout }
      let (k, more) ← chooseLayouts rest { k with temporaries := k.temporaries.insert name t }
      pure (k, problems ++ more)

/-- The kernel with a layout for every temporary, and what is to be said about the layouts
(`adjust_local_temp_var_storage`). -/
def adjustStorage (k : Kernel) : Checked (Kernel × List Diagnostic) :=
  chooseLayouts k.temporaries.keys k

end Kernel

end LoopKernel
