import LoopKernel.Checked
import LoopKernel.Device.Basic
import LoopKernel.SortedMap

/-!
# Bank conflicts

Lanes that access local memory together conflict when one bank has to serve several words. Lanes
with the same word do not conflict. Each axis of an array is swept in turn, and the first one with a
conflict is reported.
Spec guidance: `SPEC_FULL.md` §4.7.
-/

namespace LoopKernel

/-- A conflict (`ConflictReport`): how many words one bank serves while lanes sweep an axis, counted
from the right. -/
structure Conflict where
  words : Nat
  axis : Nat
  bank : Nat
deriving DecidableEq, Repr

namespace Conflict

/-- The wording of a conflict. -/
def text (c : Conflict) : String :=
  toString c.words ++ "x conflict on axis " ++ toString c.axis ++ " (from right, 0-based): bank " ++
    toString c.bank ++ " serves " ++ toString c.words ++ " words"

end Conflict

/-- Worst number of words that one bank serves at a time: one without a conflict. -/
def conflictMultiplier : Option Conflict → Nat
  | none => 1
  | some c => c.words

namespace Device

/-- An axis of an array, from the fastest-varying one on: its logical and its stored extent. -/
structure Axis where
  size : Nat
  stored : Nat
deriving DecidableEq, Repr

/-- The axes of a shape stored in a layout, from the right. An extent counts as at least one. -/
def axesOf (shape storage : List Int) : List Axis :=
  (shape.reverse.zip storage.reverse).map fun (size, stored) =>
    ⟨(max size 1).toNat, (max stored 1).toNat⟩

/-- Byte address of a lane that sweeps the axes from number `laneAxis` on, starting from an address
and a stride. The lane number is spread over the axes, the fastest one first. -/
def laneAddress (laneAxis : Nat) : List Axis → (axis lane address stride : Nat) → Checked Nat
  | [], _, _, address, _ => pure address
  | a :: rest, axis, lane, address, stride => do
    let index := if laneAxis ≤ axis then lane % a.size else 0
    let left := if laneAxis ≤ axis then lane / a.size else lane
    let offset ← checkUnsigned 64 (index * stride)
    let address ← checkUnsigned 64 (address + offset)
    let stride ← checkUnsigned 64 (stride * a.stored)
    laneAddress laneAxis rest (axis + 1) left address stride

/-- The words that the lanes access, by bank. -/
def wordsByBank (d : Device) (words : List Nat) : SortedMap Nat (List Nat) :=
  let banks := max d.bankCount 1
  words.foldl
    (fun m word =>
      let served := m.getD (word % banks) []
      if served.contains word then m else m.insert (word % banks) (word :: served))
    ∅

/-- The bank that serves the most words, the first one of several, with their number. -/
def busiestBank (banks : List (Nat × List Nat)) : Option (Nat × Nat) :=
  banks.foldl
    (fun best (bank, words) =>
      match best with
      | none => some (bank, words.length)
      | some (b, n) => if n < words.length then some (bank, words.length) else some (b, n))
    none

/-- The words that the lanes access while they sweep an axis. -/
def wordsAlong (d : Device) (itemsize : Nat) (axes : List Axis) (laneAxis : Nat) :
    Checked (List Nat) :=
  (List.range (max d.lanes 1)).mapM fun lane => do
    pure ((← laneAddress laneAxis axes 0 lane 0 itemsize) / max d.bankWidth 1)

/-- The conflict on an axis, if there is one. -/
def conflictOnAxis (d : Device) (itemsize : Nat) (axes : List Axis) (laneAxis : Nat) :
    Checked (Option Conflict) := do
  let words ← d.wordsAlong itemsize axes laneAxis
  match busiestBank (d.wordsByBank words).entries with
  | some (bank, count) => pure (if 1 < count then some ⟨count, laneAxis, bank⟩ else none)
  | none => pure none

/-- The first conflict on one of the listed axes. -/
def firstConflict (d : Device) (itemsize : Nat) (axes : List Axis) :
    List Nat → Checked (Option Conflict)
  | [] => pure none
  | laneAxis :: rest => do
    match ← d.conflictOnAxis itemsize axes laneAxis with
    | some c => pure (some c)
    | none => firstConflict d itemsize axes rest

/-- The conflict of an array with a logical shape stored in a layout, if there is one
(`local_access_conflicts`). -/
def localConflict (d : Device) (itemsize : Nat) (shape storage : List Int) :
    Checked (Option Conflict) :=
  d.firstConflict itemsize (axesOf shape storage) (List.range shape.length)

end Device

end LoopKernel
