/-!
# Tags of loop indices

How each loop index is implemented: as a sequential loop, unrolled, by instruction-level
parallelism, by vector lanes, or by an axis of the work group or grid.
Spec guidance: `SPEC_FULL.md` §§3/11.
-/

namespace LoopKernel

/-- How a loop index is implemented. -/
inductive IndexTag where
  | sequential
  | unroll
  | ilp
  | vectorize
  | groupAxis (axis : Nat)
  | localAxis (axis : Nat)
  /-- A local axis that is still to be chosen. -/
  | autoLocalAxis
deriving DecidableEq, Repr

namespace IndexTag

/-- The number of an axis: decimal digits after an optional plus sign, below `2 ^ 64`. -/
def axisNumber? (text : List Char) : Option Nat :=
  let digits := match text with
    | '+' :: rest => rest
    | _ => text
  if digits.isEmpty || !digits.all Char.isDigit then none
  else
    let n := digits.foldl (fun n c => 10 * n + (c.toNat - '0'.toNat)) 0
    if n < 1 <<< 64 then some n else none

/-- The tag of a kind letter and an axis number. -/
def ofAxis? (kind axis : List Char) : Option IndexTag := do
  let axis ← axisNumber? axis
  match kind with
  | ['l'] => some (.localAxis axis)
  | ['g'] => some (.groupAxis axis)
  | _ => none

/-- The tag of a text. -/
def parse? (text : String) : Option IndexTag :=
  match text with
  | "seq" => some .sequential
  | "unr" => some .unroll
  | "ilp" => some .ilp
  | "vec" => some .vectorize
  | "l.auto" => some .autoLocalAxis
  | _ =>
    match text.toList.span (· != '.') with
    | (kind, _ :: axis) => ofAxis? kind axis
    | (_, []) => none

/-- The text of a tag. -/
def text : IndexTag → String
  | .sequential => "seq"
  | .unroll => "unr"
  | .ilp => "ilp"
  | .vectorize => "vec"
  | .groupAxis n => "g." ++ toString n
  | .localAxis n => "l." ++ toString n
  | .autoLocalAxis => "l.auto"

/-- Whether the tag is a local axis, chosen or not (`is_local`). -/
def isLocal : IndexTag → Bool
  | .localAxis _ | .autoLocalAxis => true
  | _ => false

/-- Whether the local axis is still to be chosen (`is_auto`). -/
def isAuto (t : IndexTag) : Bool := t == .autoLocalAxis

/-- Whether iterations may run at the same time (`is_concurrent`). -/
def isConcurrent : IndexTag → Bool
  | .sequential | .unroll => false
  | _ => true

/-- The number of a chosen local axis. -/
def localAxis? : IndexTag → Option Nat
  | .localAxis n => some n
  | _ => none

end IndexTag

end LoopKernel
