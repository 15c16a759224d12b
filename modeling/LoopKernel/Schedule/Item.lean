import LoopKernel.NameSet

/-!
# Schedules

A schedule is a flat list of items in which loops and kernel calls are pairs of an opening and a
closing item. Blocks are found by matching these.
Spec guidance: `SPEC_FULL.md` §§3/14.
-/

namespace LoopKernel

/-- An item of a schedule. -/
inductive ScheduleItem where
  | enterLoop (iname : String)
  | leaveLoop (iname : String)
  | callKernel (name : String)
  | returnFromKernel (name : String)
  | barrier
  | run (insn : String)
deriving DecidableEq, Repr

/-- A list of items in execution order. -/
abbrev Schedule := List ScheduleItem

/-- Why a question about a schedule has no answer. -/
inductive ScheduleError where
  | missing
  | outOfRange (index length : Nat)
  | unmatched (index : Nat)
  | inactiveLoop (index : Nat) (iname : String)
  | notBeginBlock (index : Nat)
  | notCallKernel (index : Nat)
  | unknownInstruction (index : Nat) (insn : String)
deriving DecidableEq, Repr

/-- The wording of an error. -/
def ScheduleError.message : ScheduleError → String
  | .missing => "kernel has no schedule"
  | .outOfRange index length =>
    "schedule position " ++ toString index ++ " out of range (length " ++ toString length ++ ")"
  | .unmatched index => "block opened at position " ++ toString index ++ " is never closed"
  | .inactiveLoop index iname =>
    "position " ++ toString index ++ " leaves loop '" ++ iname ++ "' which is not active"
  | .notBeginBlock index => "position " ++ toString index ++ " does not open a block"
  | .notCallKernel index => "position " ++ toString index ++ " is not a kernel call"
  | .unknownInstruction index insn =>
    "position " ++ toString index ++ " runs unknown instruction '" ++ insn ++ "'"

namespace ScheduleItem

/-- Whether the item opens a block (`is_begin_block`). -/
def opensBlock : ScheduleItem → Bool
  | .enterLoop _ | .callKernel _ => true
  | _ => false

/-- Whether the item closes a block (`is_end_block`). -/
def closesBlock : ScheduleItem → Bool
  | .leaveLoop _ | .returnFromKernel _ => true
  | _ => false

/-- Text of an item. -/
def text : ScheduleItem → String
  | .enterLoop iname => "for " ++ iname
  | .leaveLoop iname => "end " ++ iname
  | .callKernel name => "call " ++ name
  | .returnFromKernel name => "return " ++ name
  | .barrier => "barrier"
  | .run insn => "run " ++ insn

/-- The instruction that an item runs. -/
def insn? : ScheduleItem → Option String
  | .run insn => some insn
  | _ => none

end ScheduleItem

namespace Schedule

/-- Number of items up to and including the one that closes the innermost open block, with `depth`
more blocks open around it. -/
def closingOffset? : Schedule → (depth : Nat) → Option Nat
  | [], _ => none
  | item :: rest, depth =>
    if item.opensBlock then (closingOffset? rest (depth + 1)).map (· + 1)
    else if item.closesBlock then
      match depth with
      | 0 => some 1
      | depth + 1 => (closingOffset? rest depth).map (· + 1)
    else (closingOffset? rest depth).map (· + 1)

/-- The position that closes the block opened at a position. -/
def blockEnd (s : Schedule) (start : Nat) : Except ScheduleError Nat :=
  match s.drop start with
  | [] => .error (.outOfRange start s.length)
  | first :: rest =>
    if !first.opensBlock then .error (.notBeginBlock start)
    else
      match closingOffset? rest 0 with
      | some offset => .ok (start + offset)
      | none => .error (.unmatched start)

/-- The items of the block opened at a position, both ends included (`gather_schedule_block`). -/
def block (s : Schedule) (start : Nat) : Except ScheduleError Schedule := do
  let stop ← s.blockEnd start
  pure ((s.drop start).take (stop + 1 - start))

/-- The instructions run inside the block opened at a position (`insn_ids_for_block_at`). -/
def insnsInBlock (s : Schedule) (start : Nat) : Except ScheduleError NameSet := do
  pure (NameSet.ofList ((← s.block start).filterMap ScheduleItem.insn?))

end Schedule

end LoopKernel
