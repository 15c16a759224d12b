import LoopKernel.Diagnostic
import LoopKernel.Kernel.Basic

/-!
# Loop indices for extra runs

An instruction that may be run again can be moved under loop indices that occur together with its
own. Its own indices, and those used by a single instruction, are left out.
Spec guidance: `SPEC_FULL.md` §4.6.
-/

namespace LoopKernel.Kernel

/-- The indices of all instructions that run over an index. -/
def occursWith (k : Kernel) (iname : String) : NameSet :=
  ((k.instructions.map k.insnInames).filter fun s => s.contains iname).foldl NameSet.union ∅

/-- Number of instructions that run over an index. -/
def useCount (k : Kernel) (iname : String) : Nat :=
  ((k.instructions.map k.insnInames).filter fun s => s.contains iname).length

/-- The indices that an instruction may be run under in addition. -/
def boostTargets (k : Kernel) (insn : Instruction) : NameSet :=
  let own := k.insnInames insn
  NameSet.ofList ((own.toList.flatMap fun i => (k.occursWith i).toList).filter fun i =>
    !own.contains i && k.useCount i != 1)

/-- An instruction with the indices it may be run under in addition. -/
def limitFor (k : Kernel) (insn : Instruction) : Attempt Diagnostic Instruction :=
  match insn.boostable with
  | none => .fail (.about (.insn insn.id) .undeterminedBoostability)
  | some false => pure { insn with boostableInto := some ∅ }
  | some true => pure { insn with boostableInto := some (k.boostTargets insn) }

/-- The kernel with the indices for extra runs of every instruction (`limit_boostability`). -/
def limitBoostability (k : Kernel) : Attempt Diagnostic Kernel := do
  pure { k with instructions := ← k.instructions.mapM k.limitFor }

end LoopKernel.Kernel
