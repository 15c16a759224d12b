import LoopKernel.Kernel.Basic

/-!
# Locality of temporaries

A temporary is in local memory when some instruction writes it at an index that depends on a loop
index tagged with a local axis.
Spec guidance: `SPEC_FULL.md` §4.1.
-/

namespace LoopKernel.Kernel

/-- Whether an instruction writes at an index that depends on a local axis it runs under. -/
def writesAlongLocalAxis (k : Kernel) (insn : Instruction) : Bool :=
  (k.insnInames insn).toList.any fun iname =>
    (Expr.dependenciesOfAll insn.targetIndex).contains iname && (k.tag iname).isLocal

/-- Whether one of several instructions writes along a local axis. -/
def anyWritesLocally (k : Kernel) (ids : NameSet) : Bool :=
  (ids.toList.filterMap k.insn?).any k.writesAlongLocalAxis

/-- The kernel with the locality of every temporary decided anew (`mark_local_temporaries`). -/
def markLocalTemporaries (k : Kernel) : Kernel :=
  let writers := k.writers
  { k with temporaries := k.temporaries.mapValues fun _ t =>
      { t with isLocal := k.anyWritesLocally (writers.getD t.name ∅) } }

end LoopKernel.Kernel
