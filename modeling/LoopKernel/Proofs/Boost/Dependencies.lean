import LoopKernel.Proofs.Boost.DataFlow

/-!
# Inferred dependencies

After inference an instruction depends on the single writers of the declared variables that its
expression mentions, on what it depended on before, and on nothing else. Variables that only the
index of the assignee mentions give no dependency.
-/

namespace LoopKernel.Kernel

variable {k : Kernel}

/-- An instruction is found under its id when no other one has that id. -/
theorem insn?_id (hk : k.insnIds.Nodup) {insn : Instruction} (hi : insn ∈ k.instructions) :
    k.insn? insn.id = some insn := by
  unfold insn?
  cases hf : k.instructions.find? fun other => other.id == insn.id with
  | none =>
    have hno := List.find?_eq_none.mp hf insn hi
    simp at hno
  | some other =>
    have hid : other.id = insn.id := by simpa using List.find?_some hf
    rw [DataFlow.eq_of_id_eq hk (List.mem_of_find?_eq_some hf) hi hid]

/-- The variables that instructions which depend on their own results assign to. -/
def poisoned (k : Kernel) : NameSet :=
  NameSet.ofList ((k.cyclicInsns (DataFlow.ofKernel k)).map Instruction.target)

/-- An instruction after inference. -/
def inferred (k : Kernel) (insn : Instruction) : Instruction :=
  inferFor (DataFlow.ofKernel k) k.poisoned insn

/-- Inference works on each instruction apart. -/
theorem instructions_inferDependencies (k : Kernel) :
    k.inferDependencies.1.instructions = k.instructions.map k.inferred := rfl

/-- Inference keeps ids. -/
theorem insn?_inferDependencies (k : Kernel) (id : String) :
    k.inferDependencies.1.insn? id = (k.insn? id).map k.inferred := by
  rw [insn?, instructions_inferDependencies, List.find?_map]
  rfl

/-- What an instruction depends on after inference: what it depended on before, and the writer of
each declared variable that its expression mentions and one instruction alone assigns to. -/
theorem mem_deps_inferDependencies (hk : k.insnIds.Nodup) {insn : Instruction}
    (hi : insn ∈ k.instructions) :
    ∃ after, k.inferDependencies.1.insn? insn.id = some after ∧
      ∀ id, id ∈ after.deps ↔ id ∈ insn.deps ∨
        ∃ name writer, name ∈ insn.expression.dependencies ∧ k.Declares name ∧
          k.assigning name = [writer] ∧ id = writer.id := by
  refine ⟨k.inferred insn, ?_, ?_⟩
  · rw [insn?_inferDependencies, insn?_id hk hi, Option.map_some]
  · intro id
    simp only [inferred, inferFor]
    rw [NameSet.mem_union, DataFlow.mem_singleWriters hk hi]

/-- A kernel that copies an element chosen by what another instruction writes. -/
def gatherKernel : Kernel where
  name := "gather"
  domain := .whole ["i"]
  instructions :=
    [.assign "choose" (.subscript "p" [.var "i"]) (.var "i"),
      .assign "copy" (.subscript "out" [.var "i"]) (.subscript "a" [.subscript "p" [.var "i"]])]
  args :=
    [⟨"p", .int32, .global [.int 4]⟩, ⟨"a", .float32, .global [.int 4]⟩,
      ⟨"out", .float32, .global [.int 4]⟩]
  temporaries := ∅
  tags := ∅
  device := .fermi
  schedule := none

/-- A variable read in the index of an operand gives a dependency. -/
theorem mem_deps_inferDependencies_gather :
    ∃ after, gatherKernel.inferDependencies.1.insn? "copy" = some after ∧
      "choose" ∈ after.deps := by
  have hi : .assign "copy" (.subscript "out" [.var "i"])
      (.subscript "a" [.subscript "p" [.var "i"]]) ∈ gatherKernel.instructions := by
    simp [gatherKernel]
  obtain ⟨after, hfound, hdeps⟩ := mem_deps_inferDependencies (k := gatherKernel) (by decide) hi
  refine ⟨after, hfound, (hdeps _).mpr (.inr ⟨"p", _, ?_, ?_, rfl, rfl⟩)⟩
  · simp [Instruction.assign, Expr.dependencies, Expr.dependenciesOfAll]
  · simp [Declares, gatherKernel, argNames]

end LoopKernel.Kernel
