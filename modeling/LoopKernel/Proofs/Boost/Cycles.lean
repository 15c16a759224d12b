import LoopKernel.Proofs.Boost.Dependencies
import LoopKernel.Proofs.Expr.Occurrence
import Mathlib.Logic.Relation

/-!
# Cycles in the data flow

An instruction may be run again exactly if it is on no cycle of the data flow and touches nothing
that an instruction on a cycle assigns to. The search for cycles goes over the variables that values
come from; the cycles themselves are those of the relation between instructions.
-/

namespace LoopKernel

namespace Kernel

variable {k : Kernel}

/-- Whether an instruction takes values from another one, which assigns to an argument or a
temporary that occurs freely in its expression. -/
def TakesFrom (k : Kernel) (reader writer : Instruction) : Prop :=
  writer ∈ k.instructions ∧ k.Declares writer.target ∧
    reader.expression.OccursFree writer.target

/-- Whether an instruction takes values from itself, through any number of other ones. -/
def OnCycle (k : Kernel) (insn : Instruction) : Prop := Relation.TransGen k.TakesFrom insn insn

/-- Values are taken from instructions of the kernel. -/
theorem mem_instructions_of_transGen {reader writer : Instruction}
    (h : Relation.TransGen k.TakesFrom reader writer) : writer ∈ k.instructions := by
  cases h with
  | single h => exact h.1
  | tail _ h => exact h.1

end Kernel

namespace DataFlow

variable {k : Kernel}

/-- The names gathered for several keys. -/
theorem mem_gather {m : SortedMap String NameSet} {keys : NameSet} {n : String} :
    n ∈ gather m keys ↔ ∃ key ∈ keys, n ∈ m.getD key ∅ := by
  have hfold : gather m keys = (keys.toList.map fun key => m.getD key ∅).foldl NameSet.union ∅ :=
    List.foldl_map.symm
  rw [hfold, NameSet.mem_foldl_union]
  simp

/-- What the writers of a variable mention is what the instructions that assign to it mention. -/
theorem mem_originsOf {name source : String} :
    name ∈ (ofKernel k).originsOf source ↔
      ∃ writer ∈ k.assigning source, name ∈ (ofKernel k).usesOf writer.id := by
  have horigins : (ofKernel k).origins.getD source ∅ =
      gather (ofKernel k).uses ((ofKernel k).writersOf source) := by
    change (k.writers.mapValues fun _ ids => gather (ofKernel k).uses ids).getD source ∅ =
      gather (ofKernel k).uses (k.writers.getD source ∅)
    rw [SortedMap.getD, SortedMap.get?_mapValues, SortedMap.getD]
    cases k.writers.get? source with
    | none => rfl
    | some ids => rfl
  rw [originsOf, NameSet.mem_toList, horigins, mem_gather]
  constructor
  · rintro ⟨id, hid, hname⟩
    obtain ⟨writer, hwriter, rfl⟩ := mem_writersOf.mp hid
    exact ⟨writer, hwriter, NameSet.mem_toList.mpr hname⟩
  · rintro ⟨writer, hwriter, hname⟩
    exact ⟨writer.id, mem_writersOf.mpr ⟨writer, hwriter, rfl⟩, NameSet.mem_toList.mp hname⟩

section UniqueIds

variable (hk : k.insnIds.Nodup)

include hk

/-- The declared variables that occur freely in the expression of an instruction. -/
theorem mem_usesOf_iff_occursFree {insn : Instruction} (hi : insn ∈ k.instructions)
    {name : String} : name ∈ (ofKernel k).usesOf insn.id ↔
      k.Declares name ∧ insn.expression.OccursFree name := by
  rw [mem_usesOf hk hi, Expr.mem_dependencies_iff_occursFree, and_comm]

/-- The sources of an instruction are the declared variables that occur freely in its own expression
or in that of an instruction which it takes values from. -/
theorem mem_sources {insn : Instruction} (hi : insn ∈ k.instructions) {name : String} :
    name ∈ (ofKernel k).sources insn.id ↔ ∃ reader,
      Relation.ReflTransGen k.TakesFrom insn reader ∧ k.Declares name ∧
        reader.expression.OccursFree name := by
  rw [sources, Reachability.mem_reachable_iff]
  -- The search steps from a variable to what its writers mention, a path from a reader to a writer.
  constructor
  · intro h
    induction h with
    | start _ huse => exact ⟨insn, .refl, (mem_usesOf_iff_occursFree hk hi).mp huse⟩
    | @step source name _ _ horigin ih =>
      obtain ⟨reader, hreader, hdeclared, hoccurs⟩ := ih
      obtain ⟨writer, hwriter, huse⟩ := mem_originsOf.mp horigin
      obtain ⟨hmem, rfl⟩ := Kernel.mem_assigning.mp hwriter
      exact ⟨writer, hreader.tail ⟨hmem, hdeclared, hoccurs⟩,
        (mem_usesOf_iff_occursFree hk hmem).mp huse⟩
  · rintro ⟨reader, hreader, hdeclared, hoccurs⟩
    induction hreader generalizing name with
    | refl =>
      exact .start (NameSet.mem_toList.mpr hdeclared)
        ((mem_usesOf_iff_occursFree hk hi).mpr ⟨hdeclared, hoccurs⟩)
    | @tail reader writer _ htakes ih =>
      obtain ⟨hmem, htarget, hread⟩ := htakes
      refine .step (ih htarget hread) (NameSet.mem_toList.mpr hdeclared) (mem_originsOf.mpr ?_)
      exact ⟨writer, Kernel.mem_assigning.mpr ⟨hmem, rfl⟩,
        (mem_usesOf_iff_occursFree hk hmem).mpr ⟨hdeclared, hoccurs⟩⟩

/-- The search finds the instructions that are on a cycle. -/
theorem isCyclic_iff_onCycle {insn : Instruction} (hi : insn ∈ k.instructions) :
    (ofKernel k).isCyclic insn.id = true ↔ k.OnCycle insn := by
  have hwrites : ∀ name, ((ofKernel k).writersOf name).contains insn.id = true ↔
      insn.target = name := by
    intro name
    rw [NameSet.contains_iff, mem_writersOf]
    constructor
    · rintro ⟨writer, hwriter, hid⟩
      obtain ⟨hmem, htarget⟩ := Kernel.mem_assigning.mp hwriter
      rwa [← eq_of_id_eq hk hmem hi hid]
    · intro htarget
      exact ⟨insn, Kernel.mem_assigning.mpr ⟨hi, htarget⟩, rfl⟩
  rw [isCyclic, List.any_eq_true]
  simp only [hwrites, exists_eq_right']
  rw [mem_sources hk hi, Kernel.OnCycle, Relation.TransGen.tail'_iff]
  exact exists_congr fun reader => and_congr_right fun _ => (and_iff_right hi).symm

end UniqueIds

end DataFlow

end LoopKernel
