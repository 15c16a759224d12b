import LoopKernel.Proofs.Boost.Dependencies
import LoopKernel.Proofs.Expr.Occurrence

/-!
# Updates in place

A single writer becomes a dependency of every instruction that mentions what it writes, of itself
too. So an instruction that updates a variable in place, and is the only one that assigns to it,
comes to wait for itself. No other instruction does.
-/

namespace LoopKernel.Kernel

variable {k : Kernel}

/-- Whether an instruction updates a declared variable in place that no other one assigns to. -/
def UpdatesAlone (k : Kernel) (insn : Instruction) : Prop :=
  k.Declares insn.target ∧ insn.expression.OccursFree insn.target ∧
    ∀ other ∈ k.instructions, other.target = insn.target → other.id = insn.id

/-- An instruction is the only one that assigns to its target if all that do have its id. -/
theorem assigning_target_eq (hk : k.insnIds.Nodup) {insn : Instruction}
    (hi : insn ∈ k.instructions)
    (halone : ∀ other ∈ k.instructions, other.target = insn.target → other.id = insn.id) :
    k.assigning insn.target = [insn] := by
  have hnodup : (k.assigning insn.target).Nodup := (List.Nodup.of_map _ hk).filter _
  refine List.perm_singleton.mp
    ((List.perm_ext_iff_of_nodup hnodup (List.nodup_singleton insn)).mpr fun other => ?_)
  rw [mem_assigning, List.mem_singleton]
  constructor
  · rintro ⟨hother, htarget⟩
    exact DataFlow.eq_of_id_eq hk hother hi (halone other hother htarget)
  · rintro rfl
    exact ⟨hi, rfl⟩

/-- An instruction is a single writer for itself if it updates a variable alone. -/
theorem mem_singleWriters_self_iff (hk : k.insnIds.Nodup) {insn : Instruction}
    (hi : insn ∈ k.instructions) :
    insn.id ∈ (DataFlow.ofKernel k).singleWriters insn.id ↔ k.UpdatesAlone insn := by
  rw [DataFlow.mem_singleWriters hk hi]
  constructor
  · rintro ⟨name, writer, hmentions, hdeclared, hassigning, hid⟩
    have hwriter : writer ∈ k.assigning name := hassigning ▸ List.mem_singleton_self writer
    obtain ⟨hmem, htarget⟩ := mem_assigning.mp hwriter
    obtain rfl : insn = writer := DataFlow.eq_of_id_eq hk hi hmem hid
    obtain rfl : insn.target = name := htarget
    refine ⟨hdeclared, Expr.mem_dependencies_iff_occursFree _ |>.mp hmentions, ?_⟩
    intro other hother hsame
    have hother : other ∈ k.assigning insn.target := mem_assigning.mpr ⟨hother, hsame⟩
    rw [hassigning, List.mem_singleton] at hother
    rw [hother]
  · rintro ⟨hdeclared, hoccurs, halone⟩
    exact ⟨insn.target, insn, (Expr.mem_dependencies_iff_occursFree _).mpr hoccurs, hdeclared,
      assigning_target_eq hk hi halone, rfl⟩

/-- Where no instruction waits for itself before inference, exactly those do after it that update a
declared variable in place which no other instruction assigns to. -/
theorem self_mem_deps_iff_updatesAlone (hk : k.insnIds.Nodup)
    (hbefore : ∀ insn ∈ k.instructions, insn.id ∉ insn.deps) :
    ∀ insn ∈ k.inferDependencies.1.instructions,
      insn.id ∈ insn.deps ↔ k.UpdatesAlone insn := by
  rw [instructions_inferDependencies, List.forall_mem_map]
  intro insn hi
  have hdeps : insn.id ∈ (k.inferred insn).deps ↔
      insn.id ∈ insn.deps ∨ insn.id ∈ (DataFlow.ofKernel k).singleWriters insn.id := by
    rw [inferred, inferFor, NameSet.mem_union]
  exact hdeps.trans ((or_iff_right (hbefore insn hi)).trans (mem_singleWriters_self_iff hk hi))

/-- A kernel that increments the elements of an array. -/
def incremented : Kernel where
  name := "kernel"
  domain := .whole ["i"]
  instructions := [.assign "u" (.subscript "a" [.var "i"])
    (.sum [.subscript "a" [.var "i"], .int 1])]
  args := [⟨"a", .float32, .global [.int 4]⟩]
  temporaries := ∅
  tags := ∅
  device := .fermi
  schedule := none

/-- The increment waits for itself after inference, and did not before. -/
theorem self_mem_deps_iff_updatesAlone_incremented :
    (∀ insn ∈ incremented.instructions, insn.id ∉ insn.deps) ∧
      ∃ insn ∈ incremented.inferDependencies.1.instructions, insn.id ∈ insn.deps := by
  have hbefore : ∀ insn ∈ incremented.instructions, insn.id ∉ insn.deps := by
    intro insn hi
    rw [List.mem_singleton.mp hi]
    exact NameSet.not_mem_empty _
  have hi : incremented.inferred (.assign "u" (.subscript "a" [.var "i"])
      (.sum [.subscript "a" [.var "i"], .int 1])) ∈
        incremented.inferDependencies.1.instructions := List.mem_singleton_self _
  refine ⟨hbefore, _, hi,
    (self_mem_deps_iff_updatesAlone (by decide) hbefore _ hi).mpr ⟨by decide, ?_, ?_⟩⟩
  · exact .child (c := .subscript "a" [.var "i"]) List.mem_cons_self List.not_mem_nil (.aggregate _)
  · intro other hother _
    rw [List.mem_singleton.mp hother]
    rfl

end LoopKernel.Kernel
