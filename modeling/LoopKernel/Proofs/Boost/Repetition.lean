import LoopKernel.Proofs.Boost.Dependencies
import LoopKernel.Proofs.Execution.Run
import LoopKernel.Proofs.Source.WellFormed

/-!
# Repeating an instruction

An instruction that may be run again does not see its own store: neither in its expression nor in
the index of its assignee. A second run at the same point then stores the same value in the same
place.
-/

namespace LoopKernel

namespace Instruction

variable {V : Type} {insn : Instruction} {M : Machine V}

/-- The store of an instruction that does not read its target is the same after any store to the
target. -/
theorem storeAt_write (hread : insn.target ∉ insn.reads) {m : Memory V} {s : Store V}
    (hs : s.name = insn.target) (p : Point) :
    insn.storeAt M (m.write s) (m.write s) p = insn.storeAt M m m p := by
  have hsame : ∀ n ∈ insn.reads, ∀ q index,
      (m.write s).reader M.privateTo q n index = m.reader M.privateTo q n index := by
    intro n hn q index
    have hne : n ≠ s.name := by
      rintro rfl
      exact hread (hs ▸ hn)
    rw [Memory.reader, Memory.write_other_name m s hne, Memory.reader]
  have hexpression : Expr.AgreeOn insn.expression.dependencies p
      ((m.write s).reader M.privateTo) (m.reader M.privateTo) :=
    fun n hn _ => hsame n (NameSet.mem_union.mpr (.inl hn))
  have hindex : Expr.AgreeOn (Expr.dependenciesOfAll insn.targetIndex) p
      ((m.write s).reader M.privateTo) (m.reader M.privateTo) :=
    fun n hn _ => hsame n (NameSet.mem_union.mpr (.inr hn))
  simp only [storeAt]
  rw [Expr.meaning_congr insn.expression hexpression hexpression,
    Expr.meaningAll_congr insn.targetIndex hindex hindex]

/-- An instruction that does not read its target does the same twice as once. -/
theorem executeAt_twice (hread : insn.target ∉ insn.reads) (m : Memory V) (p : Point) :
    insn.executeAt M (insn.executeAt M m p) p = insn.executeAt M m p := by
  unfold executeAt
  rw [storeAt_write hread rfl, Memory.write_write_same]

end Instruction

namespace Kernel

variable {k : Kernel}

/-- An instruction whose expression mentions its declared target depends on its own result. -/
theorem isCyclic_of_mem_dependencies (hk : k.insnIds.Nodup) {insn : Instruction}
    (hi : insn ∈ k.instructions) (hread : insn.target ∈ insn.expression.dependencies)
    (hdeclared : k.Declares insn.target) : (DataFlow.ofKernel k).isCyclic insn.id = true := by
  rw [DataFlow.isCyclic, List.any_eq_true]
  refine ⟨insn.target, ?_, ?_⟩
  · rw [DataFlow.sources, Reachability.mem_reachable_iff]
    exact .start (NameSet.mem_toList.mpr hdeclared)
      ((DataFlow.mem_usesOf hk hi).mpr ⟨hread, hdeclared⟩)
  · rw [NameSet.contains_iff, DataFlow.mem_writersOf]
    exact ⟨insn, List.mem_filter.mpr ⟨hi, beq_self_eq_true _⟩, rfl⟩

/-- The target of an instruction that may be run again is not poisoned. -/
theorem target_not_mem_poisoned {insn : Instruction}
    (hb : (k.inferred insn).boostable = some true) : insn.target ∉ k.poisoned := by
  simp only [inferred, inferFor, Option.some.injEq, Bool.not_eq_true', touches,
    List.any_eq_false] at hb
  have htarget := hb insn.target (NameSet.mem_toList.mpr (NameSet.mem_add.mpr (.inl rfl)))
  rwa [NameSet.contains_iff] at htarget

/-- The expression of an instruction that may be run again does not mention a declared target. -/
theorem target_not_mem_dependencies (hk : k.insnIds.Nodup) {insn : Instruction}
    (hi : insn ∈ k.instructions) (hb : (k.inferred insn).boostable = some true)
    (hdeclared : k.Declares insn.target) : insn.target ∉ insn.expression.dependencies := by
  intro hread
  apply target_not_mem_poisoned hb
  have hcyclic := isCyclic_of_mem_dependencies hk hi hread hdeclared
  rw [poisoned, NameSet.mem_ofList]
  exact List.mem_map.mpr ⟨insn, List.mem_filter.mpr ⟨hi, hcyclic⟩, rfl⟩

/-- An instruction of a loaded kernel that may be run again does the same twice as once, when its
target is declared or its expression does not mention it, and the index of its assignee does not
mention it either. -/
theorem executeAt_twice_of_boostable {source : String} {device : Device}
    (hload : Source.load source device = .ok k) {insn : Instruction}
    (hi : insn ∈ k.inferDependencies.1.instructions) (hb : insn.boostable = some true)
    (hexpression : k.Declares insn.target ∨ insn.target ∉ insn.expression.dependencies)
    (hindex : insn.target ∉ Expr.dependenciesOfAll insn.targetIndex) {V : Type} (M : Machine V)
    (m : Memory V) (p : Point) :
    insn.executeAt M (insn.executeAt M m p) p = insn.executeAt M m p := by
  rw [instructions_inferDependencies] at hi
  obtain ⟨before, hbefore, rfl⟩ := List.mem_map.mp hi
  apply Instruction.executeAt_twice
  rw [Instruction.reads, NameSet.mem_union, not_or]
  refine ⟨?_, hindex⟩
  rcases hexpression with hdeclared | hnot
  · have hk := (Source.wellFormed_of_load hload).ids
    have hnot : before.target ∉ before.expression.dependencies :=
      target_not_mem_dependencies hk hbefore hb hdeclared
    exact hnot
  · exact hnot

/-- An instruction that scales an element may be run again, and does the same twice as once. -/
theorem executeAt_twice_of_boostable_scale :
    ∃ k insn, Source.load
        "domain [i] : 0 <= i < 4\narg global int32 a[4]\ntemp int32 t[4]\ninsn s: t[i] = 2*a[i]\n"
        .fermi = .ok k ∧
      insn ∈ k.inferDependencies.1.instructions ∧ insn.boostable = some true ∧
      ∀ (M : Machine Int) (m : Memory Int) (p : Point),
        insn.executeAt M (insn.executeAt M m p) p = insn.executeAt M m p := by
  obtain ⟨k, hload, insn, hinsn, hb, hexpression, hindex⟩ : ∃ k, Source.load
        "domain [i] : 0 <= i < 4\narg global int32 a[4]\ntemp int32 t[4]\ninsn s: t[i] = 2*a[i]\n"
        .fermi = .ok k ∧
      ∃ insn ∈ k.inferDependencies.1.instructions, insn.boostable = some true ∧
        insn.target ∉ insn.expression.dependencies ∧
        insn.target ∉ Expr.dependenciesOfAll insn.targetIndex := by decide +kernel
  exact ⟨k, insn, hload, hinsn, hb, fun M m p =>
    executeAt_twice_of_boostable hload hinsn hb (.inr hexpression) hindex M m p⟩

/-- Whether an instruction with an assignee and an expression adds one to a variable. -/
def isIncrement (name : String) : (assignee expression : Expr) → Bool
  | .var target, .sum [.var read, .int n] => decide (target = name ∧ read = name ∧ n = 1)
  | _, _ => false

/-- The assignee and the expression of an instruction that adds one to a variable. -/
theorem of_isIncrement {name : String} {assignee expression : Expr}
    (h : isIncrement name assignee expression = true) :
    assignee = .var name ∧ expression = .sum [.var name, .int 1] := by
  unfold isIncrement at h
  split at h
  · obtain ⟨rfl, rfl, rfl⟩ := of_decide_eq_true h
    exact ⟨rfl, rfl⟩
  · cases h

/-- An instruction that increments an undeclared variable counts as one that may be run again, and
does not do the same twice as once. -/
theorem exists_boostable_executeAt_twice_ne :
    ∃ k insn, Source.load "domain [i] : 0 <= i < 1\ninsn a: x = x + 1\n" .fermi = .ok k ∧
      insn ∈ k.inferDependencies.1.instructions ∧ insn.boostable = some true ∧
      ∃ (M : Machine Int) (m : Memory Int) (p : Point),
        insn.executeAt M (insn.executeAt M m p) p ≠ insn.executeAt M m p := by
  obtain ⟨k, hload, insn, hinsn, hb, hincrement⟩ :
      ∃ k, Source.load "domain [i] : 0 <= i < 1\ninsn a: x = x + 1\n" .fermi = .ok k ∧
        ∃ insn ∈ k.inferDependencies.1.instructions, insn.boostable = some true ∧
          isIncrement "x" insn.assignee insn.expression = true := by decide +kernel
  obtain ⟨hassignee, hexpression⟩ := of_isIncrement hincrement
  refine ⟨k, insn, hload, hinsn, hb, ?_⟩
  let M : Machine Int := ⟨.integers (fun _ => 0) 0 (fun _ _ _ => 0) fun _ _ => 0, fun _ => [],
    fun _ => ∅⟩
  have hcount : ∀ m : Memory Int, insn.executeAt M m ∅ "x" [] ∅ = m "x" [] ∅ + 1 := by
    intro m
    have hs : insn.storeAt M m m ∅ = ⟨"x", [], ∅, m "x" [] ∅ + 1⟩ := by
      have hcell : (∅ : Point).restrict ∅ = ∅ := rfl
      simp [Instruction.storeAt, Instruction.target, Instruction.targetIndex, hassignee,
        hexpression, Expr.meaning, Expr.meaningAll, Expr.readName, Expr.readAt, Memory.reader,
        Arithmetic.integers, M, hcell]
    rw [Instruction.executeAt, hs]
    exact Memory.write_same m ⟨"x", [], ∅, m "x" [] ∅ + 1⟩
  refine ⟨M, fun _ _ _ => 0, ∅, fun h => ?_⟩
  have hx := congrFun (congrFun (congrFun h "x") []) ∅
  rw [hcount, hcount] at hx
  omega

end Kernel

end LoopKernel
