import LoopKernel.Proofs.Boost.Cycles
import Mathlib.Data.List.Basic
import Mathlib.Logic.Function.Iterate

/-!
# Which instructions may be run again

What an instruction takes values from can be gathered in rounds: first the writers of the variables
that it mentions, then again and again the writers of the variables that those mention. The rounds
come to an end, since each one before the end finds another instruction, and at the end they have
found what a path in the data flow leads to.
-/

namespace LoopKernel

namespace DataFlow

variable {k : Kernel} {found : NameSet}

/-! ## Rounds -/

/-- The instructions that assign to the variables that an instruction mentions. -/
def feeders (f : DataFlow) (id : String) : NameSet :=
  NameSet.ofList ((f.usesOf id).flatMap fun name => (f.writersOf name).toList)

/-- The instructions found so far, and those that assign to the variables that they mention. -/
def widen (f : DataFlow) (found : NameSet) : NameSet :=
  found.addAll (found.toList.flatMap fun id => (f.feeders id).toList)

/-- What an instruction takes values from, as far as it is found in a number of rounds. -/
def reachedIn (f : DataFlow) (id : String) (rounds : Nat) : NameSet :=
  f.widen^[rounds] (f.feeders id)

/-- A round adds what the instructions found so far take values from. -/
theorem mem_widen {f : DataFlow} {id : String} :
    id ∈ f.widen found ↔ id ∈ found ∨ ∃ other ∈ found, id ∈ f.feeders other := by
  simp [widen, or_comm]

/-- One more round. -/
theorem reachedIn_succ (f : DataFlow) (id : String) (rounds : Nat) :
    f.reachedIn id (rounds + 1) = f.widen (f.reachedIn id rounds) :=
  Function.iterate_succ_apply' _ _ _

/-- Rounds keep what is found. -/
private theorem mem_reachedIn {f : DataFlow} {id other : String} (hother : other ∈ f.feeders id)
    (rounds : Nat) : other ∈ f.reachedIn id rounds := by
  induction rounds with
  | zero => exact hother
  | succ rounds ih =>
    rw [reachedIn_succ, mem_widen]
    exact .inl ih

/-- Only instructions of the kernel assign. -/
theorem mem_insnIds_of_mem_feeders {id other : String} (h : id ∈ (ofKernel k).feeders other) :
    id ∈ k.insnIds := by
  obtain ⟨name, -, hwriter⟩ := List.mem_flatMap.mp (NameSet.mem_ofList.mp h)
  obtain ⟨writer, hassigns, rfl⟩ := mem_writersOf.mp (NameSet.mem_toList.mp hwriter)
  exact List.mem_map.mpr ⟨writer, (Kernel.mem_assigning.mp hassigns).1, rfl⟩

/-- The instructions of the kernel that are not found yet. -/
private def missing (k : Kernel) (found : NameSet) : List String :=
  k.insnIds.filter fun id => !found.contains id

/-- A round that changes what is found finds an instruction that was missing. -/
private theorem length_missing_widen_lt (h : (ofKernel k).widen found ≠ found) :
    (missing k ((ofKernel k).widen found)).length < (missing k found).length := by
  obtain ⟨id, hid, hnew⟩ : ∃ id ∈ (ofKernel k).widen found, id ∉ found := by
    by_contra hnone
    refine h (NameSet.ext fun id => ⟨fun hid => ?_, fun hid => mem_widen.mpr (.inl hid)⟩)
    exact Classical.not_not.mp fun hnew => hnone ⟨id, hid, hnew⟩
  obtain hold | ⟨other, -, hfeeds⟩ := mem_widen.mp hid
  · exact absurd hold hnew
  have hfewer : missing k ((ofKernel k).widen found) =
      (missing k found).filter fun id => !((ofKernel k).widen found).contains id := by
    rw [missing, missing, List.filter_filter]
    refine List.filter_congr fun other _ => ?_
    cases hfound : found.contains other with
    | false => simp
    | true =>
      have hkept : other ∈ (ofKernel k).widen found :=
        mem_widen.mpr (.inl (NameSet.contains_iff.mp hfound))
      simp [NameSet.contains_iff.mpr hkept]
  rw [hfewer, List.length_filter_lt_length_iff_exists]
  refine ⟨id, List.mem_filter.mpr ⟨mem_insnIds_of_mem_feeders hfeeds, ?_⟩, ?_⟩
  · rw [NameSet.contains_eq_false.mpr hnew, Bool.not_false]
  · rw [NameSet.contains_iff.mpr hid, Bool.not_true]
    exact Bool.false_ne_true

/-- The rounds come to an end, after at most as many as instructions are missing. -/
private theorem exists_widen_eq (k : Kernel) (found : NameSet) :
    ∃ rounds ≤ (missing k found).length,
      (ofKernel k).widen ((ofKernel k).widen^[rounds] found) =
        (ofKernel k).widen^[rounds] found := by
  by_cases h : (ofKernel k).widen found = found
  · exact ⟨0, Nat.zero_le _, h⟩
  · have hlt := length_missing_widen_lt h
    obtain ⟨rounds, hle, hend⟩ := exists_widen_eq k ((ofKernel k).widen found)
    exact ⟨rounds + 1, hle.trans_lt hlt, hend⟩
termination_by (missing k found).length

section UniqueIds

variable (hk : k.insnIds.Nodup)

include hk

/-- The instructions that assign to what an instruction mentions are those that it takes values
from. -/
theorem mem_feeders {reader : Instruction} (hreader : reader ∈ k.instructions) {id : String} :
    id ∈ (ofKernel k).feeders reader.id ↔ ∃ writer, k.TakesFrom reader writer ∧ writer.id = id := by
  rw [feeders, NameSet.mem_ofList, List.mem_flatMap]
  constructor
  · rintro ⟨name, huse, hwriter⟩
    obtain ⟨writer, hassigns, rfl⟩ := mem_writersOf.mp (NameSet.mem_toList.mp hwriter)
    obtain ⟨hmem, rfl⟩ := Kernel.mem_assigning.mp hassigns
    exact ⟨writer, ⟨hmem, (mem_usesOf_iff_occursFree hk hreader).mp huse⟩, rfl⟩
  · rintro ⟨writer, ⟨hmem, huse⟩, rfl⟩
    exact ⟨writer.target, (mem_usesOf_iff_occursFree hk hreader).mpr huse, NameSet.mem_toList.mpr
      (mem_writersOf.mpr ⟨writer, Kernel.mem_assigning.mpr ⟨hmem, rfl⟩, rfl⟩)⟩

/-- What is found in rounds is what values are taken from. -/
private theorem transGen_of_mem_reachedIn {reader : Instruction}
    (hreader : reader ∈ k.instructions) (rounds : Nat) {id : String}
    (h : id ∈ (ofKernel k).reachedIn reader.id rounds) :
    ∃ writer, Relation.TransGen k.TakesFrom reader writer ∧ writer.id = id := by
  induction rounds generalizing id with
  | zero =>
    obtain ⟨writer, htakes, hid⟩ := (mem_feeders hk hreader).mp h
    exact ⟨writer, .single htakes, hid⟩
  | succ rounds ih =>
    rw [reachedIn_succ] at h
    rcases mem_widen.mp h with h | ⟨other, hother, h⟩
    · exact ih h
    · obtain ⟨writer, hpath, rfl⟩ := ih hother
      obtain ⟨next, htakes, hid⟩ :=
        (mem_feeders hk (Kernel.mem_instructions_of_transGen hpath)).mp h
      exact ⟨next, hpath.tail htakes, hid⟩

/-- When another round finds nothing new, all that values are taken from is found. -/
private theorem mem_of_transGen {reader writer : Instruction} (hreader : reader ∈ k.instructions)
    (hstart : ∀ id ∈ (ofKernel k).feeders reader.id, id ∈ found)
    (hend : (ofKernel k).widen found = found)
    (h : Relation.TransGen k.TakesFrom reader writer) : writer.id ∈ found := by
  induction h with
  | single htakes => exact hstart _ ((mem_feeders hk hreader).mpr ⟨_, htakes, rfl⟩)
  | tail hpath htakes ih =>
    rw [← hend, mem_widen]
    exact .inr ⟨_, ih, (mem_feeders hk (Kernel.mem_instructions_of_transGen hpath)).mpr
      ⟨_, htakes, rfl⟩⟩

/-- The rounds of an instruction come to an end, after at most as many as there are instructions,
and have then found what it takes values from: itself too, exactly if it is on a cycle. -/
theorem exists_rounds {insn : Instruction} (hi : insn ∈ k.instructions) :
    ∃ rounds ≤ k.instructions.length,
      (ofKernel k).reachedIn insn.id (rounds + 1) = (ofKernel k).reachedIn insn.id rounds ∧
      (insn.id ∈ (ofKernel k).reachedIn insn.id rounds ↔ k.OnCycle insn) := by
  obtain ⟨rounds, hle, hend⟩ := exists_widen_eq k ((ofKernel k).feeders insn.id)
  have hlength : (missing k ((ofKernel k).feeders insn.id)).length ≤ k.instructions.length :=
    (List.length_filter_le _ _).trans (Nat.le_of_eq (List.length_map _))
  refine ⟨rounds, hle.trans hlength, (reachedIn_succ _ _ _).trans hend, fun h => ?_, fun h => ?_⟩
  · obtain ⟨writer, hpath, hid⟩ := transGen_of_mem_reachedIn hk hi rounds h
    obtain rfl := eq_of_id_eq hk (Kernel.mem_instructions_of_transGen hpath) hi hid
    exact hpath
  · exact mem_of_transGen hk hi (fun id hid => mem_reachedIn hid rounds) hend h

end UniqueIds

end DataFlow

namespace Kernel

variable {k : Kernel}

/-! ## Boostability -/

/-- The variables that instructions on cycles assign to. -/
theorem mem_poisoned (hk : k.insnIds.Nodup) {name : String} :
    name ∈ k.poisoned ↔ ∃ insn ∈ k.instructions, k.OnCycle insn ∧ insn.target = name := by
  rw [poisoned, NameSet.mem_ofList, List.mem_map]
  simp only [cyclicInsns, List.mem_filter, and_assoc]
  exact exists_congr fun insn => and_congr_right fun hi =>
    and_congr_left fun _ => DataFlow.isCyclic_iff_onCycle hk hi

/-- An instruction touches the variables that it reads and the one that it assigns to. -/
theorem touches_eq_false_iff {names : NameSet} {insn : Instruction} :
    touches names insn = false ↔ ∀ name ∈ names, insn.target ≠ name ∧ ¬insn.Reads name := by
  rw [touches, List.any_eq_false]
  constructor
  · intro h name hname
    refine ⟨?_, fun hreads => ?_⟩
    · rintro rfl
      exact h insn.target (by simp) (NameSet.contains_iff.mpr hname)
    · exact h name (by simp [Instruction.mem_reads_iff.mpr hreads]) (NameSet.contains_iff.mpr hname)
  · intro h name htouched hname
    obtain ⟨htarget, hreads⟩ := h name (NameSet.contains_iff.mp hname)
    rcases NameSet.mem_add.mp (NameSet.mem_toList.mp htouched) with rfl | hmem
    · exact htarget rfl
    · exact hreads (Instruction.mem_reads_iff.mp hmem)

/-- After inference every instruction is known to be boostable or not: it is if it is on no cycle of
the data flow, and neither assigns to nor reads a variable that an instruction on a cycle assigns
to. The rounds in which an instruction is searched for among those that it takes values from come to
an end, and find it exactly if it is on a cycle. -/
theorem boostable_iff_acyclic (hk : k.insnIds.Nodup) {insn : Instruction}
    (hi : insn ∈ k.instructions) :
    (∃ rounds ≤ k.instructions.length,
      (DataFlow.ofKernel k).reachedIn insn.id (rounds + 1) =
        (DataFlow.ofKernel k).reachedIn insn.id rounds ∧
      (insn.id ∈ (DataFlow.ofKernel k).reachedIn insn.id rounds ↔ k.OnCycle insn)) ∧
    ∃ after boostable, k.inferDependencies.1.insn? insn.id = some after ∧
      after.boostable = some boostable ∧
      (boostable = true ↔ ¬k.OnCycle insn ∧ ∀ cyclic ∈ k.instructions, k.OnCycle cyclic →
        insn.target ≠ cyclic.target ∧ ¬insn.Reads cyclic.target) := by
  refine ⟨DataFlow.exists_rounds hk hi, k.inferred insn, _,
    by rw [insn?_inferDependencies, insn?_id hk hi]; rfl, rfl, ?_⟩
  rw [Bool.not_eq_true', touches_eq_false_iff]
  simp only [mem_poisoned hk]
  constructor
  · intro h
    refine ⟨fun hcycle => (h insn.target ⟨insn, hi, hcycle, rfl⟩).1 rfl, ?_⟩
    exact fun cyclic hmem hcycle => h cyclic.target ⟨cyclic, hmem, hcycle, rfl⟩
  · rintro ⟨-, h⟩ name ⟨cyclic, hmem, hcycle, rfl⟩
    exact h cyclic hmem hcycle

/-- Two arrays that are copied from each other, and a third one that is copied from the first. -/
def copiedInTurn : Kernel where
  name := "kernel"
  domain := .whole ["i"]
  instructions :=
    [.assign "there" (.subscript "x" [.var "i"]) (.subscript "y" [.var "i"]),
      .assign "back" (.subscript "y" [.var "i"]) (.subscript "x" [.var "i"]),
      .assign "out" (.subscript "z" [.var "i"]) (.subscript "x" [.var "i"])]
  args :=
    [⟨"x", .float32, .global [.int 4]⟩, ⟨"y", .float32, .global [.int 4]⟩,
      ⟨"z", .float32, .global [.int 4]⟩]
  temporaries := ∅
  tags := ∅
  device := .fermi
  schedule := none

/-- The third array is on no cycle, and is not boostable since it is copied from one that is. -/
theorem boostable_iff_acyclic_copiedInTurn :
    ∃ after, copiedInTurn.inferDependencies.1.insn? "out" = some after ∧
      after.boostable = some false := by
  have hi : .assign "out" (.subscript "z" [.var "i"]) (.subscript "x" [.var "i"]) ∈
      copiedInTurn.instructions := by
    simp [copiedInTurn]
  obtain ⟨-, after, boostable, hafter, hboostable, hiff⟩ :=
    boostable_iff_acyclic (k := copiedInTurn) (by decide) hi
  have hthere : copiedInTurn.TakesFrom
      (.assign "there" (.subscript "x" [.var "i"]) (.subscript "y" [.var "i"]))
      (.assign "back" (.subscript "y" [.var "i"]) (.subscript "x" [.var "i"])) :=
    ⟨by simp [copiedInTurn], by decide, .aggregate _⟩
  have hback : copiedInTurn.TakesFrom
      (.assign "back" (.subscript "y" [.var "i"]) (.subscript "x" [.var "i"]))
      (.assign "there" (.subscript "x" [.var "i"]) (.subscript "y" [.var "i"])) :=
    ⟨by simp [copiedInTurn], by decide, .aggregate _⟩
  refine ⟨after, hafter, ?_⟩
  cases boostable with
  | false => exact hboostable
  | true =>
    obtain ⟨-, hnone⟩ := hiff.mp rfl
    have hreads := (hnone _ hback.1 (.tail (.single hthere) hback)).2
    exact absurd (.inl (.aggregate _)) hreads

end Kernel

end LoopKernel
