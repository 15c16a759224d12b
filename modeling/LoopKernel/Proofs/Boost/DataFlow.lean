import LoopKernel.Boost.Inference
import LoopKernel.Proofs.NameSet
import LoopKernel.Proofs.Reachability
import Mathlib.Data.List.Nodup

/-!
# The data flow of a kernel

Who writes and who mentions a variable, read off the instructions. In a kernel whose instructions
have different ids, the tables of the data flow hold exactly that.
-/

namespace LoopKernel

namespace Kernel

/-- Whether a name is that of an argument or a temporary. -/
def Declares (k : Kernel) (name : String) : Prop := name ∈ k.argNames.addAll k.temporaries.keys

instance (k : Kernel) (name : String) : Decidable (k.Declares name) :=
  inferInstanceAs (Decidable (name ∈ k.argNames.addAll k.temporaries.keys))

/-- The instructions that assign to a variable, in order. -/
def assigning (k : Kernel) (name : String) : List Instruction :=
  k.instructions.filter fun insn => insn.target == name

/-- The instructions that assign to a variable are those with it as their target. -/
theorem mem_assigning {k : Kernel} {name : String} {insn : Instruction} :
    insn ∈ k.assigning name ↔ insn ∈ k.instructions ∧ insn.target = name := by
  rw [assigning, List.mem_filter, beq_iff_eq]

/-- The ids in a table of writers after a list of instructions. -/
private theorem mem_getD_writers {l : List Instruction} {m : SortedMap String NameSet}
    {name id : String} :
    id ∈ (l.foldl (fun m insn => m.insert insn.target ((m.getD insn.target ∅).add insn.id))
        m).getD name ∅ ↔
      (∃ insn ∈ l, insn.target = name ∧ insn.id = id) ∨ id ∈ m.getD name ∅ := by
  induction l generalizing m with
  | nil => simp
  | cons insn rest ih =>
    rw [List.foldl_cons, ih, SortedMap.getD_insert]
    by_cases hn : name = insn.target
    · subst name
      rw [if_pos rfl, NameSet.mem_add]
      simp only [List.mem_cons, exists_eq_or_imp, true_and]
      rw [or_comm (a := insn.id = id), or_assoc, eq_comm (a := id)]
    · rw [if_neg hn]
      simp [Ne.symm hn]

end Kernel

namespace DataFlow

variable {k : Kernel}

/-- The writers of a variable are the ids of the instructions that assign to it. -/
theorem mem_writersOf {name id : String} :
    id ∈ (ofKernel k).writersOf name ↔ ∃ insn ∈ k.assigning name, insn.id = id := by
  change id ∈ k.writers.getD name ∅ ↔ _
  rw [Kernel.writers, Kernel.mem_getD_writers]
  have he : id ∉ (∅ : SortedMap String NameSet).getD name ∅ := NameSet.not_mem_empty id
  simp only [he, or_false, Kernel.assigning, List.mem_filter, beq_iff_eq]
  constructor
  · rintro ⟨insn, hi, ht, hid⟩
    exact ⟨insn, ⟨hi, ht⟩, hid⟩
  · rintro ⟨insn, ⟨hi, ht⟩, hid⟩
    exact ⟨insn, hi, ht, hid⟩

section UniqueIds

variable (hk : k.insnIds.Nodup)

include hk

/-- The declared variables that the expression of an instruction mentions. -/
theorem mem_usesOf {insn : Instruction} (hi : insn ∈ k.instructions) {name : String} :
    name ∈ (ofKernel k).usesOf insn.id ↔
      name ∈ insn.expression.dependencies ∧ k.Declares name := by
  have hkeys : ((k.instructions.map fun insn => (insn.id, insn.expression.dependencies.select
      (k.argNames.addAll k.temporaries.keys).contains)).map Prod.fst).Nodup := by
    rw [List.map_map]
    exact hk
  have hget : (ofKernel k).uses.get? insn.id = some (insn.expression.dependencies.select
      (k.argNames.addAll k.temporaries.keys).contains) :=
    (SortedMap.get?_ofList hkeys _ _).mpr (List.mem_map.mpr ⟨insn, hi, rfl⟩)
  rw [usesOf, SortedMap.getD, hget, Option.getD_some, NameSet.mem_toList, NameSet.mem_select]
  rfl

/-- An id is that of one instruction alone. -/
theorem eq_of_id_eq {a b : Instruction} (ha : a ∈ k.instructions) (hb : b ∈ k.instructions)
    (h : a.id = b.id) : a = b := List.inj_on_of_nodup_map hk ha hb h

/-- Writers are counted once for each instruction that assigns. -/
theorem size_writersOf (name : String) :
    ((ofKernel k).writersOf name).size = (k.assigning name).length := by
  have hsub : ((k.assigning name).map Instruction.id).Nodup :=
    hk.sublist (List.filter_sublist.map Instruction.id)
  have hp : ((ofKernel k).writersOf name).toList.Perm
      ((k.assigning name).map Instruction.id) := by
    apply (List.perm_ext_iff_of_nodup (NameSet.nodup_toList _) hsub).mpr
    intro id
    rw [NameSet.mem_toList, mem_writersOf, List.mem_map]
  have hl := hp.length_eq
  rw [List.length_map] at hl
  rw [← hl, NameSet.toList, SortedMap.keys, List.length_map]
  rfl

/-- The single writers that an instruction gets dependencies on. -/
theorem mem_singleWriters {insn : Instruction} (hi : insn ∈ k.instructions) {id : String} :
    id ∈ (ofKernel k).singleWriters insn.id ↔
      ∃ name w, name ∈ insn.expression.dependencies ∧ k.Declares name ∧
        k.assigning name = [w] ∧ id = w.id := by
  have h : ∀ (l : List String) (s : NameSet),
      id ∈ l.foldl (fun s name => if ((ofKernel k).writersOf name).size = 1 then
          s.union ((ofKernel k).writersOf name) else s) s ↔
        id ∈ s ∨ ∃ name ∈ l, ∃ w, k.assigning name = [w] ∧ id = w.id := by
    intro l
    induction l with
    | nil => simp
    | cons name rest ih =>
      intro s
      rw [List.foldl_cons, ih]
      simp only [List.mem_cons, exists_eq_or_imp]
      split
      · next hw =>
        rw [size_writersOf hk, List.length_eq_one_iff] at hw
        obtain ⟨w, hw⟩ := hw
        rw [NameSet.mem_union, mem_writersOf, hw]
        simp [or_assoc, eq_comm]
      · next hw =>
        rw [size_writersOf hk, List.length_eq_one_iff] at hw
        have hno : ¬∃ w, k.assigning name = [w] ∧ id = w.id := by
          rintro ⟨w, h, -⟩
          exact hw ⟨w, h⟩
        simp [hno]
  unfold singleWriters
  rw [h]
  simp only [NameSet.not_mem_empty, false_or, mem_usesOf hk hi]
  grind

end UniqueIds

end DataFlow

end LoopKernel
