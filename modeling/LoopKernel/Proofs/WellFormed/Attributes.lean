import LoopKernel.Boost.Limits
import LoopKernel.Iname.Split
import LoopKernel.Proofs.Boost.Dependencies
import LoopKernel.Proofs.Checked
import LoopKernel.Proofs.WellFormed.Basic
import LoopKernel.Storage.Locality
import LoopKernel.Storage.Padding

/-!
# Passes that set attributes

Passes that decide on attributes of temporaries, dimensions and instructions and leave the names and
the structure of a kernel alone. They take well-formed kernels to well-formed kernels.
-/

namespace LoopKernel.Kernel

variable {k k' : Kernel}

/-! ## Temporaries -/

/-- Deciding on the locality of temporaries keeps a kernel well-formed. -/
theorem WellFormed.markLocalTemporaries (h : k.WellFormed) :
    k.markLocalTemporaries.WellFormed := by
  apply h.with_temporaries
  · intro n hn
    rw [SortedMap.contains, SortedMap.get?_mapValues, Option.isSome_map] at hn
    exact hn
  · intro n t ht
    rw [SortedMap.get?_mapValues, Option.map_eq_some_iff] at ht
    obtain ⟨t, ht, rfl⟩ := ht
    exact h.temporaries n t ht

/-- Layouts are chosen name by name: what holds of the names that are left and of the kernel so far
is kept by a name without a temporary and by each layout that is chosen. -/
theorem chooseLayouts_induction {names : List String} {problems : List Diagnostic}
    {P : List String → Kernel → Prop} (h : chooseLayouts names k = .ok (k', problems))
    (hstart : P names k)
    (hskip : ∀ name rest c, P (name :: rest) c → c.temporaries.get? name = none → P rest c)
    (hstep : ∀ name rest c t layout, P (name :: rest) c → c.temporaries.get? name = some t →
      (∃ chosen, c.chooseLayout name t = .ok (layout, chosen)) →
      P rest { c with
        temporaries := c.temporaries.insert name { t with storageShape := some layout } }) :
    P [] k' := by
  induction names generalizing k problems with
  | nil =>
    rw [chooseLayouts, Attempt.pure_eq_ok, Prod.mk.injEq] at h
    exact h.1 ▸ hstart
  | cons name rest ih =>
    rw [chooseLayouts] at h
    split at h
    · next hnone => exact ih h (hskip name rest k hstart hnone)
    · next t ht =>
      simp only [Attempt.bind_eq_ok, Attempt.pure_eq_ok, Prod.exists, Prod.mk.injEq] at h
      obtain ⟨layout, chosen, hchosen, _, _, hrest, rfl, -⟩ := h
      exact ih hrest (hstep name rest k t layout hstart ht ⟨chosen, hchosen⟩)

/-- Choosing the layouts of several temporaries keeps a kernel well-formed. -/
theorem WellFormed.chooseLayouts {names : List String} {problems : List Diagnostic}
    (h : k.WellFormed) (hk : chooseLayouts names k = .ok (k', problems)) : k'.WellFormed := by
  refine chooseLayouts_induction (P := fun _ c => c.WellFormed) hk h (fun _ _ _ hc _ => hc) ?_
  intro name _ c t layout hc ht _
  refine hc.with_temporaries (fun n hn => ?_) fun n u hu => ?_
  · rw [SortedMap.contains_insert, Bool.or_eq_true, beq_iff_eq] at hn
    rcases hn with rfl | hn
    · exact SortedMap.contains_iff.mpr ⟨t, ht⟩
    · exact hn
  · rw [SortedMap.get?_insert] at hu
    split at hu
    · next hn =>
      cases hu
      rw [hn]
      exact hc.temporaries name t ht
    · exact hc.temporaries n u hu

/-- Choosing the layouts of all temporaries keeps a kernel well-formed. -/
theorem WellFormed.adjustStorage {problems : List Diagnostic} (h : k.WellFormed)
    (hk : k.adjustStorage = .ok (k', problems)) : k'.WellFormed := h.chooseLayouts hk

/-! ## Tags -/

/-- Setting the tags of dimensions keeps a kernel well-formed. -/
theorem WellFormed.tagInames {tags : List (String × IndexTag)} (h : k.WellFormed)
    (hk : k.tagInames tags = .ok k') : k'.WellFormed := by
  have hboth : k'.WellFormed ∧ k'.domain = k.domain := by
    apply Attempt.foldlM_induction (P := fun _ out => out.WellFormed ∧ out.domain = k.domain)
      ⟨h, rfl⟩ _ hk
    rintro _ out ⟨iname, tag⟩ next - ⟨hout, hdomain⟩ hstep
    simp only at hstep
    split at hstep
    · next hdim =>
      rw [Attempt.pure_eq_ok] at hstep
      rw [Polyhedron.hasDim_iff, ← hdomain] at hdim
      exact hstep ▸ ⟨hout.with_tag tag hdim, hdomain⟩
    · simp at hstep
  exact hboth.1

/-! ## Instructions -/

/-- Inferring dependencies keeps a kernel well-formed. -/
theorem WellFormed.inferDependencies (h : k.WellFormed) : k.inferDependencies.1.WellFormed := by
  apply h.with_instructions
  · rw [List.map_map]
    rfl
  · intro insn hinsn
    obtain ⟨before, hbefore, rfl⟩ := List.mem_map.mp hinsn
    have hscoped := h.instructions before hbefore
    refine ⟨fun id hid => ?_, hscoped.forced, hscoped.boosted, hscoped.bound⟩
    rcases NameSet.mem_union.mp hid with hold | hnew
    · exact hscoped.deps id hold
    · obtain ⟨name, writer, -, -, hwriter, rfl⟩ :=
        (DataFlow.mem_singleWriters h.ids hbefore).mp hnew
      have hmem : writer ∈ k.assigning name := hwriter ▸ List.mem_singleton_self writer
      exact List.mem_map_of_mem (List.mem_filter.mp hmem).1

/-- What occurs with an index are the indices of the instructions that run over it. -/
theorem mem_occursWith {iname n : String} : n ∈ k.occursWith iname ↔
    ∃ insn ∈ k.instructions, iname ∈ k.insnInames insn ∧ n ∈ k.insnInames insn := by
  simp only [occursWith, NameSet.mem_foldl_union, NameSet.not_mem_empty, false_or, List.mem_filter,
    List.mem_map, NameSet.contains_iff]
  constructor
  · rintro ⟨_, ⟨⟨insn, hinsn, rfl⟩, hiname⟩, hn⟩
    exact ⟨insn, hinsn, hiname, hn⟩
  · rintro ⟨insn, hinsn, hiname, hn⟩
    exact ⟨_, ⟨⟨insn, hinsn, rfl⟩, hiname⟩, hn⟩

/-- The indices for extra runs of an instruction are indices of instructions. -/
theorem exists_of_mem_boostTargets {insn : Instruction} {n : String}
    (hn : n ∈ k.boostTargets insn) : ∃ other ∈ k.instructions, n ∈ k.insnInames other := by
  simp only [boostTargets, NameSet.mem_ofList, List.mem_filter, List.mem_flatMap,
    NameSet.mem_toList] at hn
  obtain ⟨⟨iname, -, hwith⟩, -⟩ := hn
  obtain ⟨other, hother, -, hn⟩ := mem_occursWith.mp hwith
  exact ⟨other, hother, hn⟩

/-- A limited instruction gets indices for extra runs, and stays as it is otherwise. -/
theorem limitFor_spec {insn limited : Instruction} (h : k.limitFor insn = .ok limited) :
    ∃ targets, limited = { insn with boostableInto := some targets } ∧
      ∀ n ∈ targets, n ∈ k.boostTargets insn := by
  unfold limitFor at h
  split at h
  · simp at h
  · rw [Attempt.pure_eq_ok] at h
    exact ⟨∅, h.symm, fun n hn => absurd hn (NameSet.not_mem_empty n)⟩
  · rw [Attempt.pure_eq_ok] at h
    exact ⟨_, h.symm, fun n hn => hn⟩

/-- Limiting extra runs keeps a kernel well-formed. -/
theorem WellFormed.limitBoostability (h : k.WellFormed) (hk : k.limitBoostability = .ok k') :
    k'.WellFormed := by
  unfold Kernel.limitBoostability at hk
  simp only [Attempt.bind_eq_ok, Attempt.pure_eq_ok] at hk
  obtain ⟨insns, hinsns, rfl⟩ := hk
  apply h.with_instructions
  · apply Attempt.map_of_mapM _ hinsns
    intro insn limited hlimited
    obtain ⟨_, rfl, -⟩ := limitFor_spec hlimited
    rfl
  · intro limited hmem
    obtain ⟨insn, hinsn, hlimited⟩ := Attempt.exists_of_mem_mapM hinsns hmem
    obtain ⟨targets, rfl, htargets⟩ := limitFor_spec hlimited
    have hscoped := h.instructions insn hinsn
    refine ⟨hscoped.deps, hscoped.forced, fun _ ht n hn => ?_, hscoped.bound⟩
    cases ht
    obtain ⟨other, hother, hinames⟩ := exists_of_mem_boostTargets (htargets n hn)
    exact mem_dims_of_mem_insnInames (h.instructions other hother) hinames

end LoopKernel.Kernel
