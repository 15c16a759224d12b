import LoopKernel.Proofs.Reduction.Initialization
import LoopKernel.Proofs.Reduction.Lowering

/-!
# Dependencies after realization

The instructions of a kernel whose reductions are realized have distinct ids, and they may run in
the order in which they stand if those of the kernel may. An update waits for the instruction that
sets its accumulator, for whatever the owner of the reduction waits for, and for the updates of the
accumulators that it reads in place of reductions. The owner waits for all updates. Only a name
that an expression itself mentions, declared nowhere, may happen to be that of an accumulator that
it does not wait for.
-/

namespace LoopKernel

/-- Instructions in order depend on known ids and on each other. -/
theorem Instruction.InOrder.mem {known : List String} {insns : List Instruction}
    (h : InOrder known insns) : ∀ insn ∈ insns, ∀ id ∈ insn.deps,
      id ∈ known ∨ id ∈ insns.map Instruction.id := by
  induction insns generalizing known with
  | nil => simp
  | cons first rest ih =>
    intro insn hinsn id hid
    rw [List.map_cons, List.mem_cons]
    rcases List.mem_cons.mp hinsn with rfl | hinsn
    · exact .inl (h.1 id hid)
    · rcases ih h.2 insn hinsn id hid with hknown | hrest
      · rw [List.mem_append, List.mem_singleton] at hknown
        exact hknown.imp_right .inl
      · exact .inr (.inr hrest)

namespace Lowering

variable {k : Kernel} {g : Lowering} {groups : List Lowering}

/-- The ids of a lowering are those of the accumulators and that of the instruction. -/
theorem Sound.map_id (h : g.Sound k) : g.instructions.map Instruction.id =
    Accumulator.idsOf g.accumulators ++ [g.before.id] := by
  rw [instructions, List.map_append, List.map_singleton, h.id]
  rfl

/-- Lowerings are in order where the instructions were. -/
theorem inOrder_flatMap {known more : List String} (hsound : ∀ g ∈ groups, g.Sound k)
    (hsub : ∀ id ∈ known, id ∈ more) (h : Instruction.InOrder known (groups.map before)) :
    Instruction.InOrder more (groups.flatMap instructions) := by
  induction groups generalizing known more with
  | nil => trivial
  | cons g rest ih =>
    rw [List.forall_mem_cons] at hsound
    rw [List.flatMap_cons, Instruction.inOrder_append]
    refine ⟨hsound.1.ordered more fun id hid => hsub id (h.1 id hid),
      ih hsound.2 (fun id hid => ?_) h.2⟩
    rw [hsound.1.map_id, List.mem_append, List.mem_append]
    rw [List.mem_append] at hid
    exact hid.imp (hsub id) .inr

end Lowering

namespace Kernel

variable {k k' : Kernel} {groups : List Lowering}

namespace LowersTo

/-- Every accumulator belongs to the lowering of its owner. -/
theorem of_mem_accumulatorsOf (h : k.LowersTo k' groups) {a : Accumulator}
    (ha : a ∈ Lowering.accumulatorsOf groups) :
    ∃ g ∈ groups, g.Sound k ∧ a ∈ g.accumulators ∧ a.owner = g.before := by
  obtain ⟨g, hg, ha⟩ := Lowering.mem_accumulatorsOf.mp ha
  exact ⟨g, hg, h.sound g hg, ha, (h.sound g hg).owners a ha⟩

/-- The instruction that is lowered is one of the kernel. -/
theorem before_mem (h : k.LowersTo k' groups) {g : Lowering} (hg : g ∈ groups) :
    g.before ∈ k.instructions := h.owners ▸ List.mem_map_of_mem hg

theorem id_before_mem (h : k.LowersTo k' groups) {g : Lowering} (hg : g ∈ groups) :
    g.before.id ∈ k.insnIds := List.mem_map_of_mem (h.before_mem hg)

/-- The ids of accumulators are new. -/
theorem not_mem_insnIds (h : k.LowersTo k' groups) {id : String}
    (hid : id ∈ Accumulator.idsOf (Lowering.accumulatorsOf groups)) : id ∉ k.insnIds := by
  have hall : ∀ insn ∈ (Lowering.accumulatorsOf groups).flatMap Accumulator.instructions,
      insn.id ∉ k.insnIds := by
    refine Accumulator.forall_mem_instructions.mpr fun a ha => ?_
    obtain ⟨g, -, hsound, ha, -⟩ := h.of_mem_accumulatorsOf ha
    exact (hsound.lowered a ha).ids
  obtain ⟨insn, hinsn, rfl⟩ := List.mem_map.mp hid
  exact hall insn hinsn

/-- The new instructions are those of the accumulators. -/
theorem filter_instructions (h : k.LowersTo k' groups) :
    (k'.instructions.filter fun insn => !k.insnIds.contains insn.id) =
      (Lowering.accumulatorsOf groups).flatMap Accumulator.instructions := by
  rw [h.instructions, List.filter_flatMap, Lowering.accumulatorsOf, List.flatMap_assoc]
  refine List.flatMap_congr fun g hg => ?_
  have hnew : ∀ insn ∈ g.accumulators.flatMap Accumulator.instructions,
      insn.id ∉ k.insnIds :=
    Accumulator.forall_mem_instructions.mpr fun a ha => ((h.sound g hg).lowered a ha).ids
  have hold : g.after.id ∈ k.insnIds := (h.sound g hg).id ▸ h.id_before_mem hg
  rw [Lowering.instructions, List.filter_append, List.filter_eq_self.mpr,
    List.filter_eq_nil_iff.mpr, List.append_nil]
  · simpa using hold
  · simpa using hnew

/-- The accumulators of the lowerings are those of the reductions. -/
theorem realizesAs (h : k.LowersTo k' groups) :
    k.RealizesAs k' (Lowering.accumulatorsOf groups) where
  reductions := by
    rw [reductions, ← h.owners, List.flatMap_map, Lowering.accumulatorsOf, List.map_flatMap]
    refine List.flatMap_congr fun g hg => ?_
    rw [(h.sound g hg).reductions, Expr.reductionsOfAll, Expr.reductionsOfAll, List.append_nil]
  temporaries n := by
    simp only [SortedMap.contains_iff, h.temporaries, List.mem_map, Lowering.mem_accumulatorsOf]
    constructor
    · rintro ⟨t, ⟨g, hg, a, ha, hname, -⟩ | hold⟩
      · exact .inr ⟨a, ⟨g, hg, ha⟩, hname⟩
      · exact .inl ⟨t, hold⟩
    · rintro (⟨t, hold⟩ | ⟨a, ⟨g, hg, ha⟩, hname⟩)
      · exact ⟨t, .inr hold⟩
      · exact ⟨_, .inl ⟨g, hg, a, ha, hname, rfl⟩⟩
  instructions := h.filter_instructions
  nodup := h.nodup
  undeclared a ha := by
    obtain ⟨g, -, hsound, ha, -⟩ := h.of_mem_accumulatorsOf ha
    exact (hsound.lowered a ha).undeclared
  sets a ha := by
    obtain ⟨g, -, hsound, ha, -⟩ := h.of_mem_accumulatorsOf ha
    have hlowered := hsound.lowered a ha
    exact ⟨ReductionOwner.target_of_element hlowered.initAssignee, hlowered.neutral⟩
  updates a ha := by
    obtain ⟨g, -, hsound, ha, -⟩ := h.of_mem_accumulatorsOf ha
    have hlowered := hsound.lowered a ha
    obtain ⟨value, hvalue, -⟩ := hsound.reads a ha
    rw [hlowered.updateAssignee, hlowered.initAssignee]
    exact ⟨rfl, value, hvalue⟩

/-- The ids are those of the lowerings, one after the other. -/
theorem insnIds_eq (h : k.LowersTo k' groups) : k'.insnIds =
    groups.flatMap fun g => Accumulator.idsOf g.accumulators ++ [g.before.id] := by
  rw [insnIds, h.instructions, List.map_flatMap]
  exact List.flatMap_congr fun g hg => (h.sound g hg).map_id

/-- The ids of the kernel are those of the instructions that are lowered. -/
theorem insnIds_before (h : k.LowersTo k' groups) :
    k.insnIds = groups.flatMap fun g => [g.before.id] := by
  rw [insnIds, ← h.owners, List.map_map, List.map_eq_flatMap]
  rfl

/-- The ids are those of the accumulators and of the kernel. -/
theorem insnIds_perm (h : k.LowersTo k' groups) : k'.insnIds.Perm
    (Accumulator.idsOf (Lowering.accumulatorsOf groups) ++ k.insnIds) := by
  have hnew : Accumulator.idsOf (Lowering.accumulatorsOf groups) =
      groups.flatMap fun g => Accumulator.idsOf g.accumulators := by
    rw [Accumulator.idsOf, Lowering.accumulatorsOf, List.flatMap_assoc, List.map_flatMap]
    rfl
  rw [h.insnIds_eq, hnew, h.insnIds_before]
  exact (List.flatMap_append_perm groups _ _).symm

/-- The ids of the kernel stay in order. -/
theorem filter_insnIds (h : k.LowersTo k' groups) :
    k'.insnIds.filter (fun id => k.insnIds.contains id) = k.insnIds := by
  rw [h.insnIds_eq, List.filter_flatMap]
  conv_rhs => rw [h.insnIds_before]
  refine List.flatMap_congr fun g hg => ?_
  rw [List.filter_append, List.filter_eq_nil_iff.mpr, List.filter_eq_self.mpr, List.nil_append]
  · simpa using h.id_before_mem hg
  · intro id hid
    simp only [List.contains_eq_mem, decide_eq_true_eq]
    obtain ⟨insn, hinsn, rfl⟩ := List.mem_map.mp hid
    obtain ⟨a, ha, hinsn⟩ := List.mem_flatMap.mp hinsn
    exact h.not_mem_insnIds (List.mem_map_of_mem (List.mem_flatMap.mpr
      ⟨a, Lowering.mem_accumulatorsOf.mpr ⟨g, hg, ha⟩, hinsn⟩))

/-- An accumulator of an owner is the only one with its name. -/
theorem eq_of_name (h : k.LowersTo k' groups) {a b : Accumulator}
    (ha : a ∈ Lowering.accumulatorsOf groups) (hb : b ∈ Lowering.accumulatorsOf groups)
    (hname : a.name = b.name) : a = b :=
  List.inj_on_of_nodup_map h.nodup ha hb hname

/-- The name of an accumulator is none of a lane. -/
theorem not_mem_laneNames (h : k.LowersTo k' groups) {g : Lowering} (hg : g.Sound k)
    {a : Accumulator} (ha : a ∈ Lowering.accumulatorsOf groups) :
    a.name ∉ (g.owner k).laneNames := by
  intro hlane
  obtain ⟨g', -, hsound, ha, -⟩ := h.of_mem_accumulatorsOf ha
  exact (hsound.lowered a ha).undeclared
    (mem_names_of_hasDim (mem_of_lanesOf hg.lanes a.name hlane).2)

end LowersTo

/-- Whether an id that an instruction depends on is that of no instruction. -/
def Dangles (k : Kernel) (id : String) : Prop :=
  id ∉ k.insnIds ∧ ∃ insn ∈ k.instructions, id ∈ insn.deps

/-- Whether a kernel with accumulators for the reductions of another one has its dependencies as
they have to be. -/
structure KeepsDependencies (k k' : Kernel) (accumulators : List Accumulator) : Prop where
  /-- No two instructions have one id. -/
  distinct : k'.insnIds.Nodup
  /-- The instructions that were there stay, in their order. -/
  kept : k'.insnIds.filter (fun id => k.insnIds.contains id) = k.insnIds
  /-- A dependency names an instruction, unless it was one before that names none. -/
  closed : ∀ insn ∈ k'.instructions, ∀ id ∈ insn.deps, id ∈ k'.insnIds ∨ k.Dangles id
  /-- Dependencies lead to earlier instructions if they did before. -/
  ordered : Instruction.InOrder [] k.instructions → Instruction.InOrder [] k'.instructions
  /-- An update waits for the instruction that sets the accumulator, for what the owner waits for,
  and for the updates of the accumulators that its body reads in place of reductions. -/
  updates : ∀ a ∈ accumulators, a.init.id ∈ a.update.deps ∧
    (∀ id ∈ a.owner.deps, id ∈ a.update.deps) ∧
    ∃ value, a.update.expression = a.op.apply a.init.assignee value ∧
      ∀ b ∈ accumulators, b.name ∈ value.dependencies → b.name ∉ a.body.surfaceNames →
        b.update.id ∈ a.update.deps
  /-- An owner waits for what it waited for, and for the updates of the accumulators that it reads
  in place of reductions. -/
  owners : ∀ insn ∈ k.instructions, ∃ after ∈ k'.instructions, after.id = insn.id ∧
    (∀ id ∈ insn.deps, id ∈ after.deps) ∧
    ∀ b ∈ accumulators, b.name ∈ after.expression.dependencies →
      b.name ∉ insn.expression.surfaceNames → b.update.id ∈ after.deps

/-- The dependencies of lowerings are as they have to be if the ids are distinct. -/
theorem LowersTo.keepsDependencies (h : k.LowersTo k' groups) (hids : k.insnIds.Nodup) :
    k.KeepsDependencies k' (Lowering.accumulatorsOf groups) where
  distinct := by
    rw [h.insnIds_perm.nodup_iff, List.nodup_append']
    exact ⟨h.ids, hids, fun id hid => h.not_mem_insnIds hid⟩
  kept := h.filter_insnIds
  closed insn hinsn id hid := by
    rw [h.instructions, List.mem_flatMap] at hinsn
    obtain ⟨g, hg, hinsn⟩ := hinsn
    have horder := (h.sound g hg).ordered g.before.deps.toList fun _ => NameSet.mem_toList.mpr
    rcases horder.mem insn hinsn id hid with hown | hemitted
    · rw [NameSet.mem_toList] at hown
      by_cases hold : id ∈ k.insnIds
      · exact .inl (h.insnIds_perm.mem_iff.mpr (List.mem_append_right _ hold))
      · exact .inr ⟨hold, g.before, h.before_mem hg, hown⟩
    · rw [insnIds, h.instructions, List.map_flatMap]
      exact .inl (List.mem_flatMap.mpr ⟨g, hg, hemitted⟩)
  ordered hk := by
    rw [← h.owners] at hk
    rw [h.instructions]
    exact Lowering.inOrder_flatMap h.sound (fun _ hid => hid) hk
  updates a ha := by
    obtain ⟨g, hg, hsound, hga, howner⟩ := h.of_mem_accumulatorsOf ha
    have hlowered := hsound.lowered a hga
    obtain ⟨value, hvalue, hnames, -⟩ := hsound.reads a hga
    refine ⟨hlowered.waits.1, howner ▸ hlowered.waits.2, value, hlowered.initAssignee ▸ hvalue,
      fun b hb hread hown => ?_⟩
    rcases hnames b.name hread with hsurface | hlane | ⟨c, hc, hname, hupdate⟩
    · exact absurd hsurface hown
    · exact absurd hlane (h.not_mem_laneNames hsound hb)
    · have hc' := Lowering.mem_accumulatorsOf.mpr ⟨g, hg, hc⟩
      exact h.eq_of_name hc' hb hname ▸ hupdate
  owners insn hinsn := by
    rw [← h.owners, List.mem_map] at hinsn
    obtain ⟨g, hg, rfl⟩ := hinsn
    have hsound := h.sound g hg
    refine ⟨g.after, ?_, hsound.id, fun id hid => (hsound.deps id).mpr (.inl hid),
      fun b hb hread hown => ?_⟩
    · rw [h.instructions]
      exact List.mem_flatMap.mpr ⟨g, hg, List.mem_append_right _ (List.mem_singleton_self _)⟩
    · rcases hsound.names b.name (Expr.mem_dependenciesOfAll_singleton.mpr hread) with
        hsurface | hlane | ⟨c, hc, hname⟩
      · exact absurd (Expr.mem_surfaceNamesOfAll_singleton.mp hsurface) hown
      · exact absurd hlane (h.not_mem_laneNames hsound hb)
      · have hc' := Lowering.mem_accumulatorsOf.mpr ⟨g, hg, hc⟩
        exact (hsound.deps _).mpr (.inr ⟨c, hc, h.eq_of_name hc' hb hname ▸ rfl⟩)

/-- Realizing the reductions of a kernel with distinct ids keeps its dependencies as they have to
be, for the accumulators that the reductions become. -/
theorem realizeReduction_keeps_dependencies (hids : k.insnIds.Nodup)
    (h : k.realizeReduction = .ok k') :
    ∃ accumulators, k.RealizesAs k' accumulators ∧ k.KeepsDependencies k' accumulators := by
  obtain ⟨groups, hgroups⟩ := exists_lowersTo h
  exact ⟨_, hgroups.realizesAs, hgroups.keepsDependencies hids⟩

/-- The sum over a triangle is realized in five instructions, each of which depends on earlier ones:
the update of the outer accumulator on that of the inner one. -/
theorem realizeReduction_keeps_dependencies_triangleSum :
    ∃ k' accumulators, triangleSum.realizeReduction = .ok k' ∧
      triangleSum.RealizesAs k' accumulators ∧ triangleSum.KeepsDependencies k' accumulators ∧
      k'.insnIds = ["total_j_init", "total_j_update", "total_i_init", "total_i_update", "total"] ∧
      Instruction.InOrder [] k'.instructions := by
  obtain ⟨k', hk, hids⟩ : ∃ k', triangleSum.realizeReduction = .ok k' ∧ k'.insnIds =
      ["total_j_init", "total_j_update", "total_i_init", "total_i_update", "total"] := by
    decide +kernel
  obtain ⟨accumulators, hrealizes, hkeeps⟩ :=
    realizeReduction_keeps_dependencies (by decide +kernel) hk
  exact ⟨k', accumulators, hk, hrealizes, hkeeps, hids, hkeeps.ordered (by decide +kernel)⟩

end Kernel

end LoopKernel
