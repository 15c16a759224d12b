import LoopKernel.Proofs.Reduction.Preservation
import LoopKernel.Proofs.Reduction.Records

/-!
# Accumulators are read where they are set

An instruction that reads an accumulator has to run under the indices that the accumulator is set
under, and both of its own instructions under the indices that its body mentions. The update of the
reduction around runs under what is left of that body once the reductions in it are gone. So
everything is as it has to be unless a body mentions an index only inside the reductions in it.
-/

namespace LoopKernel

namespace Accumulator

/-- Whether every instruction that reads an accumulator runs under the indices that it is set under,
and is set and updated under the indices that the body mentions freely. -/
structure Initialized (k : Kernel) (a : Accumulator) : Prop where
  readers : ∀ insn ∈ k.instructions, a.name ∈ insn.reads →
    ∀ n ∈ k.insnInames a.init, n ∈ k.insnInames insn
  indices : ∀ n ∈ a.body.dependencies, k.domain.hasDim n = true →
    n ∉ Expr.boundNames a.binders → n ∈ k.insnInames a.init ∧ n ∈ k.insnInames a.update

variable {k : Kernel} {a : Accumulator}

/-- The instructions of an accumulator run under the indices that the body mentions exactly if it
hides none. -/
theorem Made.indices_iff (h : a.Made k) :
    (∀ n ∈ a.body.dependencies, k.domain.hasDim n = true → n ∉ Expr.boundNames a.binders →
      n ∈ k.insnInames a.init ∧ n ∈ k.insnInames a.update) ↔ ∀ n, ¬a.Hides k n := by
  constructor
  · rintro hall n ⟨hmentioned, hdim, hunbound, hinside, hforeign⟩
    have hn := (hall n hmentioned hdim hunbound).2
    rw [h.updateInames, NameSet.mem_union, mem_cells] at hn
    tauto
  · intro hhides n hn hdim hunbound
    have hupdate := h.mem_update_of_mem_body (hhides n) hn hdim
    refine ⟨h.cellsInit n ?_, hupdate⟩
    rw [h.updateInames, NameSet.mem_union] at hupdate
    exact hupdate.resolve_right hunbound

end Accumulator

/-! ## Owners -/

namespace Kernel

variable {k : Kernel}

/-- Lanes are loop indices that are dimensions, since they have lengths. -/
theorem mem_of_lanesOf {inames : NameSet} {lanes : List (String × Int)}
    (h : k.lanesOf inames = .ok lanes) :
    ∀ n ∈ lanes.map Prod.fst, n ∈ inames ∧ k.domain.hasDim n = true := by
  intro n hn
  obtain ⟨lane, hlane, rfl⟩ := List.mem_map.mp hn
  obtain ⟨i, hi, hlane⟩ := Attempt.exists_of_mem_mapM h hlane
  simp only [Attempt.bind_eq_ok, Attempt.pure_eq_ok] at hlane
  obtain ⟨length, hlength, rfl⟩ := hlane
  refine ⟨NameSet.mem_toList.mp (List.mem_of_mem_filter hi), ?_⟩
  unfold inameLength at hlength
  split at hlength
  · assumption
  · cases hlength

end Kernel

namespace Realization

variable {k : Kernel} {r s t : Realization} {owner : ReductionOwner} {insn changed : Instruction}
  {accs more : List Accumulator}

open Accumulator (Harmless)

/-- The emitted instructions that the kernel does not have. -/
def newInstructions (k : Kernel) (r : Realization) : List Instruction :=
  r.emitted.filter fun insn => !k.insnIds.contains insn.id

/-- Instructions with new ids are new, an owner is not. -/
theorem newInstructions_append {new : List Instruction}
    (hemitted : s.emitted = r.emitted ++ (new ++ [changed]))
    (hnew : ∀ insn ∈ new, insn.id ∉ k.insnIds) (hold : changed.id ∈ k.insnIds) :
    s.newInstructions k = r.newInstructions k ++ new := by
  have hall : new.filter (fun insn => !k.insnIds.contains insn.id) = new :=
    List.filter_eq_self.mpr fun insn hinsn => by simpa using hnew insn hinsn
  have hnone : [changed].filter (fun insn => !k.insnIds.contains insn.id) = [] := by
    simpa using hold
  rw [newInstructions, newInstructions, hemitted, List.filter_append, List.filter_append, hall,
    hnone, List.append_nil]

namespace Records

/-- The instruction whose reductions are realized reads the new accumulators and what is
harmless. -/
theorem reads_owner (h : Records k owner insn r [insn.expression] [changed.expression] more s)
    (howner : owner.Of k insn) (hclean : ∀ n, insn.Mentions n → Harmless k n)
    (hassignee : changed.assignee = insn.assignee) :
    ∀ n ∈ changed.reads, n ∈ more.map Accumulator.name ∨ Harmless k n := by
  intro n hn
  rcases NameSet.mem_union.mp hn with hn | hn
  · exact h.mem_names_or_harmless howner
      (fun m hm => hclean m (.inl (Expr.mem_dependenciesOfAll_singleton.mp hm)))
      (Expr.mem_dependenciesOfAll_singleton.mpr hn)
  · have hmention := Instruction.mem_dependencies_of_mem_targetIndex hn
    rw [hassignee] at hmention
    exact .inr (hclean n (.inr hmention))

/-- The instruction whose reductions are realized runs under the indices that the accumulators it
reads are set under. -/
theorem covered_owner (h : Records k owner insn r [insn.expression] [changed.expression] more s)
    (hclean : ∀ n, insn.Mentions n → Harmless k n) (hassignee : changed.assignee = insn.assignee)
    (hforced : changed.forcedInames = k.insnInames insn) {a : Accumulator} (ha : a ∈ more)
    (hread : a.name ∈ changed.reads) : ∀ n ∈ k.insnInames a.init, n ∈ k.insnInames changed := by
  intro n hn
  have hmention : a.name ∈ changed.expression.dependencies := by
    refine (NameSet.mem_union.mp hread).resolve_right fun hindex => ?_
    have hmention := Instruction.mem_dependencies_of_mem_targetIndex hindex
    rw [hassignee] at hmention
    exact (h.made a ha).fresh (hclean a.name (.inr hmention))
  have hinsn : n ∈ k.insnInames insn := by
    rcases h.covered a ha (Expr.mem_dependenciesOfAll_singleton.mpr hmention) n hn with
      hown | ⟨hdep, hdim⟩
    · exact hown
    · refine NameSet.mem_union.mpr (.inr (NameSet.mem_select.mpr ⟨?_, hdim⟩))
      exact NameSet.mem_union.mpr (.inl (Expr.mem_dependenciesOfAll_singleton.mp hdep))
  exact NameSet.mem_union.mpr (.inl (hforced ▸ hinsn))

/-- All instructions that are emitted for an owner read the new accumulators and what is
harmless. -/
theorem reads_emitted (h : Records k owner insn r [insn.expression] [changed.expression] more s)
    (howner : owner.Of k insn) (hclean : ∀ n, insn.Mentions n → Harmless k n)
    (hassignee : changed.assignee = insn.assignee) :
    ∀ new ∈ more.flatMap Accumulator.instructions ++ [changed], ∀ n ∈ new.reads,
      n ∈ more.map Accumulator.name ∨ Harmless k n := by
  rw [List.forall_mem_append, Accumulator.forall_mem_instructions, List.forall_mem_singleton]
  exact ⟨fun a ha => ⟨fun n hn => .inr ((h.made a ha).initReads n hn), h.reads a ha⟩,
    h.reads_owner howner hclean hassignee⟩

/-- All instructions that are emitted for an owner run under the indices that the accumulators they
read are set under, if no body hides an index. -/
theorem readers_emitted (h : Records k owner insn r [insn.expression] [changed.expression] more s)
    (hclean : ∀ n, insn.Mentions n → Harmless k n) (hassignee : changed.assignee = insn.assignee)
    (hforced : changed.forcedInames = k.insnInames insn) (hhides : ∀ a ∈ more, ∀ n, ¬a.Hides k n)
    {a : Accumulator} (ha : a ∈ more) :
    ∀ new ∈ more.flatMap Accumulator.instructions ++ [changed], a.name ∈ new.reads →
      ∀ n ∈ k.insnInames a.init, n ∈ k.insnInames new := by
  rw [List.forall_mem_append, Accumulator.forall_mem_instructions, List.forall_mem_singleton]
  refine ⟨fun b hb => ⟨fun hread => ?_, fun hread => ?_⟩, fun hread => ?_⟩
  · exact absurd ((h.made b hb).initReads _ hread) (h.made a ha).fresh
  · exact h.readers a ha b hb hread (hhides b hb)
  · exact h.covered_owner hclean hassignee hforced ha hread

end Records

/-- What holds of the accumulators and of all instructions once the listed owners are done. -/
structure RecordsOwners (k : Kernel) (done : List Instruction) (r : Realization)
    (accs : List Accumulator) : Prop where
  reductions : accs.map Accumulator.toReduction =
    done.flatMap fun insn => insn.expression.reductions insn
  instructions : r.newInstructions k = accs.flatMap Accumulator.instructions
  temporaries : ∀ n, r.temporaries.contains n = true ↔ n ∈ accs.map Accumulator.name
  nodup : (accs.map Accumulator.name).Nodup
  made : ∀ a ∈ accs, a.Made k
  reads : ∀ insn ∈ r.emitted, ∀ n ∈ insn.reads, n ∈ accs.map Accumulator.name ∨ Harmless k n
  readers : (∀ a ∈ accs, ∀ n, ¬a.Hides k n) → ∀ a ∈ accs, ∀ insn ∈ r.emitted,
    a.name ∈ insn.reads → ∀ n ∈ k.insnInames a.init, n ∈ k.insnInames insn

namespace RecordsOwners

theorem start (k : Kernel) : RecordsOwners k [] ⟨∅, [], [], ∅⟩ [] where
  reductions := rfl
  instructions := rfl
  temporaries := by simp
  nodup := List.nodup_nil
  made := by simp
  reads := by simp
  readers := by simp

/-- The accumulators of one more owner. -/
theorem append {done : List Instruction} (h : RecordsOwners k done r accs)
    (hinsn : insn ∈ k.instructions) (hclean : ∀ n, insn.Mentions n → Harmless k n)
    (howner : owner.Of k insn) {updates : SortedMap String String}
    (hmore : Records k owner insn { r with updates := updates } [insn.expression]
      [changed.expression] more t)
    (hid : changed.id = insn.id) (hassignee : changed.assignee = insn.assignee)
    (hforced : changed.forcedInames = k.insnInames insn) :
    RecordsOwners k (done ++ [insn]) ((emit changed).run t).2 (accs ++ more) := by
  have hemitted : ((emit changed).run t).2.emitted =
      r.emitted ++ (more.flatMap Accumulator.instructions ++ [changed]) := by
    rw [← List.append_assoc, ← hmore.emitted]
    rfl
  have hold : ∀ a ∈ more, a.name ∉ accs.map Accumulator.name := by
    intro a ha hmem
    have hin := (h.temporaries a.name).mpr hmem
    rw [hmore.new a ha] at hin
    cases hin
  have hnewReads := hmore.reads_emitted howner hclean hassignee
  refine ⟨?_, ?_, fun n => ?_, ?_, List.forall_mem_append.mpr ⟨h.made, hmore.made⟩,
    fun new hnew n hn => ?_, fun hhides a ha new hnew hread => ?_⟩
  · rw [List.map_append, h.reductions, hmore.reductions, List.flatMap_append,
      List.flatMap_singleton, Expr.reductionsOfAll, Expr.reductionsOfAll, List.append_nil]
  · have hids : ∀ new ∈ more.flatMap Accumulator.instructions, new.id ∉ k.insnIds :=
      Accumulator.forall_mem_instructions.mpr fun a ha => (hmore.made a ha).ids
    rw [newInstructions_append hemitted hids (hid ▸ List.mem_map_of_mem hinsn), h.instructions,
      List.flatMap_append]
  · rw [List.map_append, List.mem_append, ← h.temporaries]
    exact hmore.temporaries n
  · rw [List.map_append, List.nodup_append']
    refine ⟨h.nodup, hmore.nodup, fun n hn hn' => ?_⟩
    obtain ⟨a, ha, rfl⟩ := List.mem_map.mp hn'
    exact hold a ha hn
  · rw [List.map_append, List.mem_append]
    rw [hemitted, List.mem_append] at hnew
    rcases hnew with hnew | hnew
    · exact (h.reads new hnew n hn).imp_left .inl
    · exact (hnewReads new hnew n hn).imp_left .inr
  · rw [List.forall_mem_append] at hhides
    rw [hemitted, List.mem_append] at hnew
    -- An accumulator is read by instructions of its owner alone.
    rcases List.mem_append.mp ha with ha | ha <;> rcases hnew with hnew | hnew
    · exact h.readers hhides.1 a ha new hnew hread
    · have hmem := (hnewReads new hnew _ hread).resolve_right (h.made a ha).fresh
      obtain ⟨b, hb, hsame⟩ := List.mem_map.mp hmem
      exact absurd (hsame ▸ List.mem_map_of_mem ha) (hold b hb)
    · have hmem := (h.reads new hnew _ hread).resolve_right (hmore.made a ha).fresh
      exact absurd hmem (hold a ha)
    · exact hmore.readers_emitted hclean hassignee hforced hhides.2 ha new hnew hread

/-- Realizing an owner records the accumulators of its reductions. -/
theorem realizeOwner {done : List Instruction} (h : RecordsOwners k done r accs)
    (hinsn : insn ∈ k.instructions) (hclean : ∀ n, insn.Mentions n → Harmless k n)
    (hbinders : ∀ b ∈ insn.expression.binders, k.domain.hasDim b.name = true)
    (hinfinity : k.domain.hasDim "INFINITY" = false) (hs : k.realizeOwner r insn = .ok s) :
    ∃ more, RecordsOwners k (done ++ [insn]) s (accs ++ more) := by
  obtain ⟨lanes, expression, t, hlanes, hmap, rfl⟩ := Kernel.exists_lanes_of_realizeOwner hs
  have howner : ReductionOwner.Of k ⟨insn.id, insn.deps, k.insnInames insn, lanes⟩ insn :=
    ⟨rfl, Kernel.mem_of_lanesOf hlanes⟩
  obtain ⟨more, hmore⟩ := Records.exists_of_mapReductionsM howner hinfinity insn.expression
    { r with updates := ∅ } (fun n hn => hclean n (.inl hn)) hbinders
  rw [hmap] at hmore
  exact ⟨more, h.append hinsn hclean howner hmore rfl rfl rfl⟩

end RecordsOwners

end Realization

/-! ## Kernels -/

/-- Whether accumulators are those that one kernel has for the reductions of another, in their
order: the temporaries and the instructions that are new, each accumulator set to the neutral
element by the first of its instructions, and the operation applied to it by the second. -/
structure Kernel.RealizesAs (k k' : Kernel) (accumulators : List Accumulator) : Prop where
  reductions : accumulators.map Accumulator.toReduction = k.reductions
  temporaries : ∀ n, k'.temporaries.contains n = true ↔
    k.temporaries.contains n = true ∨ n ∈ accumulators.map Accumulator.name
  instructions : (k'.instructions.filter fun insn => !k.insnIds.contains insn.id) =
    accumulators.flatMap Accumulator.instructions
  nodup : (accumulators.map Accumulator.name).Nodup
  undeclared : ∀ a ∈ accumulators, a.name ∉ k.names
  sets : ∀ a ∈ accumulators, a.init.target = a.name ∧ a.init.expression = a.op.neutral
  updates : ∀ a ∈ accumulators, a.update.assignee = a.init.assignee ∧
    ∃ value, a.update.expression = a.op.apply a.init.assignee value

namespace Kernel

variable {k k' : Kernel}

/-- All accumulators and instructions of a run over the owners. -/
theorem recordsOwners_of_foldlM {r : Realization}
    (hbinders : ∀ insn ∈ k.instructions, ∀ b ∈ insn.expression.binders, b.name ∈ k.domain.dims)
    (hacc : ¬k.Exposes "acc") (hinfinity : k.domain.hasDim "INFINITY" = false)
    (h : k.instructions.foldlM k.realizeOwner ⟨∅, [], [], ∅⟩ = .ok r) :
    ∃ accs, Realization.RecordsOwners k k.instructions r accs := by
  apply Attempt.foldlM_induction
    (P := fun done r => ∃ accs, Realization.RecordsOwners k done r accs) _ _ h
  · exact ⟨[], .start k⟩
  · rintro done r insn s hinsn ⟨accs, hdone⟩ hs
    have hclean : ∀ n, insn.Mentions n → Accumulator.Harmless k n := by
      intro n hmention hcandidate
      apply Classical.byContradiction
      exact fun hnew => hacc ⟨insn, hinsn, n, hmention, hnew, hcandidate⟩
    obtain ⟨more, hmore⟩ := hdone.realizeOwner hinsn hclean
      (fun b hb => Polyhedron.hasDim_iff.mpr (hbinders insn hinsn b hb)) hinfinity hs
    exact ⟨accs ++ more, hmore⟩

/-- In a kernel whose reductions are realized, every accumulator is read only under the indices that
it is set under, and set and updated under those that the body of its reduction mentions, exactly if
no body of a reduction hides an index. -/
theorem initialized_realizeReduction
    (hbinders : ∀ insn ∈ k.instructions, ∀ b ∈ insn.expression.binders, b.name ∈ k.domain.dims)
    (hacc : ¬k.Exposes "acc") (hinfinity : k.domain.hasDim "INFINITY" = false)
    (h : k.realizeReduction = .ok k') :
    ∃ accumulators, k.RealizesAs k' accumulators ∧
      ((∀ a ∈ accumulators, a.Initialized k') ↔
        ∀ red ∈ k.reductions, ∀ n, ¬red.Hides k n) := by
  obtain ⟨r, hr, hdomain, hemitted, htemporaries⟩ := realizeReduction_spec h
  obtain ⟨accs, hall⟩ := recordsOwners_of_foldlM hbinders hacc hinfinity hr
  have hinames : k'.insnInames = k.insnInames := by
    funext insn
    rw [insnInames, insnInames, hdomain]
  refine ⟨accs, ⟨hall.reductions, fun n => ?_, ?_, hall.nodup, fun a ha hnames => ?_,
    fun a ha => ?_, fun a ha => ?_⟩, ?_⟩
  · rw [htemporaries, hall.temporaries, or_comm]
  · rw [hemitted]
    exact hall.instructions
  · exact (hall.made a ha).fresh fun _ => hnames
  · exact ⟨(hall.made a ha).target, (hall.made a ha).neutral⟩
  · exact ⟨(hall.made a ha).assignee, (hall.made a ha).applied⟩
  · rw [reductions, ← hall.reductions, List.forall_mem_map]
    constructor
    · intro hinitialized a ha
      have hindices := (hinitialized a ha).indices
      rw [hinames, hdomain] at hindices
      exact (hall.made a ha).indices_iff.mp hindices
    · intro hhides a ha
      have hreaders := hall.readers hhides a ha
      have hindices := (hall.made a ha).indices_iff.mpr (hhides a ha)
      rw [← hemitted, ← hinames] at hreaders
      rw [← hinames, ← hdomain] at hindices
      exact ⟨hreaders, hindices⟩

/-- The lower triangle is summed by rows, and the sum of a row mentions the row outside of any
reduction in it, so both accumulators are read where they are set. -/
theorem initialized_realizeReduction_triangleSum :
    ∃ k' accumulators, triangleSum.realizeReduction = .ok k' ∧ accumulators.length = 2 ∧
      triangleSum.RealizesAs k' accumulators ∧ ∀ a ∈ accumulators, a.Initialized k' := by
  obtain ⟨k', hk⟩ := Attempt.exists_eq_ok (x := triangleSum.realizeReduction) (by decide +kernel)
  have hdeclared : ∀ insn ∈ triangleSum.instructions,
      (∀ n ∈ insn.expression.dependencies, n ∈ triangleSum.names) ∧
        ∀ n ∈ insn.assignee.dependencies, n ∈ triangleSum.names := by decide +kernel
  have hacc : ¬triangleSum.Exposes "acc" := by
    rintro ⟨insn, hinsn, n, hmention, hnew, -⟩
    obtain ⟨hexpression, hassignee⟩ := hdeclared insn hinsn
    exact hnew (hmention.elim (hexpression n) (hassignee n))
  have hshown : ∀ red ∈ triangleSum.reductions, ∀ n ∈ red.body.dependencies,
      n ∉ Expr.boundNames red.binders → n ∉ red.body.surfaceNames →
        triangleSum.domain.hasDim n = false := by decide +kernel
  obtain ⟨accumulators, hrealizes, hinitialized⟩ :=
    initialized_realizeReduction (by decide +kernel) hacc (by decide +kernel) hk
  refine ⟨k', accumulators, hk, ?_, hrealizes, hinitialized.mpr fun red hred n hides => ?_⟩
  · have hcount := congrArg List.length hrealizes.reductions
    rwa [List.length_map] at hcount
  · have hdim := hshown red hred n hides.mentioned hides.unbound hides.inside
    rw [hides.dim] at hdim
    cases hdim

end Kernel

end LoopKernel
