import LoopKernel.Proofs.Axis.Assignment
import LoopKernel.Proofs.Iname.Mentions
import LoopKernel.Proofs.WellFormed.Runs

/-!
# Which axes are chosen

Decisions are found through the instructions. So the axes of all indices that instructions run over
are chosen, and the axis of an index that no instruction runs over stays open.
-/

namespace LoopKernel.Kernel

/-- Whether the axis of an index is open and no instruction runs over the index. -/
structure Idle (k : Kernel) (n : String) : Prop where
  auto : (k.tag n).isAuto = true
  unused : ¬k.RunsOver n

variable {k k' : Kernel} {lengths : List Int} {n : String}

/-- A kernel without open axes stays as it is once its axes are measured. -/
theorem assignAutomaticAxes_eq_ok_iff (hclosed : ∀ n, (k.tag n).isAuto = false) :
    k.assignAutomaticAxes = .ok k' ↔ (∃ lengths, k.localAxisLengths = .ok lengths) ∧ k' = k := by
  have hfor (axis : Nat) (lengths : List Int) (insn : Instruction) :
      k.decideFor axis lengths insn = .ok none := by
    have hnone : k.openInames insn = [] :=
      List.filter_eq_nil_iff.mpr fun n _ => by rw [hclosed n]; exact Bool.false_ne_true
    rw [decideFor, hnone]
    rfl
  have hamong (axis : Nat) (lengths : List Int) (insns : List Instruction) :
      k.decideAmong axis lengths insns = .ok none := by
    induction insns with
    | nil => rfl
    | cons insn rest ih =>
      rw [decideAmong, hfor]
      exact ih
  have hover (lengths : List Int) (axes : List Nat) : k.decideOver lengths axes = .ok none := by
    induction axes with
    | nil => rfl
    | cons axis rest ih =>
      rw [decideOver, hamong]
      exact ih
  have hwithin (lengths : List Int) (n : Nat) : assignAxesWithin lengths (n + 1) k = .ok k := by
    rw [assignAxesWithin, nextDecision, hover]
    rfl
  simp only [assignAutomaticAxes, Attempt.bind_eq_ok, hwithin, Except.ok.injEq]
  constructor
  · rintro ⟨lengths, hlengths, rfl⟩
    exact ⟨⟨lengths, hlengths⟩, rfl⟩
  · rintro ⟨⟨lengths, hlengths⟩, rfl⟩
    exact ⟨lengths, hlengths, rfl⟩

/-- Setting the tag of an index that instructions run over leaves the idle ones as they are. -/
private theorem idle_insert_iff {m : String} {tag : IndexTag} (hruns : k.RunsOver m)
    (htag : tag.isAuto = false) :
    ({ k with tags := k.tags.insert m tag } : Kernel).Idle n ↔ k.Idle n := by
  by_cases hn : n = m
  · constructor
    · intro h
      have hauto := h.auto
      rw [tag_insert, if_pos hn, htag] at hauto
      cases hauto
    · exact fun h => absurd (hn ▸ hruns) h.unused
  · have hsame := tag_insert k m n tag
    rw [if_neg hn] at hsame
    exact ⟨fun h => ⟨hsame ▸ h.auto, h.unused⟩, fun h => ⟨hsame.symm ▸ h.auto, h.unused⟩⟩

/-- After a split, instructions run over other indices than the new ones as before. -/
theorem runsOver_splitIname_of_ne {iname : String} {length : Int}
    {outerTag innerTag : Option IndexTag}
    (hk : k.splitIname iname length outerTag innerTag = .ok k') (hindex : n ≠ iname)
    (houter : n ≠ (k.indexSplit iname length).outer)
    (hinner : n ≠ (k.indexSplit iname length).inner) : k'.RunsOver n ↔ k.RunsOver n := by
  have hinsns : k'.instructions = k.instructions.map (k.indexSplit iname length).splitInsn := by
    obtain ⟨-, -, domain, -, rfl⟩ := splitIname_spec hk
    rfl
  rw [RunsOver, RunsOver, hinsns]
  constructor
  · rintro ⟨_, hinsn, hn⟩
    obtain ⟨insn, hold, rfl⟩ := List.mem_map.mp hinsn
    exact ⟨insn, hold, (mem_insnInames_splitIname_of_ne hk hindex houter hinner).mp hn⟩
  · rintro ⟨insn, hinsn, hn⟩
    exact ⟨_, List.mem_map_of_mem hinsn,
      (mem_insnInames_splitIname_of_ne hk hindex houter hinner).mpr hn⟩

/-- A step leaves the idle indices as they are. -/
theorem WellFormed.idle_iff_of_axisStep (h : k.WellFormed) (hstep : AxisStep lengths k k') :
    k'.Idle n ↔ k.Idle n := by
  cases hstep with
  | demote hauto hruns => exact idle_insert_iff hruns rfl
  | assign hmay => exact idle_insert_iff hmay.runs rfl
  | @split k' m axis available hmay havailable hsplit =>
    have htag := tag_splitIname (n := n) hsplit
    -- The index was no idle one, and the new ones are new and have other tags.
    by_cases hnew : n = m ∨ n = (k.indexSplit m available).outer ∨
        n = (k.indexSplit m available).inner
    · constructor
      · intro hidle
        have hauto := hidle.auto
        rw [htag] at hauto
        split_ifs at hauto with hinner houter
        · cases hauto
        · cases hauto
        · cases hauto
        · tauto
      · intro hidle
        have hdim := h.mem_dims_of_tag (get?_tags_of_isAuto hidle.auto)
        rcases hnew with rfl | rfl | rfl
        · exact absurd hmay.runs hidle.unused
        · exact absurd (mem_names_of_mem_dims hdim) (k.outer_indexSplit_not_mem m available)
        · exact absurd (mem_names_of_mem_dims hdim) (k.inner_indexSplit_not_mem m available)
    · rw [not_or, not_or] at hnew
      obtain ⟨hindex, houter, hinner⟩ := hnew
      rw [if_neg hinner, if_neg houter, if_neg hindex] at htag
      have hruns := runsOver_splitIname_of_ne hsplit hindex houter hinner
      exact ⟨fun hidle => ⟨htag ▸ hidle.auto, mt hruns.mpr hidle.unused⟩,
        fun hidle => ⟨htag.symm ▸ hidle.auto, mt hruns.mp hidle.unused⟩⟩

/-- Steps leave the idle indices as they are. -/
theorem WellFormed.idle_iff_of_axisSteps (h : k.WellFormed)
    (hsteps : Relation.ReflTransGen (AxisStep lengths) k k') : k'.Idle n ↔ k.Idle n := by
  induction hsteps with
  | refl => rfl
  | tail hbefore hstep ih => exact ((h.axisSteps hbefore).idle_iff_of_axisStep hstep).trans ih

/-- After axes are chosen, the open ones are those of idle indices. -/
theorem WellFormed.isAuto_assignAutomaticAxes (h : k.WellFormed)
    (hk : k.assignAutomaticAxes = .ok k') : (k'.tag n).isAuto = true ↔ k.Idle n := by
  obtain ⟨lengths, -, hsteps, hdone⟩ := assignAutomaticAxes_spec hk
  rw [← h.idle_iff_of_axisSteps hsteps]
  exact ⟨fun hauto => ⟨hauto, not_runsOver_of_nextDecision hdone hauto⟩, Idle.auto⟩

/-- When axes are chosen at the end of any run of a loaded kernel, exactly those stay open that were
open and belong to indices that no instruction runs over. -/
theorem isAuto_assignAutomaticAxes_iff {source : String} {device : Device} {k₀ : Kernel}
    {steps : List Step} (hload : Source.load source device = .ok k₀)
    (hrun : steps.foldlM Step.run k₀ = .ok k) (hk : k.assignAutomaticAxes = .ok k') (n : String) :
    (k'.tag n).isAuto = true ↔
      (k.tag n).isAuto = true ∧ ∀ insn ∈ k.instructions, n ∉ k.insnInames insn := by
  rw [((Source.wellFormed_of_load hload).run hrun).isAuto_assignAutomaticAxes hk]
  constructor
  · exact fun h => ⟨h.auto, fun insn hinsn hn => h.unused ⟨insn, hinsn, hn⟩⟩
  · rintro ⟨hauto, hnone⟩
    exact ⟨hauto, fun ⟨insn, hinsn, hn⟩ => hnone insn hinsn hn⟩

/-- The sums of the rows of an array, with an axis to be chosen for the index that is summed over,
which is copied first. -/
def copiedIndexSource : String :=
  "domain [i, j] : 0 <= i < 4 and 0 <= j < 4\narg global float32 a[4, 4]\n" ++
    "temp float32 t[4]\ntag i = l.auto, j = l.auto\ninsn s: t[i] = sum(@j, a[i, j])\n"

/-- The axis of the row is chosen, and that of the index behind the copy stays open. -/
theorem isAuto_assignAutomaticAxes_iff_copiedIndex :
    ∃ k₀ k k', Source.load copiedIndexSource .fermi = .ok k₀ ∧
      ([.pass .duplicateInames] : List Step).foldlM Step.run k₀ = .ok k ∧
      k.assignAutomaticAxes = .ok k' ∧
      (k.tag "i").isAuto = true ∧ (k'.tag "i").isAuto = false ∧ (k'.tag "j").isAuto = true := by
  obtain ⟨k₀, hload, k, hrun, hauto, hopen, hruns, hnone, hok⟩ :
      ∃ k₀, Source.load copiedIndexSource .fermi = .ok k₀ ∧
        ∃ k, ([.pass .duplicateInames] : List Step).foldlM Step.run k₀ = .ok k ∧
          (k.tag "i").isAuto = true ∧ (k.tag "j").isAuto = true ∧
          (∃ insn ∈ k.instructions, "i" ∈ k.insnInames insn) ∧
          (∀ insn ∈ k.instructions, "j" ∉ k.insnInames insn) ∧
          k.assignAutomaticAxes.isOk = true := by decide +kernel
  obtain ⟨k', hk⟩ := Attempt.exists_eq_ok hok
  have hiff := isAuto_assignAutomaticAxes_iff hload hrun hk
  refine ⟨k₀, k, k', hload, hrun, hk, hauto, ?_, (hiff "j").mpr ⟨hopen, hnone⟩⟩
  rw [← Bool.not_eq_true, hiff]
  rintro ⟨-, hunused⟩
  obtain ⟨insn, hinsn, hn⟩ := hruns
  exact hunused insn hinsn hn

end LoopKernel.Kernel
