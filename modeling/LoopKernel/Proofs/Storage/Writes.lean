import LoopKernel.Proofs.Axis.Assignment
import LoopKernel.Proofs.Iname.Mentions
import LoopKernel.Proofs.Reduction.Duplication
import LoopKernel.Proofs.WellFormed.Attributes

/-!
# Elements written

The elements of arrays that instructions assign to. A temporary is made local when an instruction
writes an element of it whose index mentions a loop index with a local axis. Passes that leave the
assignees alone keep what is written.
-/

namespace LoopKernel

namespace Instruction

variable {insn : Instruction} {v n : String}

/-- An instruction that assigns to a variable at an index that mentions a name assigns to an element
of an array. -/
theorem exists_subscript_iff : insn.target = v ∧ n ∈ Expr.dependenciesOfAll insn.targetIndex ↔
    ∃ index, insn.assignee = .subscript v index ∧ n ∈ Expr.dependenciesOfAll index := by
  unfold target targetIndex
  cases insn.assignee with
  | subscript aggregate index => simp [and_assoc]
  | _ => simp [Expr.dependenciesOfAll]

end Instruction

namespace Kernel

/-- Whether an instruction assigns to an element of an array at an index. -/
def Writes (k : Kernel) (v : String) (index : List Expr) : Prop :=
  ∃ insn ∈ k.instructions, insn.assignee = .subscript v index

/-- Whether an instruction assigns to an element of an array at an index that mentions a loop index
with a local axis. -/
def WritesLocally (k : Kernel) (v : String) : Prop :=
  ∃ index, k.Writes v index ∧ ∃ n ∈ Expr.dependenciesOfAll index, (k.tag n).isLocal = true

variable {k k' : Kernel} {insn : Instruction} {v n : String} {index : List Expr}

/-! ## Deciding on locality -/

/-- A loop index with a local axis is a dimension. -/
theorem WellFormed.mem_dims_of_isLocal (h : k.WellFormed) (hn : (k.tag n).isLocal = true) :
    n ∈ k.domain.dims := by
  have hne : k.tag n ≠ .sequential := fun he => by
    rw [he] at hn
    cases hn
  exact h.mem_dims_of_tag (get?_tags_of_ne_sequential hne)

/-- An instruction writes along a local axis when the index of its assignee mentions an index with
one. -/
theorem WellFormed.writesAlongLocalAxis_iff (h : k.WellFormed) :
    k.writesAlongLocalAxis insn = true ↔
      ∃ n ∈ Expr.dependenciesOfAll insn.targetIndex, (k.tag n).isLocal = true := by
  simp only [writesAlongLocalAxis, List.any_eq_true, NameSet.mem_toList, Bool.and_eq_true,
    NameSet.contains_iff]
  constructor
  · rintro ⟨n, -, hn, hlocal⟩
    exact ⟨n, hn, hlocal⟩
  · rintro ⟨n, hn, hlocal⟩
    have hmentions : insn.Mentions n := .inr (Instruction.mem_dependencies_of_mem_targetIndex hn)
    exact ⟨n, mem_insnInames.mpr (.inr ⟨hmentions, h.mem_dims_of_isLocal hlocal⟩), hn, hlocal⟩

/-- The writers of a variable write locally when an instruction does. -/
theorem WellFormed.anyWritesLocally_iff (h : k.WellFormed) :
    k.anyWritesLocally (k.writers.getD v ∅) = true ↔ k.WritesLocally v := by
  have hwriters : ∀ insn, insn ∈ (k.writers.getD v ∅).toList.filterMap k.insn? ↔
      insn ∈ k.instructions ∧ insn.target = v := by
    intro insn
    simp only [List.mem_filterMap, NameSet.mem_toList]
    constructor
    · rintro ⟨id, hid, hfound⟩
      obtain ⟨writer, hwriter, rfl⟩ := DataFlow.mem_writersOf.mp hid
      obtain ⟨hmem, htarget⟩ := List.mem_filter.mp hwriter
      rw [insn?_id h.ids hmem, Option.some.injEq] at hfound
      exact hfound ▸ ⟨hmem, beq_iff_eq.mp htarget⟩
    · rintro ⟨hmem, htarget⟩
      exact ⟨insn.id, DataFlow.mem_writersOf.mpr
        ⟨insn, List.mem_filter.mpr ⟨hmem, beq_iff_eq.mpr htarget⟩, rfl⟩, insn?_id h.ids hmem⟩
  simp only [anyWritesLocally, List.any_eq_true, hwriters, h.writesAlongLocalAxis_iff]
  constructor
  · rintro ⟨insn, ⟨hinsn, htarget⟩, n, hn, hlocal⟩
    obtain ⟨index, hassignee, hn⟩ := Instruction.exists_subscript_iff.mp ⟨htarget, hn⟩
    exact ⟨index, ⟨insn, hinsn, hassignee⟩, n, hn, hlocal⟩
  · rintro ⟨index, ⟨insn, hinsn, hassignee⟩, n, hn, hlocal⟩
    obtain ⟨htarget, hn⟩ := Instruction.exists_subscript_iff.mpr ⟨index, hassignee, hn⟩
    exact ⟨insn, ⟨hinsn, htarget⟩, n, hn, hlocal⟩

/-- What deciding on locality gives: flags that tell which temporaries are written locally. -/
theorem WellFormed.get?_temporaries_markLocalTemporaries (h : k.WellFormed) {t : Temporary} :
    k.markLocalTemporaries.temporaries.get? v = some t ↔ ∃ before,
      k.temporaries.get? v = some before ∧
        ∃ flag, (flag = true ↔ k.WritesLocally v) ∧ { before with isLocal := flag } = t := by
  simp only [Kernel.markLocalTemporaries, SortedMap.get?_mapValues, Option.map_eq_some_iff]
  refine exists_congr fun before => and_congr_right fun hbefore => ?_
  rw [h.temporaries v before hbefore]
  constructor
  · exact fun ht => ⟨_, h.anyWritesLocally_iff, ht⟩
  · rintro ⟨flag, hflag, rfl⟩
    rw [Bool.eq_iff_iff.mpr (h.anyWritesLocally_iff.trans hflag.symm)]

/-- Deciding on locality anew changes nothing when all flags are those that the tags determine. -/
theorem WellFormed.markLocalTemporaries_eq_self_iff (h : k.WellFormed) :
    k.markLocalTemporaries = k ↔
      ∀ v t, k.temporaries.get? v = some t → (t.isLocal = true ↔ k.WritesLocally v) := by
  constructor
  · intro heq v t ht
    rw [← heq] at ht
    obtain ⟨before, -, flag, hflag, rfl⟩ := h.get?_temporaries_markLocalTemporaries.mp ht
    exact hflag
  · intro hflags
    have htemporaries : k.markLocalTemporaries.temporaries = k.temporaries := by
      apply SortedMap.ext_get?
      intro v
      apply Option.ext
      intro t
      rw [h.get?_temporaries_markLocalTemporaries]
      constructor
      · rintro ⟨before, hbefore, flag, hflag, rfl⟩
        rw [Bool.eq_iff_iff.mpr (hflag.trans (hflags v before hbefore).symm)]
        exact hbefore
      · exact fun ht => ⟨t, ht, t.isLocal, hflags v t ht, rfl⟩
    exact congrArg (fun temporaries => ({ k with temporaries := temporaries } : Kernel))
      htemporaries

/-! ## Passes that keep assignees -/

/-- Instructions with the same assignees write the same elements. -/
theorem writes_congr
    (h : k'.instructions.map Instruction.assignee = k.instructions.map Instruction.assignee) :
    k'.Writes v index ↔ k.Writes v index := by
  have hmem : ∀ k : Kernel,
      k.Writes v index ↔ Expr.subscript v index ∈ k.instructions.map Instruction.assignee :=
    fun k => List.mem_map.symm
  rw [hmem, hmem, h]

/-- Copying reduction indices keeps the assignees. -/
theorem writes_duplicateReductionInames (h : k.duplicateReductionInames = .ok k') :
    k'.Writes v index ↔ k.Writes v index := by
  obtain ⟨-, hchanged, -, -⟩ := duplicateReductionInames_spec h
  exact writes_congr (map_of_forall₂ (fun _ _ => rfl) hchanged)

/-- Copies of reduction indices are sequential, as is every name without a tag. -/
theorem WellFormed.tag_duplicateReductionInames (h : k.WellFormed)
    (hk : k.duplicateReductionInames = .ok k') : k'.tag n = k.tag n := by
  obtain ⟨-, hcopies⟩ := h.inameCopies_spec hk
  obtain ⟨-, -, -, hk'⟩ := duplicateReductionInames_spec hk
  have hsequential : ∀ copy ∈ k.inameCopies k', k.tag copy.2 = .sequential := by
    intro copy hcopy
    by_contra hne
    have hdim := h.mem_dims_of_tag (get?_tags_of_ne_sequential hne)
    exact (hcopies copy hcopy).2 (mem_names_of_mem_dims hdim)
  rw [hk']
  change SortedMap.getD _ _ _ = _
  apply List.foldlRecOn (motive := fun tags : SortedMap String IndexTag =>
    tags.getD n .sequential = k.tag n)
  · rfl
  · intro tags htags copy hcopy
    rw [SortedMap.getD_insert]
    split
    · next hn => rw [hn, hsequential copy hcopy]
    · exact htags

/-- Limiting extra runs changes the instructions, and keeps their assignees. -/
theorem limitBoostability_keeps (h : k.limitBoostability = .ok k') :
    k' = { k with instructions := k'.instructions } ∧
      ∀ v index, k'.Writes v index ↔ k.Writes v index := by
  unfold limitBoostability at h
  simp only [Attempt.bind_eq_ok, Attempt.pure_eq_ok] at h
  obtain ⟨insns, hinsns, rfl⟩ := h
  refine ⟨rfl, fun v index => writes_congr (Attempt.map_of_mapM ?_ hinsns)⟩
  intro insn limited hlimited
  obtain ⟨_, rfl, -⟩ := limitFor_spec hlimited
  rfl

/-- Choosing layouts changes the layouts alone. -/
theorem chooseLayouts_keeps {names : List String} {problems : List Diagnostic}
    (h : chooseLayouts names k = .ok (k', problems)) :
    k' = { k with temporaries := k'.temporaries } ∧
      ∀ v t, k'.temporaries.get? v = some t → ∃ before, k.temporaries.get? v = some before ∧
        t.isLocal = before.isLocal := by
  refine chooseLayouts_induction (P := fun _ c => c = { k with temporaries := c.temporaries } ∧
    ∀ v t, c.temporaries.get? v = some t → ∃ before, k.temporaries.get? v = some before ∧
      t.isLocal = before.isLocal) h ⟨rfl, fun v t ht => ⟨t, ht, rfl⟩⟩ (fun _ _ _ hc _ => hc) ?_
  rintro name _ c t layout ⟨hsame, hflags⟩ ht -
  refine ⟨by rw [hsame], fun v u hu => ?_⟩
  rw [SortedMap.get?_insert] at hu
  split at hu
  · next hv =>
    cases hu
    exact hflags v t (hv ▸ ht)
  · exact hflags v u hu

end Kernel

end LoopKernel
