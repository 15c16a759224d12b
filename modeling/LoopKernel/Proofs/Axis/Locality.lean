import LoopKernel.Proofs.Storage.Writes

/-!
# Local axes in the indices of elements

What becomes of a loop index with an open axis in the index of an element that is written: it gets a
local axis, is replaced by an inner loop index that gets one, or becomes sequential. So the tags at
the end and the names before tell which elements have a local axis in their index at the end.
-/

namespace LoopKernel

namespace IndexSplit

/-- A split expression is an element of an array only if the original one is. -/
theorem of_splitExpr_eq_subscript {s : IndexSplit} {e : Expr} {v : String} {index : List Expr}
    (h : s.splitExpr e = .subscript v index) :
    ∃ before, e = .subscript v before ∧ s.splitExprs before = index := by
  cases e with
  | subscript aggregate before =>
    rw [splitExpr, Expr.subscript.injEq] at h
    exact ⟨before, by rw [h.1], h.2⟩
  | var name =>
    rw [splitExpr] at h
    split at h <;> cases h
  | _ => simp [splitExpr] at h

end IndexSplit

namespace Kernel

variable {k k' : Kernel} {v n : String} {index : List Expr}

/-- Whether the index of an element is left with a local axis once the axes that are open in a
kernel are chosen: the tags then give one to a name that it mentions, or the axis of one of its
variables was open and has not become sequential. -/
def EndsLocal (k out : Kernel) (index : List Expr) : Prop :=
  (∃ n ∈ Expr.dependenciesOfAll index, (out.tag n).isLocal = true) ∨
    ∃ n ∈ Expr.variableNamesOfAll index,
      (k.tag n).isAuto = true ∧ out.tags.get? n ≠ some .sequential

variable {lengths : List Int} {tag : IndexTag}

/-! ## Tags -/

/-- A tag that is no open axis is left by a step. -/
theorem WellFormed.get?_tags_of_axisStep (h : k.WellFormed) (hstep : AxisStep lengths k k')
    (hn : k.tags.get? n = some tag) (hauto : tag.isAuto = false) : k'.tags.get? n = some tag := by
  have hother : ∀ m, (k.tag m).isAuto = true → n ≠ m := by
    rintro m hm rfl
    rw [get?_tags_of_isAuto hm] at hn
    cases hn
    cases hauto
  cases hstep with
  | demote hm => rw [SortedMap.get?_insert, if_neg (hother _ hm), hn]
  | assign hmay => rw [SortedMap.get?_insert, if_neg (hother _ hmay.auto), hn]
  | @split k' m axis available hmay havailable hsplit =>
    obtain ⟨houter, hinner⟩ :=
      ne_new_of_mem_names m available (mem_names_of_mem_dims (h.mem_dims_of_tag hn))
    rw [get?_tags_splitIname hsplit, if_neg hinner, if_neg houter, if_neg (hother m hmay.auto), hn]

/-- Tags that are no open axes are left by steps. -/
theorem WellFormed.get?_tags_of_axisSteps (h : k.WellFormed)
    (hsteps : Relation.ReflTransGen (AxisStep lengths) k k') (hn : k.tags.get? n = some tag)
    (hauto : tag.isAuto = false) : k'.tags.get? n = some tag := by
  induction hsteps with
  | refl => exact hn
  | tail hbefore hstep ih => exact (h.axisSteps hbefore).get?_tags_of_axisStep hstep ih hauto

/-- An index that is sequential or whose axis is open after a step was so before. -/
theorem AxisStep.of_get?_tags (hstep : AxisStep lengths k k')
    (hn : k'.tags.get? n = some .sequential ∨ k'.tags.get? n = some .autoLocalAxis) :
    k.tags.get? n = some .sequential ∨ k.tags.get? n = some .autoLocalAxis := by
  cases hstep with
  | @demote m hm =>
    rw [SortedMap.get?_insert] at hn
    split at hn
    · next he => exact .inr (he ▸ get?_tags_of_isAuto hm)
    · exact hn
  | assign hmay =>
    rw [SortedMap.get?_insert] at hn
    split at hn
    · simp at hn
    · exact hn
  | split hmay havailable hsplit =>
    rw [get?_tags_splitIname hsplit] at hn
    split_ifs at hn
    · simp at hn
    · simp at hn
    · simp at hn
    · exact hn

/-- An index that is sequential or whose axis is open after several steps was so before. -/
theorem of_get?_tags_of_axisSteps (hsteps : Relation.ReflTransGen (AxisStep lengths) k k')
    (hn : k'.tags.get? n = some .sequential ∨ k'.tags.get? n = some .autoLocalAxis) :
    k.tags.get? n = some .sequential ∨ k.tags.get? n = some .autoLocalAxis := by
  induction hsteps with
  | refl => exact hn
  | tail _ hstep ih => exact ih (hstep.of_get?_tags hn)

/-- Which axes are open after an index is split onto a local axis: those that were, other than that
of the index. -/
theorem WellFormed.isAuto_splitIname_iff {m : String} {axis : Nat} {available : Int}
    (h : k.WellFormed)
    (hsplit : k.splitIname m available (some .unroll) (some (.localAxis axis)) = .ok k') :
    (k'.tag n).isAuto = true ↔ n ≠ m ∧ (k.tag n).isAuto = true := by
  rw [tag_splitIname hsplit]
  constructor
  · intro hn
    split_ifs at hn with _ _ hnm
    · cases hn
    · cases hn
    · cases hn
    · exact ⟨hnm, hn⟩
  · rintro ⟨hnm, hn⟩
    have hdim := h.mem_dims_of_tag (get?_tags_of_isAuto hn)
    obtain ⟨houter, hinner⟩ := ne_new_of_mem_names m available (mem_names_of_mem_dims hdim)
    rwa [if_neg hinner, if_neg houter, if_neg hnm]

/-- The new indices of a split onto a local axis keep their tags, and the index does not come back
as a sequential one. -/
theorem WellFormed.tags_of_splitIname_of_axisSteps {m : String} {axis : Nat} {available : Int}
    {c : Kernel} (h : k.WellFormed)
    (hsplit : k.splitIname m available (some .unroll) (some (.localAxis axis)) = .ok c)
    (hsteps : Relation.ReflTransGen (AxisStep lengths) c k') :
    k'.tag (k.indexSplit m available).outer = .unroll ∧
      k'.tag (k.indexSplit m available).inner = .localAxis axis ∧
      k'.tags.get? m ≠ some .sequential := by
  have htags := fun n => get?_tags_splitIname (n := n) hsplit
  have hkept : ∀ {n tag}, c.tags.get? n = some tag → tag.isAuto = false → k'.tag n = tag := by
    intro n tag hn hauto
    rw [Kernel.tag, SortedMap.getD, (h.splitIname hsplit).get?_tags_of_axisSteps hsteps hn hauto,
      Option.getD_some]
  refine ⟨hkept ?_ rfl, hkept ?_ rfl, fun hsequential => ?_⟩
  · rw [htags, if_neg (k.outer_indexSplit_ne_inner m available), if_pos rfl, Option.getD_some]
  · rw [htags, if_pos rfl, Option.getD_some]
  · obtain ⟨hm, -⟩ := splitIname_spec hsplit
    obtain ⟨houter, hinner⟩ := ne_new_of_mem_names m available (mem_names_of_mem_dims hm)
    have hbefore := of_get?_tags_of_axisSteps hsteps (.inl hsequential)
    rw [htags, if_neg hinner, if_neg houter, if_pos rfl] at hbefore
    simp at hbefore

/-! ## Indices of elements -/

/-- Setting an open axis, or making its index sequential, makes no difference to where a local axis
is left at the end. -/
theorem WellFormed.endsLocal_insert {m : String} (h : k.WellFormed) (hm : (k.tag m).isAuto = true)
    (hauto : tag.isAuto = false) (htag : tag = .sequential ∨ tag.isLocal = true)
    (hplain : Expr.anyContainsReduction index = false)
    (hsteps : Relation.ReflTransGen (AxisStep lengths) { k with tags := k.tags.insert m tag } k') :
    EndsLocal { k with tags := k.tags.insert m tag } k' index ↔ k.EndsLocal k' index := by
  have hdim := h.mem_dims_of_tag (get?_tags_of_isAuto hm)
  have hkept : k'.tags.get? m = some tag := (h.with_tag tag hdim).get?_tags_of_axisSteps hsteps
    (by rw [SortedMap.get?_insert, if_pos rfl]) hauto
  have hother : ∀ n, n ≠ m →
      ({ k with tags := k.tags.insert m tag } : Kernel).tag n = k.tag n := fun n hn => by
    rw [tag_insert, if_neg hn]
  constructor
  · rintro (hlocal | ⟨n, hn, hopen, hkeeps⟩)
    · exact .inl hlocal
    · by_cases he : n = m
      · rw [tag_insert, if_pos he, hauto] at hopen
        cases hopen
      · exact .inr ⟨n, hn, hother n he ▸ hopen, hkeeps⟩
  · rintro (hlocal | ⟨n, hn, hopen, hkeeps⟩)
    · exact .inl hlocal
    · by_cases he : n = m
      · subst he
        rcases htag with rfl | hlocal
        · exact absurd hkept hkeeps
        · refine .inl ⟨n, (Expr.mem_dependenciesOfAll_iff index hplain).mpr (.inl hn), ?_⟩
          rwa [Kernel.tag, SortedMap.getD, hkept]
      · exact .inr ⟨n, hn, (hother n he).symm ▸ hopen, hkeeps⟩

/-- Splitting an index onto a local axis makes no difference to where a local axis is left at the
end: the inner index has one where the index was mentioned as a variable. -/
theorem WellFormed.endsLocal_splitIname {m : String} {axis : Nat} {available : Int} {c : Kernel}
    (h : k.WellFormed) (hm : (k.tag m).isAuto = true)
    (hplain : Expr.anyContainsReduction index = false)
    (hsplit : k.splitIname m available (some .unroll) (some (.localAxis axis)) = .ok c)
    (hsteps : Relation.ReflTransGen (AxisStep lengths) c k') :
    c.EndsLocal k' ((k.indexSplit m available).splitExprs index) ↔ k.EndsLocal k' index := by
  have hnew : ∀ n, (k.tag n).isAuto = true → n ≠ (k.indexSplit m available).outer ∧
      n ≠ (k.indexSplit m available).inner := fun n hn => ne_new_of_mem_names m available
    (mem_names_of_mem_dims (h.mem_dims_of_tag (get?_tags_of_isAuto hn)))
  have hopen : ∀ n, (c.tag n).isAuto = true ↔ n ≠ m ∧ (k.tag n).isAuto = true := fun n =>
    h.isAuto_splitIname_iff hsplit
  obtain ⟨houter, hinner, hgone⟩ := h.tags_of_splitIname_of_axisSteps hsplit hsteps
  have hindex : (k.indexSplit m available).index = m := rfl
  generalize k.indexSplit m available = s at *
  have hplain' : Expr.anyContainsReduction (s.splitExprs index) = false :=
    (IndexSplit.anyContainsReduction_splitExprs index).trans hplain
  unfold EndsLocal
  simp only [Expr.mem_dependenciesOfAll_iff _ hplain', Expr.mem_dependenciesOfAll_iff _ hplain,
    IndexSplit.mem_variableNamesOfAll_splitExprs, IndexSplit.fixedNamesOfAll_splitExprs, hindex,
    hopen]
  constructor
  · rintro (⟨n, (⟨-, hn⟩ | ⟨rfl | rfl, hn⟩) | hn, hlocal⟩ | ⟨n, hn, ⟨hnm, hauto⟩, hkeeps⟩)
    · exact .inl ⟨n, .inl hn, hlocal⟩
    · rw [houter] at hlocal
      cases hlocal
    · exact .inr ⟨m, hn, hm, hgone⟩
    · exact .inl ⟨n, .inr hn, hlocal⟩
    · have hold : ¬(n = s.outer ∨ n = s.inner) := not_or.mpr (hnew n hauto)
      exact .inr ⟨n, (hn.resolve_right fun hn => hold hn.1).2, hauto, hkeeps⟩
  · have hlocalInner : (k'.tag s.inner).isLocal = true := by
      rw [hinner]
      rfl
    rintro (⟨n, hn | hn, hlocal⟩ | ⟨n, hn, hauto, hkeeps⟩)
    · by_cases hnm : n = m
      · exact .inl ⟨s.inner, .inl (.inr ⟨.inr rfl, hnm ▸ hn⟩), hlocalInner⟩
      · exact .inl ⟨n, .inl (.inl ⟨hnm, hn⟩), hlocal⟩
    · exact .inl ⟨n, .inr hn, hlocal⟩
    · by_cases hnm : n = m
      · exact .inl ⟨s.inner, .inl (.inr ⟨.inr rfl, hnm ▸ hn⟩), hlocalInner⟩
      · exact .inr ⟨n, .inl ⟨hnm, hn⟩, ⟨hnm, hauto⟩, hkeeps⟩

/-! ## Elements written -/

/-- The elements that are written after a split are those with the index split. -/
theorem writes_splitIname {m : String} {length : Int} {outerTag innerTag : Option IndexTag}
    (hk : k.splitIname m length outerTag innerTag = .ok k') : k'.Writes v index ↔
      ∃ before, k.Writes v before ∧ (k.indexSplit m length).splitExprs before = index := by
  obtain ⟨-, -, domain, -, rfl⟩ := splitIname_spec hk
  constructor
  · rintro ⟨_, hafter, hassignee⟩
    obtain ⟨insn, hinsn, rfl⟩ := List.mem_map.mp hafter
    obtain ⟨before, hbefore, hindex⟩ := IndexSplit.of_splitExpr_eq_subscript hassignee
    exact ⟨before, ⟨insn, hinsn, hbefore⟩, hindex⟩
  · rintro ⟨before, ⟨insn, hinsn, hassignee⟩, rfl⟩
    refine ⟨_, List.mem_map_of_mem hinsn, ?_⟩
    rw [IndexSplit.splitInsn, hassignee, IndexSplit.splitExpr]

/-- No reduction is in the index of an element if none is in an assignee. -/
theorem Writes.plain (h : k.Writes v index)
    (hplain : ∀ insn ∈ k.instructions, insn.assignee.containsReduction = false) :
    Expr.anyContainsReduction index = false := by
  obtain ⟨insn, hinsn, hassignee⟩ := h
  have hnone := hplain insn hinsn
  rwa [hassignee] at hnone

/-- Which arrays are written locally after axes are chosen. -/
theorem WellFormed.writesLocally_iff_of_axisSteps (h : k.WellFormed)
    (hplain : ∀ insn ∈ k.instructions, insn.assignee.containsReduction = false)
    (hsteps : Relation.ReflTransGen (AxisStep lengths) k k') :
    k'.WritesLocally v ↔ ∃ index, k.Writes v index ∧ k.EndsLocal k' index := by
  induction hsteps using Relation.ReflTransGen.head_induction_on with
  | refl =>
    refine exists_congr fun index => and_congr_right fun hwrites => ?_
    refine ⟨.inl, fun hends => hends.elim id fun ⟨n, hn, hopen, _⟩ => ⟨n, ?_, ?_⟩⟩
    · exact (Expr.mem_dependenciesOfAll_iff index (hwrites.plain hplain)).mpr (.inl hn)
    · rw [Kernel.tag, SortedMap.getD, get?_tags_of_isAuto hopen]
      rfl
  | @head k c hstep hrest ih =>
    have hwf := h.axisStep hstep
    cases hstep with
    | demote hauto =>
      refine (ih hwf hplain).trans (exists_congr fun index => and_congr_right fun hwrites => ?_)
      exact h.endsLocal_insert hauto rfl (.inl rfl) (hwrites.plain hplain) hrest
    | assign hmay =>
      refine (ih hwf hplain).trans (exists_congr fun index => and_congr_right fun hwrites => ?_)
      exact h.endsLocal_insert hmay.auto rfl (.inr rfl) (hwrites.plain hplain) hrest
    | @split c m axis available hmay havailable hsplit =>
      have hplain' : ∀ insn ∈ c.instructions, insn.assignee.containsReduction = false := by
        obtain ⟨-, -, domain, -, rfl⟩ := splitIname_spec hsplit
        intro after hafter
        obtain ⟨insn, hinsn, rfl⟩ := List.mem_map.mp hafter
        exact (IndexSplit.containsReduction_splitExpr insn.assignee).trans (hplain insn hinsn)
      have hends : ∀ index, k.Writes v index →
          (c.EndsLocal k' ((k.indexSplit m available).splitExprs index) ↔ k.EndsLocal k' index) :=
        fun index hwrites => h.endsLocal_splitIname hmay.auto (hwrites.plain hplain) hsplit hrest
      refine (ih hwf hplain').trans ⟨?_, ?_⟩
      · rintro ⟨_, hafter, hlocal⟩
        obtain ⟨index, hwrites, rfl⟩ := (writes_splitIname hsplit).mp hafter
        exact ⟨index, hwrites, (hends index hwrites).mp hlocal⟩
      · rintro ⟨index, hwrites, hlocal⟩
        exact ⟨_, (writes_splitIname hsplit).mpr ⟨index, hwrites, rfl⟩,
          (hends index hwrites).mpr hlocal⟩

/-- Steps leave the temporaries alone. -/
theorem temporaries_of_axisSteps (hsteps : Relation.ReflTransGen (AxisStep lengths) k k') :
    k'.temporaries = k.temporaries := by
  induction hsteps with
  | refl => rfl
  | tail _ hstep ih =>
    rw [← ih]
    cases hstep with
    | demote | assign => rfl
    | split hmay havailable hsplit =>
      obtain ⟨-, -, domain, -, rfl⟩ := splitIname_spec hsplit
      rfl

end Kernel

end LoopKernel
