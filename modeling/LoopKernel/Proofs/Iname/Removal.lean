import LoopKernel.Proofs.Expr.FreeNames
import LoopKernel.Proofs.Iname.Mentions

/-!
# What a split removes

A split takes the index out of the domain, the tags, the sets of indices of every instruction and
the binders. In an expression it replaces the variable of the index. An array or a name with a tag
that is called like the index stays, and is free afterwards even if a reduction bound it before,
since no reduction binds the index any more.
-/

namespace LoopKernel

/-! ## Expressions -/

namespace IndexSplit

variable {s : IndexSplit}

/-- No binder of a split expression binds the index. -/
theorem ne_index_of_mem_splitBinders (houter : s.outer ≠ s.index) (hinner : s.inner ≠ s.index)
    {binders : List Binder} {b : Binder} (hb : b ∈ s.splitBinders binders) : b.name ≠ s.index := by
  rcases of_mem_splitBinders hb with he | he | ⟨hne, -⟩
  · exact he ▸ houter
  · exact he ▸ hinner
  · exact hne

/-- A split expression mentions the index where an array or a name with a tag is called like it. -/
theorem index_mem_dependencies_splitExpr (houter : s.outer ≠ s.index) (hinner : s.inner ≠ s.index)
    (e : Expr) : s.index ∈ (s.splitExpr e).dependencies ↔ s.index ∈ e.fixedNames := by
  constructor
  · intro h
    rcases of_mem_dependencies_splitExpr e h with ⟨hne, -⟩ | ⟨-, hfixed⟩ | ⟨hnew, -⟩
    · exact absurd rfl hne
    · exact hfixed
    · rcases hnew with he | he
      · exact absurd he.symm houter
      · exact absurd he.symm hinner
  · intro h
    rw [← fixedNames_splitExpr (s := s)] at h
    refine Expr.mem_dependencies_iff_free _ |>.mpr
      (.inr (Expr.mem_unboundFixed_of_mem_fixedNames _ h fun b hb => ?_))
    rw [binders_splitExpr] at hb
    exact ne_index_of_mem_splitBinders houter hinner hb

/-- A set of indices does not contain the index after a split. -/
theorem index_not_mem_splitNames (houter : s.outer ≠ s.index) (hinner : s.inner ≠ s.index)
    (names : NameSet) : s.index ∉ s.splitNames names := by
  intro h
  rcases of_mem_splitNames h with he | he | ⟨hne, -⟩
  · exact houter he.symm
  · exact hinner he.symm
  · exact hne rfl

end IndexSplit

/-! ## Domains -/

namespace Affine

theorem proper_sub {f g d : Affine} (hf : f.Proper) (h : f.sub g = .ok d) : d.Proper := by
  unfold sub at h
  rw [Attempt.bind_eq_ok] at h
  obtain ⟨negated, -, h⟩ := h
  exact proper_add hf h

/-- A variable is gone when a form without it takes its place. -/
theorem coeff_substitute {f value g : Affine} {name : String} (hvalue : value.coeff name = 0)
    (h : f.substitute name value = .ok g) : g.coeff name = 0 := by
  unfold substitute at h
  split at h
  · next hzero =>
    rw [Attempt.pure_eq_ok] at h
    exact h ▸ hzero
  · rw [Attempt.bind_eq_ok] at h
    obtain ⟨scaled, hscaled, h⟩ := h
    rw [coeff_add h, coeff_scale hscaled, coeff_without, hvalue, zero_mul, add_zero]

end Affine

/-- The form that stands for the index has no coefficient for other variables than the two new
indices. -/
theorem IndexSplit.coeff_form_of_ne {s : IndexSplit} {form : Affine} {name : String}
    (h : s.form = .ok form) (houter : s.outer ≠ name) (hinner : s.inner ≠ name) :
    form.coeff name = 0 := by
  apply Affine.coeff_of_not_mem_vars
  intro hname
  rcases (Affine.mem_vars_add h).1 hname with hname | hname
  · exact houter (Affine.of_mem_vars_term hname).symm
  · exact hinner (Affine.of_mem_vars_term hname).symm

namespace Polyhedron

variable {s t : Polyhedron}

/-- One more constraint without stored zeros leaves none. -/
theorem proper_constrain {c : Constraint} (h : s.constrain c = .ok t)
    (hs : ∀ c ∈ s.constraints, c.form.Proper) (hc : c.form.Proper) :
    ∀ d ∈ t.constraints, d.form.Proper := by
  intro d hd
  rcases of_mem_constrain h hd with hold | hnormal
  · exact hs d hold
  · exact Constraint.proper_normalize hc hnormal

/-- A dimension is gone when a form without it takes its place. -/
theorem not_mentions_substituteDim {name : String} {value : Affine}
    (hs : ∀ c ∈ s.constraints, c.form.Proper) (hvalue : value.coeff name = 0)
    (h : s.substituteDim name value = .ok t) : ¬t.Mentions name := by
  unfold substituteDim at h
  split at h
  · simp at h
  · apply Attempt.foldlM_induction (P := fun _ out => ¬out.Mentions name) _ _ h
    · rintro ⟨c, hc, -⟩
      cases hc
    · rintro done out c next hc hout hnext ⟨d, hd, hname⟩
      simp only [Attempt.bind_eq_ok, Attempt.liftM_eq_ok] at hnext
      obtain ⟨replaced, hreplaced, hnext⟩ := hnext
      rcases of_mem_constrain hnext hd with hold | hnormal
      · exact hout ⟨d, hold, hname⟩
      · unfold Constraint.substitute at hreplaced
        rw [Attempt.bind_eq_ok] at hreplaced
        obtain ⟨form, hform, hreplaced⟩ := hreplaced
        rw [Constraint.vars_normalize hnormal, Constraint.vars_normalize hreplaced,
          Affine.mem_vars_iff (Affine.proper_substitute (hs c hc) hform)] at hname
        exact hname (Affine.coeff_substitute hvalue hform)

/-- The constraints of a split domain do not mention the index. -/
theorem not_mentions_splitDomain {split : IndexSplit} (hs : ∀ c ∈ s.constraints, c.form.Proper)
    (houter : split.outer ≠ split.index) (hinner : split.inner ≠ split.index)
    (h : split.splitDomain s = .ok t) : ¬t.Mentions split.index := by
  unfold IndexSplit.splitDomain at h
  simp only [Attempt.bind_eq_ok, Attempt.liftM_eq_ok, Attempt.pure_eq_ok, addDim_eq_ok] at h
  obtain ⟨form, hform, _, ⟨-, rfl⟩, _, ⟨-, rfl⟩, ge, hge, above, habove, lt, hlt, below, hbelow,
    replaced, hreplaced, rfl⟩ := h
  have hgeProper : ge.form.Proper := by
    unfold Constraint.ge at hge
    rw [Attempt.bind_eq_ok] at hge
    obtain ⟨difference, hdifference, hge⟩ := hge
    exact Constraint.proper_normalize (Affine.proper_sub (Affine.proper_var _) hdifference) hge
  have hltProper : lt.form.Proper := by
    unfold Constraint.lt at hlt
    simp only [Attempt.bind_eq_ok] at hlt
    obtain ⟨difference, hdifference, shifted, hshifted, hlt⟩ := hlt
    exact Constraint.proper_normalize
      (Affine.proper_sub (Affine.proper_sub (Affine.proper_const _) hdifference) hshifted) hlt
  have haboveProper := proper_constrain habove hs hgeProper
  have hgone : ¬replaced.Mentions split.index :=
    not_mentions_substituteDim (proper_constrain hbelow haboveProper hltProper)
      (IndexSplit.coeff_form_of_ne hform houter hinner) hreplaced
  exact hgone

end Polyhedron

/-! ## Kernels -/

namespace Kernel

variable {k k' : Kernel} {iname n : String} {length : Int} {outerTag innerTag : Option IndexTag}

/-- Whether a name is in none of the places where a kernel lists indices: the dimensions and
constraints of the domain, the tags, the sets of indices of its instructions, and the binders of
reductions. -/
structure Drops (k : Kernel) (n : String) : Prop where
  dims : n ∉ k.domain.dims
  constraints : ¬k.domain.Mentions n
  tags : k.tags.contains n = false
  forced : ∀ insn ∈ k.instructions, n ∉ insn.forcedInames
  boosted : ∀ insn ∈ k.instructions, ∀ targets, insn.boostableInto = some targets → n ∉ targets
  bound : ∀ insn ∈ k.instructions, ∀ b ∈ insn.binders, b.name ≠ n

/-- A split drops the index from every list of indices. Expressions and assignees go on mentioning
it exactly where an array or a name with a tag is called like it, bound or not. -/
theorem splitIname_drops (hproper : ∀ c ∈ k.domain.constraints, c.form.Proper)
    (hk : k.splitIname iname length outerTag innerTag = .ok k') :
    let s := k.indexSplit iname length
    k'.Drops iname ∧ k'.instructions = k.instructions.map s.splitInsn ∧
      ∀ insn ∈ k.instructions,
        (iname ∈ (s.splitInsn insn).expression.dependencies ↔ iname ∈ insn.expression.fixedNames) ∧
        (iname ∈ (s.splitInsn insn).assignee.dependencies ↔ iname ∈ insn.assignee.fixedNames) := by
  intro s
  have htags := get?_tags_splitIname (n := iname) hk
  have hdims := mem_dims_splitIname (n := iname) hk
  obtain ⟨hiname, -, domain, hdomain, rfl⟩ := splitIname_spec hk
  obtain ⟨houter, hinner⟩ := ne_new_of_mem_names iname length (mem_names_of_mem_dims hiname)
  have hold : s.outer ≠ s.index ∧ s.inner ≠ s.index := ⟨houter.symm, hinner.symm⟩
  refine ⟨⟨?_, Polyhedron.not_mentions_splitDomain hproper hold.1 hold.2 hdomain, ?_,
    List.forall_mem_map.mpr fun insn _ => s.index_not_mem_splitNames hold.1 hold.2 _,
    List.forall_mem_map.mpr fun insn _ targets htargets => ?_,
    List.forall_mem_map.mpr fun insn _ b hb => ?_⟩, rfl,
    fun insn _ => ⟨s.index_mem_dependencies_splitExpr hold.1 hold.2 _,
      s.index_mem_dependencies_splitExpr hold.1 hold.2 _⟩⟩
  · rw [hdims]
    rintro (he | he | ⟨hne, -⟩)
    · exact houter he
    · exact hinner he
    · exact hne rfl
  · rw [← Bool.not_eq_true, SortedMap.contains_iff, htags, if_neg hinner, if_neg houter, if_pos rfl]
    simp
  · obtain ⟨old, -, rfl⟩ := Option.map_eq_some_iff.mp htargets
    exact s.index_not_mem_splitNames hold.1 hold.2 old
  · rw [IndexSplit.binders_splitInsn] at hb
    exact IndexSplit.ne_index_of_mem_splitBinders hold.1 hold.2 hb

/-- Weighted sums of rows, in which the index that is summed over is also written in a subscript. -/
def weightedRows : Kernel where
  name := "rows"
  domain := ⟨["i", "j"], [
    ⟨.inequality, ⟨.ofList [("i", 1)], 0⟩⟩,
    ⟨.inequality, ⟨.ofList [("i", -1)], 7⟩⟩,
    ⟨.inequality, ⟨.ofList [("j", 1)], 0⟩⟩,
    ⟨.inequality, ⟨.ofList [("j", -1)], 5⟩⟩]⟩
  instructions := [.assign "s" (.subscript "out" [.var "i"])
    (.reduction ⟨.sum, .int32⟩ [⟨"j", 0⟩]
      (.product [.var "j", .subscript "a" [.var "i", .var "j"]]))]
  args := [⟨"a", .int32, .global [.int 8, .int 6]⟩, ⟨"out", .int32, .global [.int 8]⟩]
  temporaries := ∅
  tags := .ofList [("i", .sequential), ("j", .sequential)]
  device := .fermi
  schedule := none

/-- Nothing mentions the index that is summed over once it is split. -/
theorem splitIname_drops_weightedRows :
    ∃ k', weightedRows.splitIname "j" 2 none none = .ok k' ∧ k'.Drops "j" ∧
      ∀ insn ∈ k'.instructions, ¬insn.Mentions "j" := by
  obtain ⟨k', hk⟩ := Attempt.exists_eq_ok (x := weightedRows.splitIname "j" 2 none none)
    (by decide +kernel)
  have hfixed : ∀ insn ∈ weightedRows.instructions,
      "j" ∉ insn.expression.fixedNames ∧ "j" ∉ insn.assignee.fixedNames := by decide
  obtain ⟨hdrops, hinstructions, hmentions⟩ := splitIname_drops (by decide) hk
  refine ⟨k', hk, hdrops, ?_⟩
  rw [hinstructions, List.forall_mem_map]
  rintro insn hinsn (hmention | hmention)
  · exact (hfixed insn hinsn).1 ((hmentions insn hinsn).1.mp hmention)
  · exact (hfixed insn hinsn).2 ((hmentions insn hinsn).2.mp hmention)

end Kernel

end LoopKernel
