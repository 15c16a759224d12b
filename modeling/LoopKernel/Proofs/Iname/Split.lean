import LoopKernel.Iname.Split
import LoopKernel.Proofs.Polyhedron.Dimensions
import LoopKernel.Proofs.WellFormed.Basic

/-!
# Split loop indices

Which names and dimensions there are after a split, and which points the split domain has: those at
which the inner index is in its range and the original domain holds with the value of the split
index.
-/

namespace LoopKernel

namespace IndexSplit

variable {s : IndexSplit} {p t : Polyhedron} {n : String}

/-! ## Names -/

/-- The names in a set after a split are the two new ones and old ones other than the index. -/
theorem of_mem_splitNames {names : NameSet} (h : n ∈ s.splitNames names) :
    n = s.outer ∨ n = s.inner ∨ n ≠ s.index ∧ n ∈ names := by
  unfold splitNames at h
  split at h
  · rw [NameSet.mem_addAll, NameSet.mem_remove] at h
    simpa [or_assoc] using h
  · next hnot =>
    refine .inr (.inr ⟨?_, h⟩)
    rintro rfl
    exact hnot h

/-- The binders after a split bind the two new indices or are old ones of other indices. -/
theorem of_mem_splitBinders {binders : List Binder} {b : Binder} (h : b ∈ s.splitBinders binders) :
    b.name = s.outer ∨ b.name = s.inner ∨ b.name ≠ s.index ∧ b ∈ binders := by
  obtain ⟨old, hold, hb⟩ := List.mem_flatMap.mp h
  split at hb
  · simp only [List.mem_cons, List.not_mem_nil, or_false] at hb
    exact hb.imp (congrArg Binder.name) fun he => .inl (congrArg Binder.name he)
  · next hne =>
    rw [List.mem_singleton] at hb
    exact .inr (.inr ⟨hb ▸ hne, hb ▸ hold⟩)

/-- Binders are split one list after the other. -/
theorem splitBinders_append (bs cs : List Binder) :
    s.splitBinders (bs ++ cs) = s.splitBinders bs ++ s.splitBinders cs := List.flatMap_append ..

mutual

/-- What the reductions of a split expression bind. -/
theorem binders_splitExpr : (e : Expr) → (s.splitExpr e).binders = s.splitBinders e.binders
  | .int _ | .float _ | .tagged _ _ => rfl
  | .var name => by
    rw [splitExpr]
    split <;> rfl
  | .subscript _ index => bindersOfAll_splitExprs index
  | .sum es | .product es => bindersOfAll_splitExprs es
  | .binary _ a b => by
    rw [splitExpr, Expr.binders, Expr.binders, binders_splitExpr a, binders_splitExpr b,
      splitBinders_append]
  | .call _ args => bindersOfAll_splitExprs args
  | .reduction _ binders body => by
    rw [splitExpr, Expr.binders, Expr.binders, binders_splitExpr body, splitBinders_append]

/-- What the reductions of several split expressions bind. -/
theorem bindersOfAll_splitExprs : (es : List Expr) →
    Expr.bindersOfAll (s.splitExprs es) = s.splitBinders (Expr.bindersOfAll es)
  | [] => rfl
  | e :: rest => by
    rw [splitExprs, Expr.bindersOfAll, Expr.bindersOfAll, binders_splitExpr e,
      bindersOfAll_splitExprs rest, splitBinders_append]

end

/-- What an instruction binds after a split. -/
theorem binders_splitInsn (insn : Instruction) :
    (s.splitInsn insn).binders = s.splitBinders insn.binders := by
  rw [Instruction.binders, splitInsn, binders_splitExpr, binders_splitExpr, Instruction.binders,
    splitBinders_append]

/-- A split instruction refers to the two new indices and to what the original one refers to other
than the index. -/
theorem scoped_splitInsn {dims dims' ids : List String} {insn : Instruction}
    (h : insn.Scoped dims ids)
    (hdims : ∀ n, n = s.outer ∨ n = s.inner ∨ n ≠ s.index ∧ n ∈ dims → n ∈ dims') :
    (s.splitInsn insn).Scoped dims' ids := by
  have hnames : ∀ names : NameSet, (∀ n ∈ names, n ∈ dims) →
      ∀ n ∈ s.splitNames names, n ∈ dims' := by
    intro names hold n hn
    apply hdims
    rcases of_mem_splitNames hn with he | he | ⟨hne, hmem⟩
    · exact .inl he
    · exact .inr (.inl he)
    · exact .inr (.inr ⟨hne, hold n hmem⟩)
  refine ⟨h.deps, hnames _ h.forced, fun targets htargets => ?_, fun b hb => hdims _ ?_⟩
  · obtain ⟨old, hold, rfl⟩ := Option.map_eq_some_iff.mp htargets
    exact hnames old (h.boosted old hold)
  · rw [binders_splitInsn] at hb
    rcases of_mem_splitBinders hb with he | he | ⟨hne, hmem⟩
    · exact .inl he
    · exact .inr (.inl he)
    · exact .inr (.inr ⟨hne, h.bound b hmem⟩)

/-! ## Domains -/

/-- The dimensions after a split. -/
def splitDims (s : IndexSplit) (dims : List String) : List String :=
  dims.flatMap fun d => if d = s.index then [s.outer, s.inner] else [d]

/-- After a split there are the two new dimensions and the old ones other than the index. -/
theorem mem_splitDims {dims : List String} (h : s.index ∈ dims) :
    n ∈ s.splitDims dims ↔ n = s.outer ∨ n = s.inner ∨ n ≠ s.index ∧ n ∈ dims := by
  rw [splitDims, List.mem_flatMap]
  grind

/-- Dimensions stay different when one of them is replaced by two new ones. -/
theorem nodup_splitDims {dims : List String} (h : dims.Nodup) (houter : s.outer ∉ dims)
    (hinner : s.inner ∉ dims) (hne : s.inner ≠ s.outer) : (s.splitDims dims).Nodup := by
  rw [splitDims, List.nodup_flatMap]
  refine ⟨fun d _ => ?_, h.pairwise_of_forall_ne fun d hd e he hde => ?_⟩
  · split <;> simp [Ne.symm hne]
  · change List.Disjoint (if d = s.index then _ else _) (if e = s.index then _ else _)
    rw [List.disjoint_left]
    grind

/-- An integer assignment with the value of the index that the two new ones stand for. -/
def join (s : IndexSplit) (x : String → Int) : String → Int :=
  Function.update x s.index (s.length * x s.outer + x s.inner)

/-- The form of the index has the value that the two new ones stand for. -/
theorem value_form {form : Affine} (h : s.form = .ok form) (x : String → Int) :
    form.value x = s.length * x s.outer + x s.inner := by
  rw [Affine.value_add x h, Affine.value_term, Affine.value_var]

/-- The split domain: its dimensions, and its points. -/
theorem splitDomain_spec (h : s.splitDomain p = .ok t) (hinner : s.inner ≠ s.index) :
    s.outer ∉ p.dims ∧ s.inner ∉ p.dims ∧ s.inner ≠ s.outer ∧
      t.dims = s.splitDims p.dims ∧
      ∀ x, t.Holds x ↔ p.Holds (s.join x) ∧ 0 ≤ x s.inner ∧ x s.inner < s.length := by
  unfold splitDomain at h
  simp only [Attempt.bind_eq_ok, Attempt.liftM_eq_ok, Attempt.pure_eq_ok,
    Polyhedron.addDim_eq_ok] at h
  obtain ⟨form, hform, _, ⟨houter, rfl⟩, _, ⟨hnew, rfl⟩, ge, hge, above, habove, lt, hlt, below,
    hbelow, replaced, hreplaced, rfl⟩ := h
  simp only [List.mem_append, List.mem_singleton, not_or] at hnew
  obtain ⟨-, -, hholds⟩ := Polyhedron.substituteDim_spec hreplaced
  refine ⟨houter, hnew.1, hnew.2, rfl, fun x => ?_⟩
  have hinside : ∀ y, below.Holds y ↔
      p.Holds y ∧ 0 ≤ y s.inner ∧ y s.inner < s.length := by
    intro y
    rw [Polyhedron.constrain_holds hbelow, Polyhedron.constrain_holds habove,
      Constraint.ge_holds hge, Constraint.lt_holds hlt, and_assoc, Affine.value_var,
      Affine.value_const, Affine.value_const]
    rfl
  have hjoin : Function.update x s.index (form.value x) = s.join x := by
    rw [join, value_form hform]
  change replaced.Holds x ↔ _
  rw [hholds, hjoin, hinside, join, Function.update_of_ne hinner]

end IndexSplit

namespace Kernel

variable {k k' : Kernel} {iname n : String} {length : Int} {outerTag innerTag : Option IndexTag}

/-- The split of an index into two fresh ones. -/
def indexSplit (k : Kernel) (iname : String) (length : Int) : IndexSplit :=
  let outer := k.freshVar (iname ++ "_outer") []
  ⟨iname, outer, k.freshVar (iname ++ "_inner") [outer], length⟩

/-- The two new indices are new to the kernel. -/
theorem outer_indexSplit_not_mem (k : Kernel) (iname : String) (length : Int) :
    (k.indexSplit iname length).outer ∉ k.names := (k.freshVar_not_mem _ _).1

theorem inner_indexSplit_not_mem (k : Kernel) (iname : String) (length : Int) :
    (k.indexSplit iname length).inner ∉ k.names := (k.freshVar_not_mem _ _).1

/-- The names of the kernel are none of the two new indices. -/
theorem ne_new_of_mem_names (iname : String) (length : Int) (hn : n ∈ k.names) :
    n ≠ (k.indexSplit iname length).outer ∧ n ≠ (k.indexSplit iname length).inner :=
  ⟨fun he => k.outer_indexSplit_not_mem iname length (he ▸ hn),
    fun he => k.inner_indexSplit_not_mem iname length (he ▸ hn)⟩

/-- The two new indices are different. -/
theorem outer_indexSplit_ne_inner (k : Kernel) (iname : String) (length : Int) :
    (k.indexSplit iname length).outer ≠ (k.indexSplit iname length).inner := fun he =>
  (k.freshVar_not_mem _ _).2 (List.mem_singleton.mpr he.symm)

/-- What a split needs and what it changes. -/
theorem splitIname_spec (hk : k.splitIname iname length outerTag innerTag = .ok k') :
    iname ∈ k.domain.dims ∧ 0 < length ∧ ∃ domain,
      (k.indexSplit iname length).splitDomain k.domain = .ok domain ∧
      k' = { k with
        domain := domain
        instructions := k.instructions.map (k.indexSplit iname length).splitInsn
        tags := ((k.tags.erase iname).insert (k.indexSplit iname length).outer
          (outerTag.getD .sequential)).insert (k.indexSplit iname length).inner
            (innerTag.getD .sequential) } := by
  unfold splitIname at hk
  split at hk
  · simp at hk
  · next hdim =>
    split at hk
    · simp at hk
    · next hlength =>
      simp only [Attempt.bind_eq_ok, Attempt.mapCause_eq_ok, Attempt.pure_eq_ok] at hk
      obtain ⟨domain, hdomain, rfl⟩ := hk
      rw [Bool.not_eq_true', Bool.not_eq_false, Polyhedron.hasDim_iff] at hdim
      exact ⟨hdim, by omega, domain, hdomain, rfl⟩

namespace WellFormed

/-- Splitting an index keeps a kernel well-formed. -/
theorem splitIname (h : k.WellFormed)
    (hk : k.splitIname iname length outerTag innerTag = .ok k') : k'.WellFormed := by
  obtain ⟨hiname, -, domain, hdomain, rfl⟩ := splitIname_spec hk
  have houter := k.outer_indexSplit_not_mem iname length
  have hinner := k.inner_indexSplit_not_mem iname length
  have hindex : (k.indexSplit iname length).index = iname := rfl
  generalize k.indexSplit iname length = s at *
  subst hindex
  obtain ⟨houterDims, hinnerDims, hne, hdims, -⟩ := IndexSplit.splitDomain_spec hdomain
    fun he => hinner (mem_names_of_mem_dims (he ▸ hiname))
  have hmem : ∀ n, n ∈ domain.dims ↔
      n = s.outer ∨ n = s.inner ∨ n ≠ s.index ∧ n ∈ k.domain.dims :=
    fun n => hdims ▸ IndexSplit.mem_splitDims hiname
  refine ⟨h.names_of_dims ?_ fun n hn => ?_, h.temporaries, fun n => ?_, ?_, fun insn hinsn => ?_⟩
  · exact hdims ▸ IndexSplit.nodup_splitDims h.nodup_dims houterDims hinnerDims hne
  · rcases (hmem n).mp hn with rfl | rfl | ⟨-, hold⟩
    · exact .inr houter
    · exact .inr hinner
    · exact .inl hold
  · simp only [SortedMap.contains_insert, SortedMap.contains_erase, Bool.or_eq_true, beq_iff_eq,
      Bool.and_eq_true, bne_iff_ne, h.tags, hmem]
    exact or_left_comm
  · rw [insnIds, List.map_map]
    exact h.ids
  · obtain ⟨before, hbefore, rfl⟩ := List.mem_map.mp hinsn
    rw [insnIds, List.map_map]
    exact IndexSplit.scoped_splitInsn (h.instructions before hbefore) fun n => (hmem n).mpr

end WellFormed

end Kernel

end LoopKernel
