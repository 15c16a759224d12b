import LoopKernel.Proofs.Iname.Split

/-!
# Names after a split

A split replaces the variable of the index by the two new ones. Names of arrays and names with a tag
stay, so an expression goes on mentioning the index exactly where such a name mentions it freely.
-/

namespace LoopKernel

namespace Expr

mutual

/-- The names that no substitution replaces: those of subscripted arrays and those with a tag. -/
def fixedNames : Expr → List String
  | .int _ | .float _ | .var _ => []
  | .tagged name _ => [name]
  | .subscript aggregate index => aggregate :: fixedNamesOfAll index
  | .sum es | .product es => fixedNamesOfAll es
  | .binary _ a b => a.fixedNames ++ b.fixedNames
  | .call _ args => fixedNamesOfAll args
  | .reduction _ _ body => body.fixedNames

/-- The names of several expressions that no substitution replaces. -/
def fixedNamesOfAll : List Expr → List String
  | [] => []
  | e :: rest => e.fixedNames ++ fixedNamesOfAll rest

end

mutual

/-- The names of variables, bound ones included. -/
def variableNames : Expr → List String
  | .int _ | .float _ | .tagged _ _ => []
  | .var name => [name]
  | .subscript _ index => variableNamesOfAll index
  | .sum es | .product es => variableNamesOfAll es
  | .binary _ a b => a.variableNames ++ b.variableNames
  | .call _ args => variableNamesOfAll args
  | .reduction _ _ body => body.variableNames

/-- The names of the variables of several expressions. -/
def variableNamesOfAll : List Expr → List String
  | [] => []
  | e :: rest => e.variableNames ++ variableNamesOfAll rest

end

variable {n : String}

mutual

/-- An expression without reductions mentions the names of its variables and those that no
substitution replaces. -/
theorem mem_dependencies_iff : (e : Expr) → e.containsReduction = false →
    (n ∈ e.dependencies ↔ n ∈ e.variableNames ∨ n ∈ e.fixedNames)
  | .int _, _ | .float _, _ => by
    simp [dependencies, variableNames, fixedNames]
  | .var _, _ | .tagged _ _, _ => by
    simp [dependencies, variableNames, fixedNames]
  | .subscript _ index, h => by
    rw [dependencies, variableNames, fixedNames, NameSet.mem_add, List.mem_cons,
      mem_dependenciesOfAll_iff index h]
    exact or_left_comm
  | .sum es, h | .product es, h => mem_dependenciesOfAll_iff es h
  | .binary _ a b, h => by
    rw [containsReduction, Bool.or_eq_false_iff] at h
    rw [dependencies, variableNames, fixedNames, NameSet.mem_union, List.mem_append,
      List.mem_append, mem_dependencies_iff a h.1, mem_dependencies_iff b h.2]
    exact or_or_or_comm
  | .call _ args, h => mem_dependenciesOfAll_iff args h

/-- What several expressions without reductions mention. -/
theorem mem_dependenciesOfAll_iff : (es : List Expr) → anyContainsReduction es = false →
    (n ∈ dependenciesOfAll es ↔ n ∈ variableNamesOfAll es ∨ n ∈ fixedNamesOfAll es)
  | [], _ => by simp [dependenciesOfAll, variableNamesOfAll, fixedNamesOfAll]
  | e :: rest, h => by
    rw [anyContainsReduction, Bool.or_eq_false_iff] at h
    rw [dependenciesOfAll, variableNamesOfAll, fixedNamesOfAll, NameSet.mem_union, List.mem_append,
      List.mem_append, mem_dependencies_iff e h.1, mem_dependenciesOfAll_iff rest h.2]
    exact or_or_or_comm

end

end Expr

namespace IndexSplit

variable {s : IndexSplit} {n : String}

/-- Binders of other names than those of a split are as before it. -/
theorem mem_map_splitBinders_of_ne {binders : List Binder} (hindex : n ≠ s.index)
    (houter : n ≠ s.outer) (hinner : n ≠ s.inner) :
    n ∈ (s.splitBinders binders).map Binder.name ↔ n ∈ binders.map Binder.name := by
  rw [splitBinders, List.mem_map, List.mem_map]
  simp only [List.mem_flatMap]
  grind

/-- The two new indices are bound where the index was. -/
theorem mem_map_splitBinders {binders : List Binder} (h : s.index ∈ binders.map Binder.name) :
    s.outer ∈ (s.splitBinders binders).map Binder.name ∧
      s.inner ∈ (s.splitBinders binders).map Binder.name := by
  obtain ⟨b, hb, hname⟩ := List.mem_map.mp h
  rw [splitBinders, List.mem_map, List.mem_map]
  simp only [List.mem_flatMap]
  exact ⟨⟨_, ⟨b, hb, by rw [if_pos hname]; exact List.mem_cons_self⟩, rfl⟩,
    ⟨_, ⟨b, hb, by rw [if_pos hname]; exact List.mem_cons_of_mem _ List.mem_cons_self⟩, rfl⟩⟩

/-! ## Expressions -/

mutual

/-- What a split expression mentions: other names that the original one mentions, the index in
places where it is not replaced, and the new indices where the original one mentions the index. -/
theorem of_mem_dependencies_splitExpr : (e : Expr) → n ∈ (s.splitExpr e).dependencies →
    n ≠ s.index ∧ n ∈ e.dependencies ∨ n = s.index ∧ s.index ∈ e.fixedNames ∨
      (n = s.outer ∨ n = s.inner) ∧ s.index ∈ e.dependencies
  | .int _, h | .float _, h => absurd h (NameSet.not_mem_empty n)
  | .var name, h => by
    rw [splitExpr] at h
    split at h
    · next hname =>
      simp only [value, Expr.add, Expr.mul, Expr.dependencies, Expr.dependenciesOfAll,
        NameSet.mem_union, NameSet.mem_ofList, List.mem_singleton, NameSet.not_mem_empty,
        false_or, or_false] at h
      exact .inr (.inr ⟨h, by simp [Expr.dependencies, hname]⟩)
    · next hname =>
      have hn : n = name := by simpa [Expr.dependencies] using h
      exact .inl ⟨hn ▸ hname, h⟩
  | .tagged name _, h => by
    have hn : n = name := by simpa [splitExpr, Expr.dependencies] using h
    by_cases hindex : n = s.index
    · exact .inr (.inl ⟨hindex, by simp [Expr.fixedNames, ← hn, hindex]⟩)
    · exact .inl ⟨hindex, h⟩
  | .subscript aggregate index, h => by
    rw [splitExpr, Expr.dependencies, NameSet.mem_add] at h
    rw [Expr.dependencies, NameSet.mem_add, NameSet.mem_add, Expr.fixedNames, List.mem_cons]
    rcases h with rfl | h
    · by_cases hindex : n = s.index
      · exact .inr (.inl ⟨hindex, .inl hindex.symm⟩)
      · exact .inl ⟨hindex, .inl rfl⟩
    · rcases of_mem_dependenciesOfAll_splitExprs index h with ⟨hne, hn⟩ | ⟨he, hfixed⟩ | ⟨hnew, hn⟩
      · exact .inl ⟨hne, .inr hn⟩
      · exact .inr (.inl ⟨he, .inr hfixed⟩)
      · exact .inr (.inr ⟨hnew, .inr hn⟩)
  | .sum es, h | .product es, h => of_mem_dependenciesOfAll_splitExprs es h
  | .binary _ a b, h => by
    rw [splitExpr, Expr.dependencies, NameSet.mem_union] at h
    rw [Expr.dependencies, NameSet.mem_union, NameSet.mem_union, Expr.fixedNames, List.mem_append]
    rcases h with h | h
    · have ha := of_mem_dependencies_splitExpr a h
      tauto
    · have hb := of_mem_dependencies_splitExpr b h
      tauto
  | .call _ args, h => of_mem_dependenciesOfAll_splitExprs args h
  | .reduction _ binders body, h => by
    rw [splitExpr, Expr.dependencies, NameSet.mem_diff, NameSet.mem_ofList] at h
    rw [Expr.dependencies, NameSet.mem_diff, NameSet.mem_diff, NameSet.mem_ofList,
      NameSet.mem_ofList, Expr.fixedNames]
    obtain ⟨hbody, hfree⟩ := h
    rcases of_mem_dependencies_splitExpr body hbody with ⟨hne, hn⟩ | hfixed | ⟨hnew, hn⟩
    · refine .inl ⟨hne, hn, fun hbound => hfree ?_⟩
      -- A bound name other than the index stays bound.
      obtain ⟨b, hb, rfl⟩ := List.mem_map.mp hbound
      exact List.mem_map.mpr ⟨b, List.mem_flatMap.mpr ⟨b, hb, by simp [hne]⟩, rfl⟩
    · exact .inr (.inl hfixed)
    · refine .inr (.inr ⟨hnew, hn, fun hbound => hfree ?_⟩)
      obtain ⟨houter, hinner⟩ := mem_map_splitBinders hbound
      rcases hnew with rfl | rfl
      · exact houter
      · exact hinner

/-- What several split expressions mention. -/
theorem of_mem_dependenciesOfAll_splitExprs : (es : List Expr) →
    n ∈ Expr.dependenciesOfAll (s.splitExprs es) →
    n ≠ s.index ∧ n ∈ Expr.dependenciesOfAll es ∨
      n = s.index ∧ s.index ∈ Expr.fixedNamesOfAll es ∨
      (n = s.outer ∨ n = s.inner) ∧ s.index ∈ Expr.dependenciesOfAll es
  | [], h => absurd h (NameSet.not_mem_empty n)
  | e :: rest, h => by
    rw [splitExprs, Expr.dependenciesOfAll, NameSet.mem_union] at h
    rw [Expr.dependenciesOfAll, NameSet.mem_union, NameSet.mem_union, Expr.fixedNamesOfAll,
      List.mem_append]
    rcases h with h | h
    · have he := of_mem_dependencies_splitExpr e h
      tauto
    · have hrest := of_mem_dependenciesOfAll_splitExprs rest h
      tauto

end

mutual

/-- A split expression mentions other names than the index and the new ones as before. -/
theorem mem_dependencies_splitExpr_of_ne (hindex : n ≠ s.index) (houter : n ≠ s.outer)
    (hinner : n ≠ s.inner) : (e : Expr) →
    (n ∈ (s.splitExpr e).dependencies ↔ n ∈ e.dependencies)
  | .int _ | .float _ | .tagged _ _ => Iff.rfl
  | .var name => by
    rw [splitExpr]
    split
    · next hname =>
      simp [value, Expr.add, Expr.mul, Expr.dependencies, Expr.dependenciesOfAll, hname, hindex,
        houter, hinner]
    · rfl
  | .subscript aggregate index => by
    rw [splitExpr, Expr.dependencies, Expr.dependencies, NameSet.mem_add, NameSet.mem_add,
      mem_dependenciesOfAll_splitExprs_of_ne hindex houter hinner index]
  | .sum es | .product es => mem_dependenciesOfAll_splitExprs_of_ne hindex houter hinner es
  | .binary _ a b => by
    rw [splitExpr, Expr.dependencies, Expr.dependencies, NameSet.mem_union, NameSet.mem_union,
      mem_dependencies_splitExpr_of_ne hindex houter hinner a,
      mem_dependencies_splitExpr_of_ne hindex houter hinner b]
  | .call _ args => mem_dependenciesOfAll_splitExprs_of_ne hindex houter hinner args
  | .reduction _ binders body => by
    rw [splitExpr, Expr.dependencies, Expr.dependencies, NameSet.mem_diff, NameSet.mem_diff,
      NameSet.mem_ofList, NameSet.mem_ofList, mem_map_splitBinders_of_ne hindex houter hinner,
      mem_dependencies_splitExpr_of_ne hindex houter hinner body]

/-- Several split expressions mention other names than the index and the new ones as before. -/
theorem mem_dependenciesOfAll_splitExprs_of_ne (hindex : n ≠ s.index) (houter : n ≠ s.outer)
    (hinner : n ≠ s.inner) : (es : List Expr) →
    (n ∈ Expr.dependenciesOfAll (s.splitExprs es) ↔ n ∈ Expr.dependenciesOfAll es)
  | [] => Iff.rfl
  | e :: rest => by
    rw [splitExprs, Expr.dependenciesOfAll, Expr.dependenciesOfAll, NameSet.mem_union,
      NameSet.mem_union, mem_dependencies_splitExpr_of_ne hindex houter hinner e,
      mem_dependenciesOfAll_splitExprs_of_ne hindex houter hinner rest]

end

mutual

/-- A split expression has the names that are not replaced from the original one. -/
theorem fixedNames_splitExpr : (e : Expr) → (s.splitExpr e).fixedNames = e.fixedNames
  | .int _ | .float _ | .tagged _ _ => rfl
  | .var name => by
    rw [splitExpr]
    split <;> rfl
  | .subscript aggregate index => congrArg (aggregate :: ·) (fixedNamesOfAll_splitExprs index)
  | .sum es | .product es => fixedNamesOfAll_splitExprs es
  | .binary _ a b => congrArg₂ (· ++ ·) (fixedNames_splitExpr a) (fixedNames_splitExpr b)
  | .call _ args => fixedNamesOfAll_splitExprs args
  | .reduction _ _ body => fixedNames_splitExpr body

/-- Several split expressions have the names that are not replaced from the original ones. -/
theorem fixedNamesOfAll_splitExprs : (es : List Expr) →
    Expr.fixedNamesOfAll (s.splitExprs es) = Expr.fixedNamesOfAll es
  | [] => rfl
  | e :: rest => congrArg₂ (· ++ ·) (fixedNames_splitExpr e) (fixedNamesOfAll_splitExprs rest)

end

mutual

/-- A split replaces the variable of the index by those of the two new ones. -/
theorem mem_variableNames_splitExpr : (e : Expr) → (n ∈ (s.splitExpr e).variableNames ↔
    n ≠ s.index ∧ n ∈ e.variableNames ∨ (n = s.outer ∨ n = s.inner) ∧ s.index ∈ e.variableNames)
  | .int _ | .float _ | .tagged _ _ => by
    simp [splitExpr, Expr.variableNames]
  | .var name => by
    rw [splitExpr]
    split
    · next hname =>
      simp only [value, Expr.add, Expr.mul, Expr.variableNames, Expr.variableNamesOfAll, hname,
        List.append_nil, List.nil_append, List.mem_append, List.mem_singleton, not_and_self,
        false_or, and_true]
    · next hname =>
      simp only [Expr.variableNames, List.mem_singleton, Ne.symm hname, and_false, or_false]
      exact ⟨fun hn => ⟨hn ▸ hname, hn⟩, And.right⟩
  | .subscript _ index => mem_variableNamesOfAll_splitExprs index
  | .sum es | .product es => mem_variableNamesOfAll_splitExprs es
  | .binary _ a b => by
    rw [splitExpr, Expr.variableNames, Expr.variableNames, List.mem_append, List.mem_append,
      List.mem_append, mem_variableNames_splitExpr a, mem_variableNames_splitExpr b]
    tauto
  | .call _ args => mem_variableNamesOfAll_splitExprs args
  | .reduction _ _ body => mem_variableNames_splitExpr body

/-- What a split does to the variables of several expressions. -/
theorem mem_variableNamesOfAll_splitExprs : (es : List Expr) →
    (n ∈ Expr.variableNamesOfAll (s.splitExprs es) ↔ n ≠ s.index ∧ n ∈ Expr.variableNamesOfAll es ∨
      (n = s.outer ∨ n = s.inner) ∧ s.index ∈ Expr.variableNamesOfAll es)
  | [] => by simp [splitExprs, Expr.variableNamesOfAll]
  | e :: rest => by
    rw [splitExprs, Expr.variableNamesOfAll, Expr.variableNamesOfAll, List.mem_append,
      List.mem_append, List.mem_append, mem_variableNames_splitExpr e,
      mem_variableNamesOfAll_splitExprs rest]
    tauto

end

mutual

/-- A split expression contains a reduction where the original one does. -/
theorem containsReduction_splitExpr : (e : Expr) →
    (s.splitExpr e).containsReduction = e.containsReduction
  | .int _ | .float _ | .tagged _ _ | .reduction _ _ _ => rfl
  | .var name => by
    rw [splitExpr]
    split <;> rfl
  | .subscript _ index => anyContainsReduction_splitExprs index
  | .sum es | .product es => anyContainsReduction_splitExprs es
  | .binary _ a b =>
    congrArg₂ (· || ·) (containsReduction_splitExpr a) (containsReduction_splitExpr b)
  | .call _ args => anyContainsReduction_splitExprs args

/-- Several split expressions contain a reduction where the original ones do. -/
theorem anyContainsReduction_splitExprs : (es : List Expr) →
    Expr.anyContainsReduction (s.splitExprs es) = Expr.anyContainsReduction es
  | [] => rfl
  | e :: rest =>
    congrArg₂ (· || ·) (containsReduction_splitExpr e) (anyContainsReduction_splitExprs rest)

end

end IndexSplit

/-! ## Instructions -/

namespace Instruction

/-- The names in an instruction that no substitution replaces. -/
def fixedNames (insn : Instruction) : List String :=
  insn.expression.fixedNames ++ insn.assignee.fixedNames

/-- Whether the expression or the assignee mentions a name freely. -/
def Mentions (insn : Instruction) (n : String) : Prop :=
  n ∈ insn.expression.dependencies ∨ n ∈ insn.assignee.dependencies

end Instruction

namespace IndexSplit

variable {s : IndexSplit} {insn : Instruction} {n : String}

/-- A split instruction has the names that are not replaced from the original one. -/
theorem fixedNames_splitInsn (s : IndexSplit) (insn : Instruction) :
    (s.splitInsn insn).fixedNames = insn.fixedNames :=
  congrArg₂ (· ++ ·) (fixedNames_splitExpr insn.expression) (fixedNames_splitExpr insn.assignee)

/-- What a split instruction mentions. -/
theorem of_mentions_splitInsn (h : (s.splitInsn insn).Mentions n) :
    n ≠ s.index ∧ insn.Mentions n ∨ n = s.index ∧ s.index ∈ insn.fixedNames ∨
      (n = s.outer ∨ n = s.inner) ∧ insn.Mentions s.index := by
  rw [Instruction.fixedNames, List.mem_append]
  unfold Instruction.Mentions at h ⊢
  rcases h with h | h
  · have hexpression := of_mem_dependencies_splitExpr insn.expression h
    tauto
  · have hassignee := of_mem_dependencies_splitExpr insn.assignee h
    tauto

/-- A split instruction mentions other names than the index and the new ones as before. -/
theorem mentions_splitInsn_of_ne (hindex : n ≠ s.index) (houter : n ≠ s.outer)
    (hinner : n ≠ s.inner) : (s.splitInsn insn).Mentions n ↔ insn.Mentions n :=
  or_congr (mem_dependencies_splitExpr_of_ne hindex houter hinner insn.expression)
    (mem_dependencies_splitExpr_of_ne hindex houter hinner insn.assignee)

/-- A set contains other names than the index and the new ones as before. -/
theorem mem_splitNames_of_ne {names : NameSet} (hindex : n ≠ s.index) (houter : n ≠ s.outer)
    (hinner : n ≠ s.inner) : n ∈ s.splitNames names ↔ n ∈ names := by
  unfold splitNames
  split
  · simp [NameSet.mem_addAll, NameSet.mem_remove, hindex, houter, hinner]
  · rfl

/-- A set gets new names only where it contained the index. -/
theorem mem_or_mem_of_mem_splitNames {names : NameSet} (h : n ∈ s.splitNames names) :
    n ∈ names ∨ s.index ∈ names := by
  unfold splitNames at h
  split at h
  · next hindex => exact .inr hindex
  · exact .inl h

end IndexSplit

/-! ## Kernels -/

namespace Polyhedron

variable {s : IndexSplit} {p t : Polyhedron} {n : String}

/-- The split domain keeps the variables other than the index and the new ones. -/
theorem Mentions.splitDomain (h : p.Mentions n) (hsplit : s.splitDomain p = .ok t)
    (hindex : n ≠ s.index) (houter : n ≠ s.outer) (hinner : n ≠ s.inner) : t.Mentions n := by
  unfold IndexSplit.splitDomain at hsplit
  simp only [Attempt.bind_eq_ok, Attempt.liftM_eq_ok, Attempt.pure_eq_ok, addDim_eq_ok] at hsplit
  obtain ⟨form, hform, _, ⟨-, rfl⟩, _, ⟨-, rfl⟩, _, -, above, habove, _, -, below, hbelow, replaced,
    hreplaced, rfl⟩ := hsplit
  have hvars : n ∉ form.vars := by
    intro hn
    rcases (Affine.mem_vars_add hform).1 hn with hn | hn
    · exact houter (Affine.of_mem_vars_term hn)
    · exact hinner (Affine.of_mem_vars_term hn)
  have hbelow : below.Mentions n :=
    mentions_constrain hbelow (.inl (mentions_constrain habove (.inl h)))
  have hreplaced : replaced.Mentions n := mentions_substituteDim hreplaced hbelow hindex hvars
  exact hreplaced

end Polyhedron

namespace Kernel

variable {k k' : Kernel} {insn : Instruction} {iname n : String} {length : Int}
  {outerTag innerTag : Option IndexTag}

/-- The indices of an instruction are those forced on it and the dimensions that it mentions. -/
theorem mem_insnInames : n ∈ k.insnInames insn ↔
    n ∈ insn.forcedInames ∨ insn.Mentions n ∧ n ∈ k.domain.dims := by
  rw [insnInames, NameSet.mem_union, NameSet.mem_select, NameSet.mem_union, Polyhedron.hasDim_iff,
    Instruction.Mentions]

/-- The variables of the domain are its dimensions and parameters. -/
theorem mem_params : n ∈ k.domain.params ↔ k.domain.Mentions n ∧ n ∉ k.domain.dims := by
  rw [Polyhedron.params, NameSet.mem_ofList, List.mem_filter, List.mem_flatMap, Bool.not_eq_true',
    ← Bool.not_eq_true, Polyhedron.hasDim_iff, Polyhedron.Mentions]

section Split

variable (hk : k.splitIname iname length outerTag innerTag = .ok k')

include hk

/-- The dimensions after a split. -/
theorem mem_dims_splitIname : n ∈ k'.domain.dims ↔ n = (k.indexSplit iname length).outer ∨
    n = (k.indexSplit iname length).inner ∨ n ≠ iname ∧ n ∈ k.domain.dims := by
  obtain ⟨hiname, -, domain, hdomain, rfl⟩ := splitIname_spec hk
  obtain ⟨-, -, -, hdims, -⟩ := IndexSplit.splitDomain_spec hdomain fun he =>
    k.inner_indexSplit_not_mem iname length (mem_names_of_mem_dims (he ▸ hiname))
  exact hdims ▸ IndexSplit.mem_splitDims hiname

/-- A split keeps all names other than the index. -/
theorem mem_names_splitIname (hn : n ∈ k.names) (hne : n ≠ iname) : n ∈ k'.names := by
  have hdims := mem_dims_splitIname (n := n) hk
  obtain ⟨-, -, domain, hdomain, rfl⟩ := splitIname_spec hk
  obtain ⟨houter, hinner⟩ := ne_new_of_mem_names iname length hn
  rw [mem_names, mem_params] at hn ⊢
  rcases hn with harg | htemporary | hdim | ⟨hmentions, hdim⟩
  · exact .inl harg
  · exact .inr (.inl htemporary)
  · exact .inr (.inr (.inl (hdims.mpr (.inr (.inr ⟨hne, hdim⟩)))))
  · refine .inr (.inr (.inr ⟨hmentions.splitDomain hdomain hne houter hinner, ?_⟩))
    rw [hdims]
    tauto

/-- The tags after a split. -/
theorem get?_tags_splitIname : k'.tags.get? n =
    if n = (k.indexSplit iname length).inner then some (innerTag.getD .sequential)
    else if n = (k.indexSplit iname length).outer then some (outerTag.getD .sequential)
    else if n = iname then none
    else k.tags.get? n := by
  obtain ⟨-, -, domain, -, rfl⟩ := splitIname_spec hk
  simp only [SortedMap.get?_insert, SortedMap.get?_erase]

theorem tag_splitIname : k'.tag n =
    if n = (k.indexSplit iname length).inner then innerTag.getD .sequential
    else if n = (k.indexSplit iname length).outer then outerTag.getD .sequential
    else if n = iname then .sequential
    else k.tag n := by
  unfold tag SortedMap.getD
  rw [get?_tags_splitIname hk]
  split_ifs <;> rfl

/-- A split instruction runs over other indices than the new ones as before. -/
theorem mem_insnInames_splitIname_of_ne (hindex : n ≠ iname)
    (houter : n ≠ (k.indexSplit iname length).outer)
    (hinner : n ≠ (k.indexSplit iname length).inner) :
    n ∈ k'.insnInames ((k.indexSplit iname length).splitInsn insn) ↔ n ∈ k.insnInames insn := by
  have hdims : n ∈ k'.domain.dims ↔ n ∈ k.domain.dims := by
    rw [mem_dims_splitIname hk]
    tauto
  rw [mem_insnInames, mem_insnInames, IndexSplit.mentions_splitInsn_of_ne hindex houter hinner,
    hdims]
  exact or_congr_left (IndexSplit.mem_splitNames_of_ne hindex houter hinner)

/-- A split instruction that did not mention a new index runs over it only where it ran over the
index. -/
theorem of_new_mem_insnInames_splitIname {ids : List String} (hinsn : insn.Scoped k.domain.dims ids)
    (hnew : n = (k.indexSplit iname length).outer ∨ n = (k.indexSplit iname length).inner)
    (hmentions : ¬insn.Mentions n)
    (h : n ∈ k'.insnInames ((k.indexSplit iname length).splitInsn insn)) :
    iname ∈ k.insnInames insn := by
  obtain ⟨hiname, -⟩ := splitIname_spec hk
  have hnot : n ∉ k.names := by
    rcases hnew with rfl | rfl
    · exact k.outer_indexSplit_not_mem iname length
    · exact k.inner_indexSplit_not_mem iname length
  rw [mem_insnInames] at h ⊢
  rcases h with hforced | ⟨hmention, -⟩
  · rcases IndexSplit.mem_or_mem_of_mem_splitNames hforced with hold | hindex
    · exact absurd (mem_names_of_mem_dims (hinsn.forced n hold)) hnot
    · exact .inl hindex
  · rcases IndexSplit.of_mentions_splitInsn hmention with ⟨-, hold⟩ | ⟨hindex, -⟩ | ⟨-, hindex⟩
    · exact absurd hold hmentions
    · exact absurd (mem_names_of_mem_dims (hindex ▸ hiname)) hnot
    · exact .inr ⟨hindex, hiname⟩

end Split

end Kernel

end LoopKernel
