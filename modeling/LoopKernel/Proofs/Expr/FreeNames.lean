import LoopKernel.Proofs.Iname.Mentions

/-!
# Free names of two sorts

The free names of an expression are those of its variables, which a substitution replaces, and those
of subscripted arrays and of names with a tag, which no substitution replaces. Renaming variables
changes the former alone.
-/

namespace LoopKernel.Expr

mutual

/-- The names of variables that no reduction binds. -/
def freeVariables : Expr → NameSet
  | .int _ | .float _ | .tagged _ _ => ∅
  | .var name => NameSet.ofList [name]
  | .subscript _ index => freeVariablesOfAll index
  | .sum es | .product es => freeVariablesOfAll es
  | .binary _ a b => a.freeVariables.union b.freeVariables
  | .call _ args => freeVariablesOfAll args
  | .reduction _ binders body =>
    body.freeVariables.diff (NameSet.ofList (binders.map Binder.name))

/-- The names of variables in several expressions that no reduction binds. -/
def freeVariablesOfAll : List Expr → NameSet
  | [] => ∅
  | e :: rest => e.freeVariables.union (freeVariablesOfAll rest)

end

mutual

/-- The names of arrays and those with a tag, without the ones that a binder of a given kind
binds. -/
def unboundFixed (binds : Binder → Bool) : Expr → NameSet
  | .int _ | .float _ | .var _ => ∅
  | .tagged name _ => NameSet.ofList [name]
  | .subscript aggregate index => (unboundFixedOfAll binds index).add aggregate
  | .sum es | .product es => unboundFixedOfAll binds es
  | .binary _ a b => (a.unboundFixed binds).union (b.unboundFixed binds)
  | .call _ args => unboundFixedOfAll binds args
  | .reduction _ binders body =>
    (body.unboundFixed binds).diff (NameSet.ofList ((binders.filter binds).map Binder.name))

/-- The names of arrays and those with a tag in several expressions, without the ones that a binder
of a given kind binds. -/
def unboundFixedOfAll (binds : Binder → Bool) : List Expr → NameSet
  | [] => ∅
  | e :: rest => (e.unboundFixed binds).union (unboundFixedOfAll binds rest)

end

variable {n : String}

mutual

/-- A free name is that of a variable or one that no substitution replaces. -/
theorem mem_dependencies_iff_free : (e : Expr) →
    (n ∈ e.dependencies ↔ n ∈ e.freeVariables ∨ n ∈ e.unboundFixed fun _ => true)
  | .int _ | .float _ | .var _ | .tagged _ _ => by
    simp [dependencies, freeVariables, unboundFixed]
  | .subscript _ index => by
    simp only [dependencies, freeVariables, unboundFixed, NameSet.mem_add,
      mem_dependenciesOfAll_iff_free index]
    exact or_left_comm
  | .sum es | .product es => mem_dependenciesOfAll_iff_free es
  | .binary _ a b => by
    simp only [dependencies, freeVariables, unboundFixed, NameSet.mem_union,
      mem_dependencies_iff_free a, mem_dependencies_iff_free b]
    exact or_or_or_comm
  | .call _ args => mem_dependenciesOfAll_iff_free args
  | .reduction _ binders body => by
    have hall : (binders.filter fun _ => true) = binders :=
      List.filter_eq_self.mpr fun _ _ => rfl
    simp only [dependencies, freeVariables, unboundFixed, NameSet.mem_diff,
      mem_dependencies_iff_free body, hall]
    exact or_and_right

/-- The free names of several expressions are of the same two sorts. -/
theorem mem_dependenciesOfAll_iff_free : (es : List Expr) →
    (n ∈ dependenciesOfAll es ↔
      n ∈ freeVariablesOfAll es ∨ n ∈ unboundFixedOfAll (fun _ => true) es)
  | [] => by simp [dependenciesOfAll, freeVariablesOfAll, unboundFixedOfAll]
  | e :: rest => by
    simp only [dependenciesOfAll, freeVariablesOfAll, unboundFixedOfAll, NameSet.mem_union,
      mem_dependencies_iff_free e, mem_dependenciesOfAll_iff_free rest]
    exact or_or_or_comm

end

mutual

/-- Fewer binders leave more names unbound. -/
theorem mem_unboundFixed_mono {binds binds' : Binder → Bool}
    (h : ∀ b, binds b = true → binds' b = true) :
    (e : Expr) → n ∈ e.unboundFixed binds' → n ∈ e.unboundFixed binds
  | .int _, hn | .float _, hn | .var _, hn | .tagged _ _, hn => hn
  | .subscript _ index, hn => by
    rw [unboundFixed, NameSet.mem_add] at hn ⊢
    exact hn.imp_right (mem_unboundFixedOfAll_mono h index)
  | .sum es, hn | .product es, hn => mem_unboundFixedOfAll_mono h es hn
  | .binary _ a b, hn => by
    rw [unboundFixed, NameSet.mem_union] at hn ⊢
    exact hn.imp (mem_unboundFixed_mono h a) (mem_unboundFixed_mono h b)
  | .call _ args, hn => mem_unboundFixedOfAll_mono h args hn
  | .reduction _ binders body, hn => by
    rw [unboundFixed, NameSet.mem_diff, NameSet.mem_ofList, List.mem_map] at hn ⊢
    refine ⟨mem_unboundFixed_mono h body hn.1, ?_⟩
    rintro ⟨b, hb, hname⟩
    obtain ⟨hmem, hbinds⟩ := List.mem_filter.mp hb
    exact hn.2 ⟨b, List.mem_filter.mpr ⟨hmem, h b hbinds⟩, hname⟩

/-- Fewer binders leave more names of several expressions unbound. -/
theorem mem_unboundFixedOfAll_mono {binds binds' : Binder → Bool}
    (h : ∀ b, binds b = true → binds' b = true) :
    (es : List Expr) → n ∈ unboundFixedOfAll binds' es → n ∈ unboundFixedOfAll binds es
  | [], hn => hn
  | e :: rest, hn => by
    rw [unboundFixedOfAll, NameSet.mem_union] at hn ⊢
    exact hn.imp (mem_unboundFixed_mono h e) (mem_unboundFixedOfAll_mono h rest)

end

mutual

/-- What is left unbound is a name that no substitution replaces. -/
theorem mem_fixedNames_of_mem_unboundFixed {binds : Binder → Bool} : (e : Expr) →
    n ∈ e.unboundFixed binds → n ∈ e.fixedNames
  | .int _, h | .float _, h | .var _, h => absurd h (NameSet.not_mem_empty n)
  | .tagged _ _, h => NameSet.mem_ofList.mp h
  | .subscript _ index, h => by
    rw [unboundFixed, NameSet.mem_add] at h
    rw [fixedNames, List.mem_cons]
    exact h.imp_right (mem_fixedNamesOfAll_of_mem_unboundFixed index)
  | .sum es, h | .product es, h => mem_fixedNamesOfAll_of_mem_unboundFixed es h
  | .binary _ a b, h => by
    rw [unboundFixed, NameSet.mem_union] at h
    rw [fixedNames, List.mem_append]
    exact h.imp (mem_fixedNames_of_mem_unboundFixed a) (mem_fixedNames_of_mem_unboundFixed b)
  | .call _ args, h => mem_fixedNamesOfAll_of_mem_unboundFixed args h
  | .reduction _ _ body, h => by
    rw [unboundFixed, NameSet.mem_diff] at h
    exact mem_fixedNames_of_mem_unboundFixed body h.1

/-- What is left unbound in several expressions are names that no substitution replaces. -/
theorem mem_fixedNamesOfAll_of_mem_unboundFixed {binds : Binder → Bool} : (es : List Expr) →
    n ∈ unboundFixedOfAll binds es → n ∈ fixedNamesOfAll es
  | [], h => absurd h (NameSet.not_mem_empty n)
  | e :: rest, h => by
    rw [unboundFixedOfAll, NameSet.mem_union] at h
    rw [fixedNamesOfAll, List.mem_append]
    exact h.imp (mem_fixedNames_of_mem_unboundFixed e)
      (mem_fixedNamesOfAll_of_mem_unboundFixed rest)

end

mutual

/-- A name that no substitution replaces is unbound if no reduction binds it. -/
theorem mem_unboundFixed_of_mem_fixedNames {binds : Binder → Bool} : (e : Expr) → n ∈ e.fixedNames →
    (∀ b ∈ e.binders, b.name ≠ n) → n ∈ e.unboundFixed binds
  | .int _, h, _ | .float _, h, _ | .var _, h, _ => absurd h List.not_mem_nil
  | .tagged _ _, h, _ => NameSet.mem_ofList.mpr h
  | .subscript _ index, h, hfree => by
    rw [unboundFixed, NameSet.mem_add]
    rw [fixedNames, List.mem_cons] at h
    exact h.imp_right fun hindex => mem_unboundFixedOfAll_of_mem_fixedNames index hindex hfree
  | .sum es, h, hfree | .product es, h, hfree => mem_unboundFixedOfAll_of_mem_fixedNames es h hfree
  | .binary _ a b, h, hfree => by
    rw [binders, List.forall_mem_append] at hfree
    rw [fixedNames, List.mem_append] at h
    rw [unboundFixed, NameSet.mem_union]
    exact h.imp (fun ha => mem_unboundFixed_of_mem_fixedNames a ha hfree.1)
      fun hb => mem_unboundFixed_of_mem_fixedNames b hb hfree.2
  | .call _ args, h, hfree => mem_unboundFixedOfAll_of_mem_fixedNames args h hfree
  | .reduction _ bound body, h, hfree => by
    rw [binders, List.forall_mem_append] at hfree
    rw [unboundFixed, NameSet.mem_diff, NameSet.mem_ofList]
    refine ⟨mem_unboundFixed_of_mem_fixedNames body h hfree.1, fun hmem => ?_⟩
    obtain ⟨b, hb, hname⟩ := List.mem_map.mp hmem
    exact hfree.2 b (List.mem_of_mem_filter hb) hname

/-- A name in several expressions that no substitution replaces is unbound if no reduction binds
it. -/
theorem mem_unboundFixedOfAll_of_mem_fixedNames {binds : Binder → Bool} : (es : List Expr) →
    n ∈ fixedNamesOfAll es → (∀ b ∈ bindersOfAll es, b.name ≠ n) → n ∈ unboundFixedOfAll binds es
  | [], h, _ => absurd h List.not_mem_nil
  | e :: rest, h, hfree => by
    rw [bindersOfAll, List.forall_mem_append] at hfree
    rw [fixedNamesOfAll, List.mem_append] at h
    rw [unboundFixedOfAll, NameSet.mem_union]
    exact h.imp (fun he => mem_unboundFixed_of_mem_fixedNames e he hfree.1)
      fun hrest => mem_unboundFixedOfAll_of_mem_fixedNames rest hrest hfree.2

end

/-! ## Renaming variables -/

/-- Whether every value is a variable. -/
def IsRenaming (values : SortedMap String Expr) : Prop :=
  ∀ name e, values.get? name = some e → ∃ new, e = .var new

/-- The values left when bound names are no longer replaced. -/
theorem get?_foldl_erase (values : SortedMap String Expr) (binders : List Binder) (name : String) :
    (binders.foldl (fun m b => m.erase b.name) values).get? name =
      if name ∈ binders.map Binder.name then none else values.get? name := by
  induction binders generalizing values with
  | nil => rfl
  | cons b rest ih =>
    rw [List.foldl_cons, ih, SortedMap.get?_erase, List.map_cons]
    by_cases hrest : name ∈ rest.map Binder.name
    · rw [if_pos hrest, if_pos (List.mem_cons_of_mem _ hrest)]
    · rw [if_neg hrest]
      exact if_congr (by simp [hrest]) rfl rfl

theorem IsRenaming.foldl_erase {values : SortedMap String Expr} (h : IsRenaming values)
    (binders : List Binder) : IsRenaming (binders.foldl (fun m b => m.erase b.name) values) := by
  intro name e hget
  rw [get?_foldl_erase] at hget
  split at hget
  · cases hget
  · exact h name e hget

mutual

/-- A free variable after a renaming is one that is not renamed, or a new name of one. -/
theorem of_mem_freeVariables_substitute {values : SortedMap String Expr} (h : IsRenaming values) :
    (e : Expr) → n ∈ (e.substitute values).freeVariables →
      n ∈ e.freeVariables ∧ values.get? n = none ∨
        ∃ old ∈ e.freeVariables, values.get? old = some (.var n)
  | .int _, hn | .float _, hn | .tagged _ _, hn => absurd hn (NameSet.not_mem_empty n)
  | .var name, hn => by
    rw [substitute, SortedMap.getD] at hn
    simp only [freeVariables, NameSet.mem_ofList, List.mem_singleton, exists_eq_left]
    cases hget : values.get? name with
    | none =>
      have hname : n = name := by simpa [hget, freeVariables] using hn
      exact .inl ⟨hname, hname ▸ hget⟩
    | some e =>
      obtain ⟨new, rfl⟩ := h name e hget
      have hnew : n = new := by simpa [hget, freeVariables] using hn
      exact .inr (by rw [hnew])
  | .subscript _ index, hn => of_mem_freeVariablesOfAll_substituteAll h index hn
  | .sum es, hn | .product es, hn => of_mem_freeVariablesOfAll_substituteAll h es hn
  | .binary _ a b, hn => by
    rw [substitute, freeVariables, NameSet.mem_union] at hn
    simp only [freeVariables, NameSet.mem_union]
    rcases hn with hn | hn
    · have ha := of_mem_freeVariables_substitute h a hn
      grind
    · have hb := of_mem_freeVariables_substitute h b hn
      grind
  | .call _ args, hn => of_mem_freeVariablesOfAll_substituteAll h args hn
  | .reduction _ binders body, hn => by
    rw [substitute, freeVariables, NameSet.mem_diff, NameSet.mem_ofList] at hn
    obtain ⟨hn, hfree⟩ := hn
    simp only [freeVariables, NameSet.mem_diff, NameSet.mem_ofList]
    rcases of_mem_freeVariables_substitute (h.foldl_erase binders) body hn with
      ⟨hbody, hnone⟩ | ⟨old, hold, hsome⟩
    · rw [get?_foldl_erase, if_neg hfree] at hnone
      exact .inl ⟨⟨hbody, hfree⟩, hnone⟩
    · rw [get?_foldl_erase] at hsome
      split at hsome
      · cases hsome
      · next hbound => exact .inr ⟨old, ⟨hold, hbound⟩, hsome⟩

/-- The free variables of several expressions after a renaming. -/
theorem of_mem_freeVariablesOfAll_substituteAll {values : SortedMap String Expr}
    (h : IsRenaming values) :
    (es : List Expr) → n ∈ freeVariablesOfAll (substituteAll values es) →
      n ∈ freeVariablesOfAll es ∧ values.get? n = none ∨
        ∃ old ∈ freeVariablesOfAll es, values.get? old = some (.var n)
  | [], hn => absurd hn (NameSet.not_mem_empty n)
  | e :: rest, hn => by
    rw [substituteAll, freeVariablesOfAll, NameSet.mem_union] at hn
    simp only [freeVariablesOfAll, NameSet.mem_union]
    rcases hn with hn | hn
    · have he := of_mem_freeVariables_substitute h e hn
      grind
    · have hrest := of_mem_freeVariablesOfAll_substituteAll h rest hn
      grind

end

mutual

/-- A free variable that is not renamed stays. -/
theorem mem_freeVariables_substitute {values : SortedMap String Expr} :
    (e : Expr) → n ∈ e.freeVariables → values.get? n = none →
      n ∈ (e.substitute values).freeVariables
  | .int _, hn, _ | .float _, hn, _ | .tagged _ _, hn, _ => hn
  | .var name, hn, hnone => by
    have hname : n = name := by simpa [freeVariables] using hn
    rw [substitute, SortedMap.getD, ← hname, hnone]
    simp [freeVariables]
  | .subscript _ index, hn, hnone => mem_freeVariablesOfAll_substituteAll index hn hnone
  | .sum es, hn, hnone | .product es, hn, hnone => mem_freeVariablesOfAll_substituteAll es hn hnone
  | .binary _ a b, hn, hnone => by
    rw [freeVariables, NameSet.mem_union] at hn
    rw [substitute, freeVariables, NameSet.mem_union]
    exact hn.imp (fun ha => mem_freeVariables_substitute a ha hnone)
      fun hb => mem_freeVariables_substitute b hb hnone
  | .call _ args, hn, hnone => mem_freeVariablesOfAll_substituteAll args hn hnone
  | .reduction _ binders body, hn, hnone => by
    rw [freeVariables, NameSet.mem_diff, NameSet.mem_ofList] at hn
    rw [substitute, freeVariables, NameSet.mem_diff, NameSet.mem_ofList]
    refine ⟨mem_freeVariables_substitute body hn.1 ?_, hn.2⟩
    rw [get?_foldl_erase, if_neg hn.2, hnone]

/-- Free variables of several expressions that are not renamed stay. -/
theorem mem_freeVariablesOfAll_substituteAll {values : SortedMap String Expr} :
    (es : List Expr) → n ∈ freeVariablesOfAll es → values.get? n = none →
      n ∈ freeVariablesOfAll (substituteAll values es)
  | [], hn, _ => hn
  | e :: rest, hn, hnone => by
    rw [freeVariablesOfAll, NameSet.mem_union] at hn
    rw [substituteAll, freeVariablesOfAll, NameSet.mem_union]
    exact hn.imp (fun he => mem_freeVariables_substitute e he hnone)
      fun hrest => mem_freeVariablesOfAll_substituteAll rest hrest hnone

end

mutual

/-- A renaming keeps the names that no substitution replaces. -/
theorem unboundFixed_substitute {values : SortedMap String Expr} {binds : Binder → Bool}
    (h : IsRenaming values) :
    (e : Expr) → (e.substitute values).unboundFixed binds = e.unboundFixed binds
  | .int _ | .float _ | .tagged _ _ => rfl
  | .var name => by
    rw [substitute, SortedMap.getD]
    cases hget : values.get? name with
    | none => rfl
    | some e =>
      obtain ⟨new, rfl⟩ := h name e hget
      rfl
  | .subscript aggregate index =>
    congrArg (NameSet.add · aggregate) (unboundFixedOfAll_substituteAll h index)
  | .sum es | .product es => unboundFixedOfAll_substituteAll h es
  | .binary _ a b =>
    congrArg₂ NameSet.union (unboundFixed_substitute h a) (unboundFixed_substitute h b)
  | .call _ args => unboundFixedOfAll_substituteAll h args
  | .reduction _ binders body =>
    congrArg (NameSet.diff · _) (unboundFixed_substitute (h.foldl_erase binders) body)

/-- A renaming keeps the names of several expressions that no substitution replaces. -/
theorem unboundFixedOfAll_substituteAll {values : SortedMap String Expr} {binds : Binder → Bool}
    (h : IsRenaming values) :
    (es : List Expr) →
      unboundFixedOfAll binds (substituteAll values es) = unboundFixedOfAll binds es
  | [] => rfl
  | e :: rest =>
    congrArg₂ NameSet.union (unboundFixed_substitute h e) (unboundFixedOfAll_substituteAll h rest)

end

end LoopKernel.Expr
