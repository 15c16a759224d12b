import LoopKernel.Proofs.Expr.FreeNames
import LoopKernel.Proofs.Reduction.Duplication

/-!
# Free names after copying

Giving reductions indices of their own renames variables, and takes the marks off. Variables that
were free stay free and no other ones become so. A name that no renaming replaces, of an array or
with a tag, was bound by a marked index of the same name and is not bound by its copy: it escapes.
-/

namespace LoopKernel

/-- Whether two sets of names are the same apart from names that the second one lacks. -/
def NameSet.AgreeOff (missing : List String) (s t : NameSet) : Prop :=
  (∀ n ∈ t, n ∈ s) ∧ ∀ n ∈ s, n ∉ missing → n ∈ t

namespace NameSet.AgreeOff

variable {missing more : List String} {s t s' t' : NameSet}

theorem refl (missing : List String) (s : NameSet) : AgreeOff missing s s :=
  ⟨fun _ hn => hn, fun _ hn _ => hn⟩

theorem mono (h : AgreeOff missing s t) (hsub : ∀ n ∈ missing, n ∈ more) : AgreeOff more s t :=
  ⟨h.1, fun n hn hnot => h.2 n hn fun hmem => hnot (hsub n hmem)⟩

theorem union (h : AgreeOff missing s t) (h' : AgreeOff missing s' t') :
    AgreeOff missing (s.union s') (t.union t') := by
  refine ⟨fun n hn => ?_, fun n hn hnot => ?_⟩
  · rw [mem_union] at hn ⊢
    exact hn.imp (h.1 n) (h'.1 n)
  · rw [mem_union] at hn ⊢
    exact hn.imp (fun hs => h.2 n hs hnot) fun hs => h'.2 n hs hnot

theorem add (h : AgreeOff missing s t) (name : String) :
    AgreeOff missing (s.add name) (t.add name) := by
  refine ⟨fun n hn => ?_, fun n hn hnot => ?_⟩
  · rw [mem_add] at hn ⊢
    exact hn.imp_right (h.1 n)
  · rw [mem_add] at hn ⊢
    exact hn.imp_right fun hs => h.2 n hs hnot

end NameSet.AgreeOff

/-- The names that are free once the marked binders of an expression are gone, although no
substitution replaces them. -/
def Expr.escaping (e : Expr) : NameSet := e.unboundFixed fun b => !b.isMarked

/-- The names in several expressions that are free once the marked binders are gone. -/
def Expr.escapingOfAll (es : List Expr) : NameSet :=
  Expr.unboundFixedOfAll (fun b => !b.isMarked) es

namespace Expr

/-- Whether the free names of an expression are kept when its marked binders are renamed, apart from
names of copies. -/
structure Renames (copies : List String) (e e' : Expr) : Prop where
  free : NameSet.AgreeOff copies e.freeVariables e'.freeVariables
  fixed : NameSet.AgreeOff copies e.escaping (e'.unboundFixed fun _ => true)

/-- Whether the free names of several expressions are kept when marked binders are renamed. -/
structure RenamesAll (copies : List String) (es es' : List Expr) : Prop where
  free : NameSet.AgreeOff copies (freeVariablesOfAll es) (freeVariablesOfAll es')
  fixed : NameSet.AgreeOff copies (escapingOfAll es) (unboundFixedOfAll (fun _ => true) es')

/-- What renaming the binders of a reduction gives: unmarked ones stay, and the names of marked ones
are replaced by the copies that are bound instead. -/
structure Unmarks (copies : List String) (before after : List Binder)
    (values : SortedMap String Expr) : Prop where
  kept : ∀ b ∈ before, b.isMarked = false → b ∈ after
  of_after : ∀ b ∈ after, b ∈ before ∧ b.isMarked = false ∨ b.name ∈ copies
  replaced : ∀ b ∈ before, b.isMarked = true → values.contains b.name = true
  key : ∀ n, values.contains n = true → n ∈ before.map Binder.name
  value : ∀ n e, values.get? n = some e → ∃ b ∈ after, e = .var b.name

variable {copies more : List String} {e e' : Expr}

namespace Unmarks

variable {before after : List Binder} {values : SortedMap String Expr} {b : Binder}

theorem nil (copies : List String) : Unmarks copies [] [] ∅ := by
  refine ⟨by simp, by simp, by simp, fun n hn => ?_, fun n e hn => ?_⟩
  · cases hn
  · cases hn

/-- A binder without a mark in front. -/
theorem skip (hb : b.isMarked = false) (h : Unmarks copies before after values) :
    Unmarks copies (b :: before) (b :: after) values where
  kept := List.forall_mem_cons.mpr ⟨fun _ => List.mem_cons_self,
    fun c hc hmarked => List.mem_cons_of_mem _ (h.kept c hc hmarked)⟩
  of_after := List.forall_mem_cons.mpr ⟨.inl ⟨List.mem_cons_self, hb⟩, fun c hc =>
    (h.of_after c hc).imp_left fun hold => ⟨List.mem_cons_of_mem _ hold.1, hold.2⟩⟩
  replaced := List.forall_mem_cons.mpr ⟨fun hmarked => absurd hmarked (by simp [hb]), h.replaced⟩
  key n hn := List.mem_cons_of_mem _ (h.key n hn)
  value n e hn := by
    obtain ⟨c, hc, he⟩ := h.value n e hn
    exact ⟨c, List.mem_cons_of_mem _ hc, he⟩

/-- A marked binder in front, which gets a copy. -/
theorem copy {fresh : String} (hb : b.isMarked = true) (hfresh : fresh ∈ copies)
    (h : Unmarks copies before after values) :
    Unmarks copies (b :: before) (⟨fresh, 0⟩ :: after)
      (values.insertNew b.name (.var fresh)) where
  kept := List.forall_mem_cons.mpr ⟨fun hunmarked => absurd hb (by simp [hunmarked]),
    fun c hc hmarked => List.mem_cons_of_mem _ (h.kept c hc hmarked)⟩
  of_after := List.forall_mem_cons.mpr ⟨.inr hfresh, fun c hc =>
    (h.of_after c hc).imp_left fun hold => ⟨List.mem_cons_of_mem _ hold.1, hold.2⟩⟩
  replaced := by
    simp only [SortedMap.contains_insertNew, Bool.or_eq_true, beq_iff_eq]
    exact List.forall_mem_cons.mpr ⟨fun _ => .inl rfl, fun c hc hmarked =>
      .inr (h.replaced c hc hmarked)⟩
  key n hn := by
    rw [SortedMap.contains_insertNew, Bool.or_eq_true, beq_iff_eq] at hn
    rw [List.map_cons, List.mem_cons]
    exact hn.imp_right (h.key n)
  value n e hn := by
    rcases SortedMap.of_get?_insertNew hn with hold | rfl
    · obtain ⟨c, hc, he⟩ := h.value n e hold
      exact ⟨c, List.mem_cons_of_mem _ hc, he⟩
    · exact ⟨_, List.mem_cons_self, rfl⟩

theorem isRenaming (h : Unmarks copies before after values) : IsRenaming values := by
  intro n e hget
  obtain ⟨b, -, he⟩ := h.value n e hget
  exact ⟨b.name, he⟩

/-- A bound name that is not replaced is still bound. -/
theorem mem_after_of_get?_none (h : Unmarks copies before after values) {n : String}
    (hget : values.get? n = none) (hn : n ∈ before.map Binder.name) :
    n ∈ after.map Binder.name := by
  obtain ⟨b, hb, rfl⟩ := List.mem_map.mp hn
  cases hmarked : b.isMarked with
  | true =>
    obtain ⟨e, hsome⟩ := SortedMap.contains_iff.mp (h.replaced b hb hmarked)
    rw [hget] at hsome
    cases hsome
  | false => exact List.mem_map_of_mem (h.kept b hb hmarked)

/-- What is bound under another name than that of a copy was bound without a mark. -/
theorem mem_unmarked_of_mem_after (h : Unmarks copies before after values) {n : String}
    (hn : n ∈ after.map Binder.name) (hcopies : n ∉ copies) :
    n ∈ (before.filter fun b => !b.isMarked).map Binder.name := by
  obtain ⟨b, hb, rfl⟩ := List.mem_map.mp hn
  obtain ⟨hbefore, hmarked⟩ := (h.of_after b hb).resolve_right hcopies
  exact List.mem_map_of_mem (List.mem_filter.mpr ⟨hbefore, by rw [hmarked]; rfl⟩)

/-- What is bound without a mark is still bound. -/
theorem mem_after_of_mem_unmarked (h : Unmarks copies before after values) {n : String}
    (hn : n ∈ (before.filter fun b => !b.isMarked).map Binder.name) :
    n ∈ after.map Binder.name := by
  obtain ⟨b, hb, rfl⟩ := List.mem_map.mp hn
  obtain ⟨hbefore, hmarked⟩ := List.mem_filter.mp hb
  exact List.mem_map_of_mem (h.kept b hbefore (by simpa using hmarked))

end Unmarks

namespace Renames

theorem mono (h : Renames copies e e') (hsub : ∀ n ∈ copies, n ∈ more) : Renames more e e' :=
  ⟨h.free.mono hsub, h.fixed.mono hsub⟩

/-- A name that is free after the renaming was free or escapes. -/
theorem of_mem_dependencies (h : Renames copies e e') {n : String} (hn : n ∈ e'.dependencies) :
    n ∈ e.dependencies ∨ n ∈ e.escaping := by
  rcases mem_dependencies_iff_free e' |>.mp hn with hvariable | hfixed
  · exact .inl ((mem_dependencies_iff_free e).mpr (.inl (h.free.1 n hvariable)))
  · exact .inr (h.fixed.1 n hfixed)

/-- A name that was free or escapes is free after the renaming, unless a copy is called so. -/
theorem mem_dependencies (h : Renames copies e e') {n : String}
    (hn : n ∈ e.dependencies ∨ n ∈ e.escaping) (hcopies : n ∉ copies) : n ∈ e'.dependencies := by
  rw [mem_dependencies_iff_free] at hn ⊢
  rcases hn with (hvariable | hfixed) | hescaping
  · exact .inl (h.free.2 n hvariable hcopies)
  · exact .inr (h.fixed.2 n (mem_unboundFixed_mono (fun _ _ => rfl) e hfixed) hcopies)
  · exact .inr (h.fixed.2 n hescaping hcopies)

/-- All free names are kept if no copy is among them and whatever escapes is. -/
theorem dependencies_eq (h : Renames copies e e') (hcopies : ∀ n ∈ copies, n ∉ e.dependencies)
    (hescaping : ∀ n ∈ e.escaping, n ∈ e.dependencies) : e'.dependencies = e.dependencies := by
  apply NameSet.ext
  intro n
  constructor
  · intro hn
    exact (h.of_mem_dependencies hn).elim id (hescaping n)
  · intro hn
    exact h.mem_dependencies (.inl hn) fun hcopy => hcopies n hcopy hn

variable {before after : List Binder} {values : SortedMap String Expr}

/-- The free variables of a reduction whose marked binders are renamed, in its body too. -/
theorem free_reduction (h : NameSet.AgreeOff copies e.freeVariables e'.freeVariables)
    (op : ReductionOp) (hbinders : Unmarks copies before after values) :
    NameSet.AgreeOff copies (reduction op before e).freeVariables
      (reduction op after (e'.substitute values)).freeVariables := by
  simp only [freeVariables]
  refine ⟨fun n hn => ?_, fun n hn hcopies => ?_⟩
  · rw [NameSet.mem_diff, NameSet.mem_ofList] at hn ⊢
    rcases of_mem_freeVariables_substitute hbinders.isRenaming e' hn.1 with
      ⟨hbody, hget⟩ | ⟨old, -, hget⟩
    · exact ⟨h.1 n hbody, fun hbound => hn.2 (hbinders.mem_after_of_get?_none hget hbound)⟩
    · -- A new name is that of a copy, which the reduction binds.
      obtain ⟨b, hb, he⟩ := hbinders.value old _ hget
      exact absurd (Expr.var.inj he ▸ List.mem_map_of_mem hb) hn.2
  · rw [NameSet.mem_diff, NameSet.mem_ofList] at hn ⊢
    refine ⟨mem_freeVariables_substitute e' (h.2 n hn.1 hcopies) ?_, fun hbound => ?_⟩
    · rw [Option.eq_none_iff_forall_ne_some]
      exact fun e hsome => hn.2 (hbinders.key n (SortedMap.contains_iff.mpr ⟨e, hsome⟩))
    · obtain ⟨b, hb, hname⟩ := List.mem_map.mp (hbinders.mem_unmarked_of_mem_after hbound hcopies)
      exact hn.2 (hname ▸ List.mem_map_of_mem (List.mem_of_mem_filter hb))

/-- What escapes from a reduction whose marked binders are renamed, in its body too. -/
theorem fixed_reduction
    (h : NameSet.AgreeOff copies e.escaping (e'.unboundFixed fun _ => true)) (op : ReductionOp)
    (hbinders : Unmarks copies before after values) :
    NameSet.AgreeOff copies (reduction op before e).escaping
      ((reduction op after (e'.substitute values)).unboundFixed fun _ => true) := by
  have hall : (after.filter fun _ => true) = after := List.filter_eq_self.mpr fun _ _ => rfl
  simp only [escaping, unboundFixed, unboundFixed_substitute hbinders.isRenaming, hall]
  refine ⟨fun n hn => ?_, fun n hn hcopies => ?_⟩
  · rw [NameSet.mem_diff, NameSet.mem_ofList] at hn ⊢
    exact ⟨h.1 n hn.1, fun hbound => hn.2 (hbinders.mem_after_of_mem_unmarked hbound)⟩
  · rw [NameSet.mem_diff, NameSet.mem_ofList] at hn ⊢
    exact ⟨h.2 n hn.1 hcopies, fun hbound =>
      hn.2 (hbinders.mem_unmarked_of_mem_after hbound hcopies)⟩

end Renames

end Expr

/-! ## Replacing reductions -/

namespace Renaming

variable {k : Kernel} {insn : String}

/-- The names of the copies made so far. -/
def copyNames (r : Renaming) : List String := r.created.map Prod.snd

/-- Copies are added to those made before. -/
theorem Copies.copyNames_sub {r s : Renaming} {before after : List Binder}
    (h : Copies k r before after s) : ∀ n ∈ r.copyNames, n ∈ s.copyNames := by
  intro n hn
  rw [copyNames, h.2, List.map_append]
  exact List.mem_append_left _ hn

/-- Copying the marked binders in a list takes their marks off. -/
theorem unmarks_copyMarked (k : Kernel) (insn : String) (binders : List Binder) (r : Renaming) :
    Expr.Unmarks (copyMarked k insn binders r).2.copyNames binders
      (copyMarked k insn binders r).1.1 (copyMarked k insn binders r).1.2 := by
  induction binders generalizing r with
  | nil => exact .nil _
  | cons b rest ih =>
    unfold copyMarked
    split
    · next hmarked =>
      refine .copy hmarked ?_ (ih (copy k insn b.name r).2)
      apply (copyMarked_spec k insn rest (copy k insn b.name r).2).1.copyNames_sub
      simp [copyNames, copy]
    · next hunmarked => exact .skip (Bool.not_eq_true _ ▸ hunmarked) (ih r)

mutual

/-- Giving the reductions of an expression indices of their own keeps its free names. -/
theorem renames_mapReductionsM (k : Kernel) (insn : String) : (e : Expr) → (r : Renaming) →
    Expr.Renames (e.mapReductionsM (renameReduction k insn) r).2.copyNames e
      (e.mapReductionsM (renameReduction k insn) r).1
  | .int _, _ | .float _, _ | .var _, _ | .tagged _ _, _ => ⟨.refl _ _, .refl _ _⟩
  | .subscript aggregate index, r =>
    have h := renamesAll_mapReductionsAllM k insn index r
    ⟨h.free, h.fixed.add aggregate⟩
  | .sum es, r | .product es, r =>
    have h := renamesAll_mapReductionsAllM k insn es r
    ⟨h.free, h.fixed⟩
  | .binary _ a b, r =>
    have ha := renames_mapReductionsM k insn a r
    have hb := renames_mapReductionsM k insn b (a.mapReductionsM (renameReduction k insn) r).2
    have hmore := ((tracks_renameReduction k insn).mapReductionsM b
      (a.mapReductionsM (renameReduction k insn) r).2).copyNames_sub
    ⟨(ha.free.mono hmore).union hb.free, (ha.fixed.mono hmore).union hb.fixed⟩
  | .call _ args, r =>
    have h := renamesAll_mapReductionsAllM k insn args r
    ⟨h.free, h.fixed⟩
  | .reduction op binders body, r =>
    have hbody := renames_mapReductionsM k insn body r
    have hmore := (copyMarked_spec k insn binders
      (body.mapReductionsM (renameReduction k insn) r).2).1.copyNames_sub
    have hbinders := unmarks_copyMarked k insn binders
      (body.mapReductionsM (renameReduction k insn) r).2
    ⟨Expr.Renames.free_reduction (hbody.free.mono hmore) op hbinders,
      Expr.Renames.fixed_reduction (hbody.fixed.mono hmore) op hbinders⟩

/-- Giving the reductions of several expressions indices of their own keeps their free names. -/
theorem renamesAll_mapReductionsAllM (k : Kernel) (insn : String) : (es : List Expr) →
    (r : Renaming) →
    Expr.RenamesAll (Expr.mapReductionsAllM (renameReduction k insn) es r).2.copyNames es
      (Expr.mapReductionsAllM (renameReduction k insn) es r).1
  | [], _ => ⟨.refl _ _, .refl _ _⟩
  | e :: rest, r =>
    have he := renames_mapReductionsM k insn e r
    have hrest := renamesAll_mapReductionsAllM k insn rest
      (e.mapReductionsM (renameReduction k insn) r).2
    have hmore := ((tracks_renameReduction k insn).mapReductionsAllM rest
      (e.mapReductionsM (renameReduction k insn) r).2).copyNames_sub
    ⟨(he.free.mono hmore).union hrest.free, (he.fixed.mono hmore).union hrest.fixed⟩

end

end Renaming

/-- Replaced binders are not marked. -/
theorem Copied.isMarked_eq_false {k : Kernel} {taken taken' : List String}
    {before after : List Binder} (h : Copied k taken before after taken') :
    ∀ b ∈ after, b.isMarked = false := by
  induction h with
  | nil => simp
  | kept hb _ ih => exact List.forall_mem_cons.mpr ⟨hb, ih⟩
  | copy _ _ _ _ ih => exact List.forall_mem_cons.mpr ⟨rfl, ih⟩

/-! ## Kernels -/

namespace Kernel

variable {k k' out : Kernel} {insns : List Instruction} {taken : List String}

/-- Whether an instruction is another one with its marked binders renamed. -/
def RenamedInsn (copies : List String) (before after : Instruction) : Prop :=
  ∃ e, after = { before with expression := e } ∧ Expr.Renames copies before.expression e

/-- The instructions whose reductions get copies are renamed. -/
theorem renamed_of_duplicateIn (h : k.duplicateIn insns taken out = .ok k') :
    ∃ changed, k'.instructions = out.instructions ++ changed ∧
      List.Forall₂ (RenamedInsn
        ((Binder.copies (expressionBinders insns) (expressionBinders changed)).map Prod.snd))
        insns changed := by
  induction insns generalizing taken out with
  | nil =>
    rw [duplicateIn, Attempt.pure_eq_ok] at h
    exact ⟨[], h ▸ (List.append_nil _).symm, .nil⟩
  | cons insn rest ih =>
    obtain ⟨expression, r, next, hresult, hnext, h⟩ := duplicateIn_cons_cases h
    have hcopies := (Renaming.tracks_renameReduction k insn.id).mapReductionsM insn.expression
      ⟨taken, []⟩
    have hrenames := Renaming.renames_mapReductionsM k insn.id insn.expression ⟨taken, []⟩
    rw [hresult] at hcopies hrenames
    obtain ⟨changed, hinstructions, hrest⟩ := ih h
    obtain ⟨hcopied, hcreated⟩ := hcopies
    have hsame : next.instructions = out.instructions := by rw [(foldlM_addCopy hnext).2]
    have hall : (Binder.copies (expressionBinders (insn :: rest))
        (expressionBinders ({ insn with expression := expression } :: changed))).map Prod.snd =
          r.copyNames ++
            (Binder.copies (expressionBinders rest) (expressionBinders changed)).map Prod.snd := by
      rw [Renaming.copyNames, hcreated, ← List.map_append]
      exact congrArg _ hcopied.copies_append
    refine ⟨{ insn with expression := expression } :: changed, ?_, ?_⟩
    · rw [hinstructions, hsame, List.append_assoc, List.singleton_append]
    · rw [hall]
      refine .cons ⟨expression, rfl, hrenames.mono fun n => List.mem_append_left _⟩
        (hrest.imp ?_)
      rintro before after ⟨e, he, hrenames⟩
      exact ⟨e, he, hrenames.mono fun n => List.mem_append_right _⟩

/-- A renamed instruction has the free names and the indices that it had exactly if it mentions no
copy and nothing escapes in it that was not free. -/
theorem keeps_names_iff {ids copies : List String} {before after : Instruction}
    (hscoped : before.Scoped k.domain.dims ids) (hnew : ∀ n ∈ copies, n ∉ k.names)
    (hdims : k'.domain.dims = k.domain.dims ++ copies) (h : RenamedInsn copies before after) :
    (after.expression.dependencies = before.expression.dependencies ∧
        k'.insnInames after = k.insnInames before) ↔
      (∀ n ∈ copies, ¬before.Mentions n) ∧
        ∀ n ∈ before.expression.escaping, n ∈ before.expression.dependencies := by
  obtain ⟨e, rfl, hrenames⟩ := h
  have hmem : ∀ n, n ∈ k'.domain.dims ↔ n ∈ k.domain.dims ∨ n ∈ copies := by
    intro n
    rw [hdims, List.mem_append]
  constructor
  · rintro ⟨hdeps, hinames⟩
    refine ⟨fun n hn hmentions => ?_, fun n hescaping => ?_⟩
    · -- A mentioned copy is a dimension, so the instruction would run over it.
      have hafter : n ∈ k'.insnInames { before with expression := e } := by
        refine mem_insnInames.mpr (.inr ⟨?_, (hmem n).mpr (.inr hn)⟩)
        rw [Instruction.Mentions] at hmentions ⊢
        exact hmentions.imp_left fun hexpression => hdeps ▸ hexpression
      rw [hinames] at hafter
      exact hnew n hn (mem_names_of_mem_dims (mem_dims_of_mem_insnInames hscoped hafter))
    · by_cases hbound : ∀ b ∈ before.expression.binders, b.name ≠ n
      · refine (Expr.mem_dependencies_iff_free _).mpr (.inr ?_)
        exact Expr.mem_unboundFixed_of_mem_fixedNames _
          (Expr.mem_fixedNames_of_mem_unboundFixed _ hescaping) hbound
      · -- What a reduction binds is a dimension and hence no copy.
        push Not at hbound
        obtain ⟨b, hb, rfl⟩ := hbound
        have hdim := hscoped.bound b (List.mem_append_right _ hb)
        rw [← hdeps]
        exact hrenames.mem_dependencies (.inr hescaping) fun hcopy =>
          hnew _ hcopy (mem_names_of_mem_dims hdim)
  · rintro ⟨hmentions, hescaping⟩
    have hdeps := hrenames.dependencies_eq (fun n hcopy hn => hmentions n hcopy (.inl hn)) hescaping
    refine ⟨hdeps, NameSet.ext fun n => ?_⟩
    have hsame : Instruction.Mentions { before with expression := e } n ↔ before.Mentions n := by
      rw [Instruction.Mentions, Instruction.Mentions, hdeps]
    rw [mem_insnInames, mem_insnInames, hsame, hmem]
    have hcopy := hmentions n
    tauto

/-- A relation between two lists that amounts to a property of the first one. -/
private theorem forall₂_iff_forall {α β : Type} {R S : α → β → Prop} {Q : α → Prop} {l : List α}
    {l' : List β} (h : List.Forall₂ R l l') (hQ : ∀ a ∈ l, ∀ b, R a b → (S a b ↔ Q a)) :
    List.Forall₂ S l l' ↔ ∀ a ∈ l, Q a := by
  induction h with
  | nil => simp
  | cons hone _ ih =>
    rw [List.forall_mem_cons] at hQ
    rw [List.forall₂_cons, List.forall_mem_cons, hQ.1 _ hone, ih hQ.2]

/-- Copying the marked indices of reductions leaves no mark. Every instruction keeps the free names
of its expression and its indices exactly if no instruction mentions the name of a copy and in none
of them does a marked index bind the name of an array or a name with a tag, unless that is free
elsewhere in the expression. -/
theorem duplicateReductionInames_keeps_names
    (hscoped : ∀ insn ∈ k.instructions, insn.Scoped k.domain.dims k.insnIds)
    (h : k.duplicateReductionInames = .ok k') :
    (∀ insn ∈ k'.instructions, ∀ b ∈ insn.expression.binders, b.isMarked = false) ∧
      (List.Forall₂ (fun before after =>
          after.expression.dependencies = before.expression.dependencies ∧
            k'.insnInames after = k.insnInames before) k.instructions k'.instructions ↔
        ∀ insn ∈ k.instructions, (∀ copy ∈ k.inameCopies k', ¬insn.Mentions copy.2) ∧
          ∀ n ∈ insn.expression.escaping, n ∈ insn.expression.dependencies) := by
  obtain ⟨⟨_, hcopied⟩, -, hdomain, -⟩ := duplicateReductionInames_spec h
  obtain ⟨changed, hinstructions, hrenamed⟩ := renamed_of_duplicateIn h
  rw [List.nil_append] at hinstructions
  subst hinstructions
  constructor
  · intro insn hinsn b hb
    exact hcopied.isMarked_eq_false b (List.mem_flatMap.mpr ⟨insn, hinsn, hb⟩)
  · refine forall₂_iff_forall hrenamed fun before hbefore after hafter => ?_
    rw [keeps_names_iff (hscoped before hbefore) (fun n hn => (hcopied.fresh.2 n hn).1)
      (Polyhedron.dims_duplicateAxes hdomain) hafter, List.forall_mem_map]
    rfl

/-- Sums of the rows of a matrix and of all of it, each with copies of its own indices. -/
def rowAndTotal : Kernel where
  name := "sums"
  domain := ⟨["i", "j"], [
    ⟨.inequality, ⟨.ofList [("i", 1)], 0⟩⟩,
    ⟨.inequality, ⟨.ofList [("i", -1)], 7⟩⟩,
    ⟨.inequality, ⟨.ofList [("j", 1)], 0⟩⟩,
    ⟨.inequality, ⟨.ofList [("j", -1)], 3⟩⟩]⟩
  instructions := [
    .assign "r" (.subscript "rows" [.var "i"])
      (.reduction ⟨.sum, .int32⟩ [⟨"j", 1⟩] (.subscript "a" [.var "i", .var "j"])),
    .assign "t" (.subscript "total" [.int 0])
      (.reduction ⟨.sum, .int32⟩ [⟨"i", 1⟩] (.reduction ⟨.sum, .int32⟩ [⟨"j", 1⟩]
        (.product [.var "j", .subscript "a" [.var "i", .var "j"]])))]
  args := [⟨"a", .int32, .global [.int 8, .int 4]⟩, ⟨"rows", .int32, .global [.int 8]⟩,
    ⟨"total", .int32, .global [.int 1]⟩]
  temporaries := ∅
  tags := ∅
  device := .fermi
  schedule := none

/-- The copies stand where the indices stood, so both sums run over what they ran over. -/
theorem duplicateReductionInames_keeps_names_rowAndTotal :
    ∃ k', rowAndTotal.duplicateReductionInames = .ok k' ∧
      rowAndTotal.inameCopies k' = [("j", "j_r"), ("j", "j_t"), ("i", "i_t")] ∧
      List.Forall₂ (fun before after =>
        after.expression.dependencies = before.expression.dependencies ∧
          k'.insnInames after = rowAndTotal.insnInames before)
        rowAndTotal.instructions k'.instructions := by
  obtain ⟨k', hk, hcopies⟩ : ∃ k', rowAndTotal.duplicateReductionInames = .ok k' ∧
      rowAndTotal.inameCopies k' = [("j", "j_r"), ("j", "j_t"), ("i", "i_t")] := by decide +kernel
  have hscoped : ∀ insn ∈ rowAndTotal.instructions,
      insn.Scoped rowAndTotal.domain.dims rowAndTotal.insnIds :=
    List.forall_mem_cons.mpr ⟨⟨by decide, by decide, nofun, by decide⟩,
      List.forall_mem_singleton.mpr ⟨by decide, by decide, nofun, by decide⟩⟩
  have hnames : ∀ insn ∈ rowAndTotal.instructions, (∀ n ∈ ["j_r", "j_t", "i_t"],
      n ∉ insn.expression.dependencies ∧ n ∉ insn.assignee.dependencies) ∧
        ∀ n ∈ insn.expression.escaping, n ∈ insn.expression.dependencies := by decide +kernel
  obtain ⟨-, hkeeps⟩ := duplicateReductionInames_keeps_names hscoped hk
  refine ⟨k', hk, hcopies, hkeeps.mpr fun insn hinsn => ⟨fun copy hcopy hmention => ?_,
    (hnames insn hinsn).2⟩⟩
  have hname : copy.2 ∈ ["j_r", "j_t", "i_t"] := by
    rw [hcopies] at hcopy
    exact List.mem_map_of_mem (f := Prod.snd) hcopy
  obtain ⟨hexpression, hassignee⟩ := (hnames insn hinsn).1 copy.2 hname
  exact hmention.elim hexpression hassignee

end Kernel

end LoopKernel
