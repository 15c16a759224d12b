import LoopKernel.Proofs.Polyhedron.Dimensions
import LoopKernel.Proofs.Source.WellFormed
import LoopKernel.Reduction.Duplication
import Mathlib.Data.List.Forall2

/-!
# Copied reduction indices

Which copies are made when reductions get indices of their own: one for each marked binder, under
names that are new to the kernel and different from each other. The points of the domain with the
copies are those of the original domain in which every index may take the value of any of its
copies.
-/

namespace LoopKernel

/-! ## Binders -/

/-- The copies that replaced binders stand for: each marked index with the one in its place. -/
def Binder.copies (before after : List Binder) : List (String × String) :=
  ((before.zip after).filter fun pair => pair.1.isMarked).map fun pair => (pair.1.name, pair.2.name)

namespace Binder

theorem copies_cons_of_not_isMarked {b : Binder} (h : b.isMarked = false) (b' : Binder)
    (before after : List Binder) : copies (b :: before) (b' :: after) = copies before after := by
  simp [copies, h]

theorem copies_cons_of_isMarked {b : Binder} (h : b.isMarked = true) (b' : Binder)
    (before after : List Binder) :
    copies (b :: before) (b' :: after) = (b.name, b'.name) :: copies before after := by
  simp [copies, h]

/-- What is copied are indices of marked binders. -/
theorem fst_of_mem_copies {before after : List Binder} {copy : String × String}
    (h : copy ∈ copies before after) : ∃ b ∈ before, b.isMarked = true ∧ b.name = copy.1 := by
  obtain ⟨pair, hpair, rfl⟩ := List.mem_map.mp h
  obtain ⟨hzip, hmarked⟩ := List.mem_filter.mp hpair
  exact ⟨pair.1, (List.of_mem_zip hzip).1, hmarked, rfl⟩

end Binder

/-- The replacement of binders by ones in which every marked index has a name that is new to a
kernel, where some new names are taken before and more afterwards. -/
inductive Copied (k : Kernel) : List String → List Binder → List Binder → List String → Prop where
  | nil (taken : List String) : Copied k taken [] [] taken
  | kept {taken taken' : List String} {b : Binder} {before after : List Binder}
      (unmarked : b.isMarked = false) (rest : Copied k taken before after taken') :
      Copied k taken (b :: before) (b :: after) taken'
  | copy {taken taken' : List String} {b : Binder} {fresh : String} {before after : List Binder}
      (marked : b.isMarked = true) (new : fresh ∉ k.names) (free : fresh ∉ taken)
      (rest : Copied k (fresh :: taken) before after taken') :
      Copied k taken (b :: before) (⟨fresh, 0⟩ :: after) taken'

namespace Copied

variable {k : Kernel} {taken taken' taken'' : List String}
  {before after before' after' : List Binder}

/-- Binders are replaced one by one. -/
theorem length_eq (h : Copied k taken before after taken') : before.length = after.length := by
  induction h with
  | nil => rfl
  | kept _ _ ih => rw [List.length_cons, List.length_cons, ih]
  | copy _ _ _ _ ih => rw [List.length_cons, List.length_cons, ih]

/-- One replacement after the other. -/
theorem append (h : Copied k taken before after taken')
    (h' : Copied k taken' before' after' taken'') :
    Copied k taken (before ++ before') (after ++ after') taken'' := by
  induction h with
  | nil => exact h'
  | kept hb _ ih => exact .kept hb (ih h')
  | copy hb hnew hfree _ ih => exact .copy hb hnew hfree (ih h')

/-- The copies of one replacement come before those of the next. -/
theorem copies_append (h : Copied k taken before after taken') :
    Binder.copies (before ++ before') (after ++ after') =
      Binder.copies before after ++ Binder.copies before' after' := by
  rw [Binder.copies, List.zip_append h.length_eq, List.filter_append, List.map_append]
  rfl

/-- The names of the copies are taken afterwards, the last one first. -/
theorem taken_eq (h : Copied k taken before after taken') :
    taken' = ((Binder.copies before after).map Prod.snd).reverse ++ taken := by
  induction h with
  | nil => rfl
  | kept hb _ ih => rwa [Binder.copies_cons_of_not_isMarked hb]
  | copy hb _ _ _ ih =>
    rw [Binder.copies_cons_of_isMarked hb, List.map_cons, List.reverse_cons, List.append_assoc]
    exact ih

/-- Copies have names that are new to the kernel and different from each other. -/
theorem fresh (h : Copied k taken before after taken') :
    ((Binder.copies before after).map Prod.snd).Nodup ∧
      ∀ n ∈ (Binder.copies before after).map Prod.snd, n ∉ k.names ∧ n ∉ taken := by
  induction h with
  | nil => simp [Binder.copies]
  | kept hb _ ih => rwa [Binder.copies_cons_of_not_isMarked hb]
  | copy hb hnew hfree _ ih =>
    obtain ⟨hnodup, hfresh⟩ := ih
    rw [Binder.copies_cons_of_isMarked hb, List.map_cons, List.nodup_cons]
    refine ⟨⟨fun hmem => (hfresh _ hmem).2 List.mem_cons_self, hnodup⟩, fun n hn => ?_⟩
    rcases List.mem_cons.mp hn with rfl | hn
    · exact ⟨hnew, hfree⟩
    · exact ⟨(hfresh n hn).1, fun hmem => (hfresh n hn).2 (List.mem_cons_of_mem _ hmem)⟩

/-- A replaced binder is an old one or binds a copy. -/
theorem of_mem (h : Copied k taken before after taken') {b : Binder} (hb : b ∈ after) :
    b ∈ before ∨ b.name ∈ (Binder.copies before after).map Prod.snd := by
  induction h with
  | nil => cases hb
  | kept hunmarked _ ih =>
    rw [Binder.copies_cons_of_not_isMarked hunmarked]
    rcases List.mem_cons.mp hb with rfl | hb
    · exact .inl List.mem_cons_self
    · exact (ih hb).imp_left (List.mem_cons_of_mem _)
  | copy hmarked _ _ _ ih =>
    rw [Binder.copies_cons_of_isMarked hmarked, List.map_cons]
    rcases List.mem_cons.mp hb with rfl | hb
    · exact .inr List.mem_cons_self
    · exact (ih hb).imp (List.mem_cons_of_mem _) (List.mem_cons_of_mem _)

end Copied

/-! ## Expressions -/

namespace Renaming

variable {k : Kernel} {insn : String}

/-- Whether binders are replaced by ones with new names, and the copies are recorded. -/
def Copies (k : Kernel) (r : Renaming) (before after : List Binder) (s : Renaming) : Prop :=
  Copied k r.generated before after s.generated ∧
    s.created = r.created ++ Binder.copies before after

namespace Copies

variable {r s t : Renaming} {before after before' after' : List Binder}

theorem nil (r : Renaming) : Copies k r [] [] r := ⟨.nil _, (List.append_nil _).symm⟩

theorem kept {b : Binder} (hb : b.isMarked = false) (h : Copies k r before after s) :
    Copies k r (b :: before) (b :: after) s := by
  refine ⟨.kept hb h.1, ?_⟩
  rw [Binder.copies_cons_of_not_isMarked hb]
  exact h.2

theorem copy {b : Binder} (hb : b.isMarked = true)
    (h : Copies k (Renaming.copy k insn b.name r).2 before after s) :
    Copies k r (b :: before) (⟨(Renaming.copy k insn b.name r).1, 0⟩ :: after) s := by
  obtain ⟨hnew, hfree⟩ := k.freshVar_not_mem (b.name ++ "_" ++ insn) r.generated
  refine ⟨.copy hb hnew hfree h.1, ?_⟩
  rw [Binder.copies_cons_of_isMarked hb]
  exact h.2.trans (List.append_assoc ..)

theorem append (h : Copies k r before after s) (h' : Copies k s before' after' t) :
    Copies k r (before ++ before') (after ++ after') t := by
  refine ⟨h.1.append h'.1, ?_⟩
  rw [h.1.copies_append, h'.2, h.2, List.append_assoc]

end Copies

/-- Marked binders in a list get copies, and the values for their names bind nothing. -/
theorem copyMarked_spec (k : Kernel) (insn : String) (binders : List Binder) (r : Renaming) :
    Copies k r binders (copyMarked k insn binders r).1.1 (copyMarked k insn binders r).2 ∧
      ∀ name e, (copyMarked k insn binders r).1.2.get? name = some e → e.binders = [] := by
  induction binders generalizing r with
  | nil => exact ⟨.nil r, fun name e h => by cases h⟩
  | cons b rest ih =>
    unfold copyMarked
    split
    · next hb =>
      obtain ⟨hcopies, hvalues⟩ := ih (copy k insn b.name r).2
      refine ⟨.copy hb hcopies, fun name e h => ?_⟩
      change (SortedMap.insertNew _ _ _).get? name = some e at h
      rcases SortedMap.of_get?_insertNew h with hold | rfl
      · exact hvalues name e hold
      · rfl
    · next hb =>
      obtain ⟨hcopies, hvalues⟩ := ih r
      exact ⟨.kept (Bool.not_eq_true _ ▸ hb) hcopies, hvalues⟩

/-- Giving reductions indices of their own makes copies of their marked binders. -/
theorem tracks_renameReduction (k : Kernel) (insn : String) :
    Expr.Tracks (renameReduction k insn) (Copies k) where
  nil := .nil
  append h h' := h.append h'
  reduction {r s bs} op binders body h := by
    obtain ⟨hcopies, hvalues⟩ := copyMarked_spec k insn binders s
    have hbody : (renameReduction k insn op binders body s).1.binders =
        body.binders ++ (copyMarked k insn binders s).1.1 :=
      congrArg (· ++ _) (Expr.binders_substitute hvalues body)
    rw [hbody]
    exact h.append hcopies

end Renaming

/-! ## Kernels -/

namespace Kernel

variable {k out k' : Kernel} {insns : List Instruction} {taken : List String}

/-- The indices bound in the expressions of several instructions. -/
def expressionBinders (insns : List Instruction) : List Binder :=
  insns.flatMap fun insn => insn.expression.binders

/-- The copies that one kernel has of the reduction indices of another. -/
def inameCopies (k k' : Kernel) : List (String × String) :=
  Binder.copies (expressionBinders k.instructions) (expressionBinders k'.instructions)

/-- Adding copies changes the domain and the tags. -/
theorem foldlM_addCopy {insn : String} {copies : List (String × String)}
    (h : copies.foldlM (addCopy insn) k = .ok k') :
    k.domain.duplicateAxes copies = .ok k'.domain ∧
      k' = { k with
        domain := k'.domain
        tags := copies.foldl (fun m copy => m.insert copy.2 .sequential) k.tags } := by
  induction copies generalizing k with
  | nil =>
    rw [List.foldlM_nil, Attempt.pure_eq_ok] at h
    exact h ▸ ⟨rfl, rfl⟩
  | cons copy rest ih =>
    rw [List.foldlM_cons, Attempt.bind_eq_ok] at h
    obtain ⟨next, hnext, hrest⟩ := h
    unfold addCopy at hnext
    simp only [Attempt.bind_eq_ok, Attempt.mapCause_eq_ok, Attempt.pure_eq_ok] at hnext
    obtain ⟨domain, hdomain, rfl⟩ := hnext
    obtain ⟨hdomains, hk'⟩ := ih hrest
    exact ⟨Polyhedron.duplicateAxes_cons.mpr ⟨domain, hdomain, hdomains⟩, hk'⟩

/-- One more instruction is emitted with its reductions renamed, after their copies are added. -/
theorem duplicateIn_cons_cases {insn : Instruction} {rest : List Instruction}
    (h : k.duplicateIn (insn :: rest) taken out = .ok k') :
    ∃ expression r next,
      insn.expression.mapReductionsM (Renaming.renameReduction k insn.id) ⟨taken, []⟩ =
        (expression, r) ∧
      r.created.foldlM (addCopy insn.id) out = .ok next ∧
      k.duplicateIn rest r.generated { next with
        instructions := next.instructions ++ [{ insn with expression := expression }] } =
          .ok k' := by
  rw [duplicateIn] at h
  simp only [StateT.run] at h
  generalize insn.expression.mapReductionsM (Renaming.renameReduction k insn.id) ⟨taken, []⟩ =
    result at h ⊢
  obtain ⟨expression, r⟩ := result
  simp only [Attempt.bind_eq_ok] at h
  obtain ⟨next, hnext, h⟩ := h
  exact ⟨expression, r, next, rfl, hnext, h⟩

/-- What renaming the reductions of several instructions does: their binders are replaced, and the
domain and the tags get the copies. -/
theorem duplicateIn_spec (h : k.duplicateIn insns taken out = .ok k') :
    ∃ changed taken', Copied k taken (expressionBinders insns) (expressionBinders changed) taken' ∧
      List.Forall₂ (fun before after => ∃ e, after = { before with expression := e })
        insns changed ∧
      out.domain.duplicateAxes
        (Binder.copies (expressionBinders insns) (expressionBinders changed)) = .ok k'.domain ∧
      k' = { out with
        domain := k'.domain
        instructions := out.instructions ++ changed
        tags := (Binder.copies (expressionBinders insns) (expressionBinders changed)).foldl
          (fun m copy => m.insert copy.2 .sequential) out.tags } := by
  induction insns generalizing taken out with
  | nil =>
    rw [duplicateIn, Attempt.pure_eq_ok] at h
    subst h
    exact ⟨[], taken, .nil taken, .nil, rfl, by rw [List.append_nil]; rfl⟩
  | cons insn rest ih =>
    obtain ⟨expression, r, next, hresult, hnext, h⟩ := duplicateIn_cons_cases h
    have hcopies := (Renaming.tracks_renameReduction k insn.id).mapReductionsM insn.expression
      ⟨taken, []⟩
    rw [hresult] at hcopies
    obtain ⟨changed, taken', hcopied, hchanged, hdomain, hk'⟩ := ih h
    obtain ⟨hfirst, hnextEq⟩ := foldlM_addCopy hnext
    obtain ⟨hone, hcreated⟩ := hcopies
    have hall : Binder.copies (expressionBinders (insn :: rest))
        (expressionBinders ({ insn with expression := expression } :: changed)) =
          r.created ++ Binder.copies (expressionBinders rest) (expressionBinders changed) := by
      rw [hcreated]
      exact hone.copies_append
    refine ⟨{ insn with expression := expression } :: changed, taken', hone.append hcopied,
      .cons ⟨expression, rfl⟩ hchanged, ?_, ?_⟩
    · rw [hall]
      exact Polyhedron.duplicateAxes_append.mpr ⟨next.domain, hfirst, hdomain⟩
    · rw [hall, List.foldl_append, hk', hnextEq]
      simp only [List.append_assoc, List.singleton_append]

/-- What copying reduction indices does to a kernel. -/
theorem duplicateReductionInames_spec (h : k.duplicateReductionInames = .ok k') :
    (∃ taken, Copied k [] (expressionBinders k.instructions) (expressionBinders k'.instructions)
        taken) ∧
      List.Forall₂ (fun before after => ∃ e, after = { before with expression := e })
        k.instructions k'.instructions ∧
      k.domain.duplicateAxes (k.inameCopies k') = .ok k'.domain ∧
      k' = { k with
        domain := k'.domain
        instructions := k'.instructions
        tags := (k.inameCopies k').foldl (fun m copy => m.insert copy.2 .sequential) k.tags } := by
  obtain ⟨changed, taken, hcopied, hchanged, hdomain, hk'⟩ := duplicateIn_spec h
  have hinstructions : k'.instructions = changed := by rw [hk', List.nil_append]
  subst hinstructions
  exact ⟨⟨taken, hcopied⟩, hchanged, hdomain, hk'⟩

/-- Instructions that differ in their expressions have everything else in common. -/
theorem map_of_forall₂ {α : Type} {f : Instruction → α} {changed : List Instruction}
    (hf : ∀ insn e, f { insn with expression := e } = f insn)
    (h : List.Forall₂ (fun before after => ∃ e, after = { before with expression := e })
      insns changed) : changed.map f = insns.map f := by
  induction h with
  | nil => rfl
  | cons hone _ ih =>
    obtain ⟨e, rfl⟩ := hone
    rw [List.map_cons, List.map_cons, ih, hf]

private theorem exists_of_mem_forall₂ {changed : List Instruction}
    (h : List.Forall₂ (fun before after => ∃ e, after = { before with expression := e })
      insns changed) {after : Instruction} (hafter : after ∈ changed) :
    ∃ before ∈ insns, ∃ e, after = { before with expression := e } := by
  induction h with
  | nil => cases hafter
  | cons hone _ ih =>
    rcases List.mem_cons.mp hafter with rfl | hafter
    · exact ⟨_, List.mem_cons_self, hone⟩
    · obtain ⟨before, hbefore, he⟩ := ih hafter
      exact ⟨before, List.mem_cons_of_mem _ hbefore, he⟩

namespace WellFormed

/-- What the expressions of a well-formed kernel bind are dimensions. -/
theorem mem_dims_of_mem_expressionBinders (hwf : k.WellFormed) {b : Binder}
    (hb : b ∈ expressionBinders k.instructions) : b.name ∈ k.domain.dims := by
  obtain ⟨insn, hinsn, hb⟩ := List.mem_flatMap.mp hb
  exact (hwf.instructions insn hinsn).bound b (List.mem_append_right _ hb)

/-- The copies in a well-formed kernel are different new names for dimensions. -/
theorem inameCopies_spec (hwf : k.WellFormed) (h : k.duplicateReductionInames = .ok k') :
    ((k.inameCopies k').map Prod.snd).Nodup ∧
      ∀ copy ∈ k.inameCopies k', copy.1 ∈ k.domain.dims ∧ copy.2 ∉ k.names := by
  obtain ⟨⟨taken, hcopied⟩, -, -, -⟩ := duplicateReductionInames_spec h
  obtain ⟨hnodup, hfresh⟩ := hcopied.fresh
  refine ⟨hnodup, fun copy hcopy => ⟨?_, (hfresh _ (List.mem_map_of_mem hcopy)).1⟩⟩
  obtain ⟨b, hb, -, hname⟩ := Binder.fst_of_mem_copies hcopy
  exact hname ▸ hwf.mem_dims_of_mem_expressionBinders hb

/-- Copying reduction indices keeps a kernel well-formed. -/
theorem duplicateReductionInames (hwf : k.WellFormed) (h : k.duplicateReductionInames = .ok k') :
    k'.WellFormed := by
  obtain ⟨hnodup, hcopies⟩ := hwf.inameCopies_spec h
  obtain ⟨⟨taken, hcopied⟩, hchanged, hdomain, hk'⟩ := duplicateReductionInames_spec h
  have hdims := Polyhedron.dims_duplicateAxes hdomain
  have hmem : ∀ n, n ∈ k'.domain.dims ↔
      n ∈ k.domain.dims ∨ n ∈ (k.inameCopies k').map Prod.snd := by
    rw [hdims]
    exact fun n => List.mem_append
  have hnew : ∀ n ∈ (k.inameCopies k').map Prod.snd, n ∉ k.names := by
    intro n hn
    obtain ⟨copy, hcopy, rfl⟩ := List.mem_map.mp hn
    exact (hcopies copy hcopy).2
  have hids : k'.insnIds = k.insnIds := map_of_forall₂ (fun _ _ => rfl) hchanged
  have hscoped : ∀ insn ∈ k'.instructions, insn.Scoped k'.domain.dims k'.insnIds := by
    intro insn hinsn
    obtain ⟨before, hbefore, e, rfl⟩ := exists_of_mem_forall₂ hchanged hinsn
    have hold := (hwf.instructions before hbefore).mono (fun n hn => (hmem n).mpr (.inl hn))
      fun id hid => hids ▸ hid
    refine ⟨hold.deps, hold.forced, hold.boosted, fun b hb => ?_⟩
    rcases List.mem_append.mp hb with hassignee | hexpression
    · exact hold.bound b (List.mem_append_left _ hassignee)
    · refine (hmem _).mpr ((hcopied.of_mem ?_).imp_left hwf.mem_dims_of_mem_expressionBinders)
      exact List.mem_flatMap.mpr ⟨_, hinsn, hexpression⟩
  have hnodupDims : k'.domain.dims.Nodup := by
    rw [hdims]
    exact hwf.nodup_dims.append hnodup fun n hold hfresh =>
      hnew n hfresh (mem_names_of_mem_dims hold)
  have hnames := hwf.names_of_dims hnodupDims fun n hn => ((hmem n).mp hn).imp_right (hnew n)
  rw [hk'] at hmem hids hscoped hnames ⊢
  refine ⟨hnames, hwf.temporaries, fun n => ?_, hids ▸ hwf.ids, hscoped⟩
  have htags := SortedMap.contains_foldl_insert
    ((k.inameCopies k').map fun copy => (copy.2, IndexTag.sequential)) k.tags n
  rw [List.foldl_map, List.map_map] at htags
  rw [hmem, ← hwf.tags, or_comm]
  exact htags

end WellFormed

/-- Copies under different names can be given the values of what they copy. -/
private theorem exists_extension (x : String → Int) {copies : List (String × String)}
    (h : (copies.map Prod.snd).Nodup) : ∃ y : String → Int,
      (∀ copy ∈ copies, y copy.2 = x copy.1) ∧ ∀ n ∉ copies.map Prod.snd, y n = x n := by
  induction copies with
  | nil => exact ⟨x, by simp, fun _ _ => rfl⟩
  | cons copy rest ih =>
    rw [List.map_cons, List.nodup_cons] at h
    obtain ⟨y, hcopies, hothers⟩ := ih h.2
    refine ⟨Function.update y copy.2 (x copy.1), fun c hc => ?_, fun n hn => ?_⟩
    · rcases List.mem_cons.mp hc with rfl | hc
      · exact Function.update_self ..
      · have hne : c.2 ≠ copy.2 := fun he => h.1 (he ▸ List.mem_map_of_mem hc)
        rw [Function.update_of_ne hne, hcopies c hc]
    · rw [List.map_cons, List.mem_cons, not_or] at hn
      rw [Function.update_of_ne hn.1, hothers n hn.2]

/-- Copying reduction indices neither loses nor adds iterations. The new dimensions are the copies.
A point of the original domain becomes one of the new domain when every copy gets the value of the
index it copies; and at a point of the new domain every index may take the value of any of its
copies instead of its own. -/
theorem points_duplicateReductionInames (hwf : k.WellFormed)
    (h : k.duplicateReductionInames = .ok k') :
    k'.domain.dims = k.domain.dims ++ (k.inameCopies k').map Prod.snd ∧
      (∀ x : String → Int, k.domain.Holds x → ∃ y, k'.domain.Holds y ∧
        (∀ copy ∈ k.inameCopies k', y copy.2 = x copy.1) ∧
        ∀ n ∉ (k.inameCopies k').map Prod.snd, y n = x n) ∧
      ∀ y : String → Int, k'.domain.Holds y → ∀ choice : String → String,
        (∀ n ∈ k.domain.dims, choice n = n ∨ (n, choice n) ∈ k.inameCopies k') →
        (∀ n ∉ k.domain.dims, choice n = n) → k.domain.Holds (y ∘ choice) := by
  obtain ⟨hnodup, hcopies⟩ := hwf.inameCopies_spec h
  obtain ⟨-, -, hdomain, -⟩ := duplicateReductionInames_spec h
  refine ⟨Polyhedron.dims_duplicateAxes hdomain, fun x hx => ?_,
    fun y hy choice hdims hothers => ?_⟩
  · obtain ⟨y, hy, hothers⟩ := exists_extension x hnodup
    have hold : ∀ n ∈ k.names, y n = x n := by
      intro n hn
      apply hothers
      rintro hmem
      obtain ⟨copy, hcopy, rfl⟩ := List.mem_map.mp hmem
      exact (hcopies copy hcopy).2 hn
    refine ⟨y, ?_, hy, hothers⟩
    refine Polyhedron.holds_duplicateAxes hdomain (fun copy hcopy => ?_)
      ((holds_domain_congr hold).mpr hx)
    rw [hy copy hcopy, hold _ (mem_names_of_mem_dims (hcopies copy hcopy).1)]
  · refine Polyhedron.holds_of_duplicateAxes hdomain (fun copy hcopy other hother he => ?_) hy
      fun n => ?_
    · exact (hcopies copy hcopy).2 (he ▸ mem_names_of_mem_dims (hcopies other hother).1)
    · by_cases hn : n ∈ k.domain.dims
      · exact hdims n hn
      · exact .inl (hothers n hn)

/-- Sums over a triangle and over its sides, with copies of both of its indices. -/
def triangleSource : String :=
  "domain [i, j] : 0 <= i < n and 0 <= j <= i\n" ++
    "insn a: x = sum((@i, @j), i*j)\ninsn b: y[i] = sum(@j, j)\n"

/-- Copying the indices of a triangle adds no points: the copy of one index for the first sum may be
taken together with the copy of the other for the second one. -/
theorem points_duplicateReductionInames_triangle :
    ∃ k k', Source.load triangleSource .fermi = .ok k ∧ k.duplicateReductionInames = .ok k' ∧
      k'.domain.dims = ["i", "j", "i_a", "j_a", "j_b"] ∧
      ∀ y : String → Int, k'.domain.Holds y →
        k.domain.Holds (y ∘ fun n => if n = "i" then "i_a" else if n = "j" then "j_b" else n) := by
  obtain ⟨k, hload, k', hk, hdims, hcopies⟩ :
      ∃ k, Source.load triangleSource .fermi = .ok k ∧
        ∃ k', k.duplicateReductionInames = .ok k' ∧ k.domain.dims = ["i", "j"] ∧
          k.inameCopies k' = [("i", "i_a"), ("j", "j_a"), ("j", "j_b")] := by decide +kernel
  obtain ⟨hnew, -, hchoice⟩ := points_duplicateReductionInames (Source.wellFormed_of_load hload) hk
  refine ⟨k, k', hload, hk, ?_, fun y hy => hchoice y hy _ (fun n hn => ?_) fun n hn => ?_⟩
  · rw [hnew, hdims, hcopies]
    rfl
  · rw [hdims] at hn
    rw [hcopies]
    rcases List.mem_cons.mp hn with rfl | hn
    · decide
    · rw [List.mem_singleton.mp hn]
      decide
  · rw [hdims, List.mem_cons, List.mem_singleton, not_or] at hn
    rw [if_neg hn.1, if_neg hn.2]

end Kernel

end LoopKernel
