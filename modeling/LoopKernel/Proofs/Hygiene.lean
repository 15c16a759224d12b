import LoopKernel.Proofs.Iname.Mentions
import LoopKernel.Proofs.Iname.Split
import LoopKernel.Proofs.Reduction.Assignees
import LoopKernel.Proofs.Reduction.Duplication

/-!
# New names

The names that a transformation makes up: the copies of reduction indices, the accumulators, and the
two halves of a split index. They are different from each other and from everything that the kernel
declares. An expression may also mention what nothing declares; a new name coincides with such a
name only if that one reads like a name made up, and always if it is the first candidate that
nothing declares.
-/

namespace LoopKernel

/-! ## Candidates -/

namespace FreshName

/-- Whether a name may be chosen for a base: the base itself, or the base with a number. -/
def IsCandidate (base name : String) : Prop := name = base ∨ ∃ n, name = numbered base n

/-- What is chosen is a candidate. -/
theorem isCandidate_choose (taken : List String) (base : String) :
    IsCandidate base (choose taken base) := choose_eq taken base

/-- A candidate begins with its base. -/
theorem IsCandidate.isPrefix {base name : String} (h : IsCandidate base name) :
    base.toList <+: name.toList := by
  rcases h with rfl | ⟨n, rfl⟩
  · exact List.prefix_refl _
  · rw [numbered, String.toList_append, String.toList_append, List.append_assoc]
    exact List.prefix_append _ _

end FreshName

namespace Kernel

variable {k : Kernel} {bases names : List String} {base n : String}

/-- A fresh variable is a candidate for its base. -/
theorem isCandidate_freshVar (k : Kernel) (base : String) (others : List String) :
    FreshName.IsCandidate base (k.freshVar base others) := FreshName.isCandidate_choose _ _

/-- A fresh variable depends on the other names, not on their order. -/
theorem freshVar_congr {others others' : List String} (h : ∀ n, n ∈ others ↔ n ∈ others')
    (base : String) : k.freshVar base others = k.freshVar base others' :=
  FreshName.choose_congr (fun n => by rw [List.mem_append, List.mem_append, h]) base

/-- A fresh variable is the first candidate that nothing declares, unless that is one of the other
names. -/
theorem freshVar_cases (k : Kernel) (base : String) (others : List String) :
    k.freshVar base others = k.freshVar base [] ∨ k.freshVar base [] ∈ others := by
  rw [freshVar, freshVar, List.append_nil]
  exact FreshName.choose_append _ _ _

/-! ## Names for several bases -/

/-- The names that are made up for several bases one after the other, where some names are taken:
for each base the first candidate that is neither declared nor taken nor made up before. -/
def freshVars (k : Kernel) : (taken bases : List String) → List String
  | _, [] => []
  | taken, base :: rest =>
    k.freshVar base taken :: k.freshVars (k.freshVar base taken :: taken) rest

/-- Names for more bases are made up after the others. -/
theorem freshVars_append (k : Kernel) (taken bases more : List String) :
    k.freshVars taken (bases ++ more) = k.freshVars taken bases ++
      k.freshVars ((k.freshVars taken bases).reverse ++ taken) more := by
  induction bases generalizing taken with
  | nil => rfl
  | cons base rest ih =>
    rw [List.cons_append, freshVars, freshVars, ih, List.reverse_cons, List.append_assoc]
    rfl

/-- Made up names are different from each other, and they are new. -/
theorem nodup_freshVars (k : Kernel) (taken bases : List String) :
    (k.freshVars taken bases).Nodup ∧
      ∀ n ∈ k.freshVars taken bases, n ∉ k.names ∧ n ∉ taken := by
  induction bases generalizing taken with
  | nil => exact ⟨List.nodup_nil, fun _ hn => absurd hn List.not_mem_nil⟩
  | cons base rest ih =>
    obtain ⟨hnodup, hnew⟩ := ih (k.freshVar base taken :: taken)
    rw [freshVars, List.nodup_cons, List.forall_mem_cons]
    refine ⟨⟨fun hmem => (hnew _ hmem).2 List.mem_cons_self, hnodup⟩,
      k.freshVar_not_mem base taken, fun n hn => ⟨(hnew n hn).1, fun hmem => ?_⟩⟩
    exact (hnew n hn).2 (List.mem_cons_of_mem _ hmem)

/-- Every made up name is a candidate for one of the bases. -/
theorem exists_base_of_mem_freshVars {taken : List String} (h : n ∈ k.freshVars taken bases) :
    ∃ base ∈ bases, FreshName.IsCandidate base n := by
  induction bases generalizing taken with
  | nil => cases h
  | cons base rest ih =>
    rcases List.mem_cons.mp h with rfl | h
    · exact ⟨base, List.mem_cons_self, k.isCandidate_freshVar base taken⟩
    · obtain ⟨other, hother, hcandidate⟩ := ih h
      exact ⟨other, List.mem_cons_of_mem _ hother, hcandidate⟩

/-- The first candidate for a base that nothing declares is made up for it, or it was before. -/
theorem freshVar_mem_freshVars {taken : List String} (h : base ∈ bases) :
    k.freshVar base [] ∈ k.freshVars taken bases ∨ k.freshVar base [] ∈ taken := by
  induction bases generalizing taken with
  | nil => cases h
  | cons other rest ih =>
    rw [freshVars, List.mem_cons]
    rcases List.mem_cons.mp h with rfl | h
    · exact (k.freshVar_cases base taken).imp_left fun heq => .inl heq.symm
    · rcases ih h with hmem | hmem
      · exact .inl (.inr hmem)
      · exact (List.mem_cons.mp hmem).imp_left .inl

/-! ## Hygiene -/

/-- Whether an instruction mentions something that nothing declares, under a name that may be chosen
for a base. -/
def Exposes (k : Kernel) (base : String) : Prop :=
  ∃ insn ∈ k.instructions, ∃ n, insn.Mentions n ∧ n ∉ k.names ∧ FreshName.IsCandidate base n

/-- Whether names are those that are made up for some bases one after the other, are different from
each other, are declared nowhere in a kernel, and are mentioned nowhere in it if it exposes no
base. -/
structure Hygienic (k : Kernel) (bases names : List String) : Prop where
  chosen : names = k.freshVars [] bases
  nodup : names.Nodup
  undeclared : ∀ n ∈ names, n ∉ k.names
  unmentioned : (∀ base ∈ bases, ¬k.Exposes base) →
    ∀ n ∈ names, ∀ insn ∈ k.instructions, ¬insn.Mentions n

/-- Names made up one after the other are hygienic. -/
theorem hygienic_freshVars (k : Kernel) (bases : List String) :
    k.Hygienic bases (k.freshVars [] bases) := by
  obtain ⟨hnodup, hnew⟩ := k.nodup_freshVars [] bases
  refine ⟨rfl, hnodup, fun n hn => (hnew n hn).1, fun hexposes n hn insn hinsn hmentions => ?_⟩
  obtain ⟨base, hbase, hcandidate⟩ := exists_base_of_mem_freshVars hn
  exact hexposes base hbase ⟨insn, hinsn, n, hmentions, (hnew n hn).1, hcandidate⟩

/-- What an exposed base captures: an instruction that mentions the first candidate for one of the
bases that nothing declares mentions one of the names that are made up. -/
theorem Hygienic.captures (h : k.Hygienic bases names) (hbase : base ∈ bases) {insn : Instruction}
    (hmentions : insn.Mentions (k.freshVar base [])) : ∃ n ∈ names, insn.Mentions n := by
  have hmade : k.freshVar base [] ∈ k.freshVars [] bases ∨ k.freshVar base [] ∈ [] :=
    freshVar_mem_freshVars hbase
  rcases hmade with hmem | hmem
  · exact ⟨_, h.chosen ▸ hmem, hmentions⟩
  · cases hmem

end Kernel

/-! ## Copies of reduction indices -/

namespace Renaming

variable {k : Kernel} {insn : String}

/-- The bases of the names that copies of marked indices get for an instruction. -/
def copyBases (insn : String) (binders : List Binder) : List String :=
  (binders.filter Binder.isMarked).map fun b => b.name ++ "_" ++ insn

/-- Whether copies have the names that are made up for them one after the other. -/
def ChosenFor (k : Kernel) (insn : String) (taken : List String) (before after : List Binder) :
    Prop :=
  (Binder.copies before after).map Prod.snd = k.freshVars taken (copyBases insn before)

namespace ChosenFor

variable {taken taken' : List String} {before after before' after' : List Binder} {b : Binder}

theorem nil (taken : List String) : ChosenFor k insn taken [] [] := rfl

theorem kept (hb : b.isMarked = false) (h : ChosenFor k insn taken before after) :
    ChosenFor k insn taken (b :: before) (b :: after) := by
  unfold ChosenFor copyBases
  rw [Binder.copies_cons_of_not_isMarked hb, List.filter_cons_of_neg (by simp [hb])]
  exact h

theorem copy (hb : b.isMarked = true)
    (h : ChosenFor k insn (k.freshVar (b.name ++ "_" ++ insn) taken :: taken) before after) :
    ChosenFor k insn taken (b :: before)
      (⟨k.freshVar (b.name ++ "_" ++ insn) taken, 0⟩ :: after) := by
  unfold ChosenFor copyBases
  rw [Binder.copies_cons_of_isMarked hb, List.filter_cons_of_pos hb, List.map_cons, List.map_cons,
    Kernel.freshVars]
  exact congrArg _ h

theorem append (h : ChosenFor k insn taken before after)
    (hcopied : Copied k taken before after taken') (h' : ChosenFor k insn taken' before' after') :
    ChosenFor k insn taken (before ++ before') (after ++ after') := by
  unfold ChosenFor at h h' ⊢
  rw [hcopied.copies_append, List.map_append, h', hcopied.taken_eq, h, copyBases, copyBases,
    copyBases, List.filter_append, List.map_append, Kernel.freshVars_append]

end ChosenFor

/-- The copies of the marked binders in a list get the names made up for them. -/
theorem chosenFor_copyMarked (k : Kernel) (insn : String) (binders : List Binder) (r : Renaming) :
    ChosenFor k insn r.generated binders (copyMarked k insn binders r).1.1 := by
  induction binders generalizing r with
  | nil => exact .nil _
  | cons b rest ih =>
    unfold copyMarked
    split
    · next hb => exact .copy hb (ih (Renaming.copy k insn b.name r).2)
    · next hb => exact .kept (Bool.not_eq_true _ ▸ hb) (ih r)

/-- The copies made for an expression get the names made up for them. -/
theorem tracks_chosenFor (k : Kernel) (insn : String) :
    Expr.Tracks (renameReduction k insn) fun r before after s =>
      Copies k r before after s ∧ ChosenFor k insn r.generated before after where
  nil r := ⟨.nil r, .nil _⟩
  append h h' := ⟨h.1.append h'.1, h.2.append h.1.1 h'.2⟩
  reduction := by
    rintro r s bs op binders body ⟨hbody, hchosen⟩
    refine ⟨(tracks_renameReduction k insn).reduction op binders body hbody, ?_⟩
    obtain ⟨-, hvalues⟩ := copyMarked_spec k insn binders s
    have hsame : (renameReduction k insn op binders body s).1.binders =
        body.binders ++ (copyMarked k insn binders s).1.1 :=
      congrArg (· ++ _) (Expr.binders_substitute hvalues body)
    rw [hsame]
    exact hchosen.append hbody.1 (chosenFor_copyMarked k insn binders s)

end Renaming

namespace Kernel

variable {k k' out : Kernel} {insns : List Instruction} {taken : List String}

/-- The bases of the names that copies of reduction indices get. -/
def copyBases (insns : List Instruction) : List String :=
  insns.flatMap fun insn => Renaming.copyBases insn.id insn.expression.binders

/-- The copies made for several instructions get the names made up for them. -/
theorem chosen_of_duplicateIn (h : k.duplicateIn insns taken out = .ok k') :
    ∃ changed, k'.instructions = out.instructions ++ changed ∧
      (Binder.copies (expressionBinders insns) (expressionBinders changed)).map Prod.snd =
        k.freshVars taken (copyBases insns) := by
  induction insns generalizing taken out with
  | nil =>
    rw [duplicateIn, Attempt.pure_eq_ok] at h
    exact ⟨[], h ▸ (List.append_nil _).symm, rfl⟩
  | cons insn rest ih =>
    obtain ⟨expression, r, next, hresult, hnext, h⟩ := duplicateIn_cons_cases h
    have hone := (Renaming.tracks_chosenFor k insn.id).mapReductionsM insn.expression ⟨taken, []⟩
    rw [hresult] at hone
    obtain ⟨⟨hcopied, -⟩, hchosen⟩ := hone
    obtain ⟨changed, hinstructions, hrest⟩ := ih h
    have hsame : next.instructions = out.instructions := by rw [(foldlM_addCopy hnext).2]
    refine ⟨{ insn with expression := expression } :: changed, ?_, ?_⟩
    · rw [hinstructions, hsame, List.append_assoc, List.singleton_append]
    · have hbases : copyBases (insn :: rest) =
          Renaming.copyBases insn.id insn.expression.binders ++ copyBases rest := rfl
      change (Binder.copies (insn.expression.binders ++ _) (expression.binders ++ _)).map _ = _
      rw [hcopied.copies_append, List.map_append, hchosen, hbases, freshVars_append, ← hchosen,
        ← hcopied.taken_eq]
      exact congrArg _ hrest

/-- The copies of reduction indices are hygienic. -/
theorem hygienic_inameCopies (h : k.duplicateReductionInames = .ok k') :
    k.Hygienic (copyBases k.instructions) ((k.inameCopies k').map Prod.snd) := by
  obtain ⟨changed, hinstructions, hchosen⟩ := chosen_of_duplicateIn h
  rw [List.nil_append] at hinstructions
  subst hinstructions
  exact hchosen ▸ k.hygienic_freshVars _

end Kernel

/-! ## Accumulators -/

/-- Whether names are those of the accumulators that one kernel has for the reductions of another:
the temporaries that are new, to which the instructions that are new assign, two by two. -/
structure Kernel.Accumulates (k k' : Kernel) (accumulators : List String) : Prop where
  temporaries : ∀ n, k'.temporaries.contains n = true ↔
    k.temporaries.contains n = true ∨ n ∈ accumulators
  targets : (k'.instructions.filter fun insn => !k.insnIds.contains insn.id).map
    Instruction.target = accumulators.flatMap fun a => [a, a]

namespace Realization

variable {k : Kernel} {r s : Realization} {accumulators : List String}

/-- The targets of the instructions that were made for reductions. -/
def newTargets (k : Kernel) (r : Realization) : List String :=
  (r.emitted.filter fun insn => !k.insnIds.contains insn.id).map Instruction.target

/-- What holds of the names of the accumulators made so far. -/
structure Accumulates (k : Kernel) (r : Realization) (accumulators : List String) : Prop where
  chosen : accumulators = k.freshVars [] (List.replicate accumulators.length "acc")
  temporaries : ∀ n, r.temporaries.contains n = true ↔ n ∈ accumulators
  targets : r.newTargets k = accumulators.flatMap fun a => [a, a]

/-- New instructions with new ids add their targets. -/
theorem newTargets_append {new : List Instruction} (hemitted : s.emitted = r.emitted ++ new)
    (hids : ∀ insn ∈ new, insn.id ∉ k.insnIds) :
    s.newTargets k = r.newTargets k ++ new.map Instruction.target := by
  have hall : new.filter (fun insn => !k.insnIds.contains insn.id) = new :=
    List.filter_eq_self.mpr fun insn hinsn => by simpa using hids insn hinsn
  rw [newTargets, newTargets, hemitted, List.filter_append, hall, List.map_append]

/-- An instruction of the kernel adds nothing. -/
theorem newTargets_of_mem_insnIds {insn : Instruction} (hemitted : s.emitted = r.emitted ++ [insn])
    (hid : insn.id ∈ k.insnIds) : s.newTargets k = r.newTargets k := by
  have hnone : [insn].filter (fun insn => !k.insnIds.contains insn.id) = [] := by simpa using hid
  rw [newTargets, newTargets, hemitted, List.filter_append, hnone, List.append_nil]

/-- A reduction gets one accumulator more. -/
theorem Accumulates.realize (h : Accumulates k r accumulators) (owner : ReductionOwner)
    (op : ReductionOp) (binders : List Binder) (body : Expr) :
    ∃ a, Accumulates k (Realization.realize k owner op binders body r).2 (accumulators ++ [a]) := by
  obtain ⟨a, initId, updateId, s, hrealize, ha, htemporaries, hinit, hupdate, -, -, hemitted⟩ :=
    realize_spec k owner op binders body r
  -- What is taken is what was made up before.
  have hnext : a = k.freshVar "acc" (accumulators.reverse ++ []) := by
    refine ha.trans (Kernel.freshVar_congr (fun n => ?_) "acc")
    rw [SortedMap.mem_keys, h.temporaries, List.append_nil, List.mem_reverse]
  rw [hrealize]
  refine ⟨a, ?_, fun n => ?_, ?_⟩
  · rw [List.length_append, List.length_singleton, List.replicate_succ', Kernel.freshVars_append,
      ← h.chosen, hnext]
    rfl
  · rw [htemporaries, SortedMap.contains_insert, Bool.or_eq_true, beq_iff_eq, h.temporaries,
      List.mem_append, List.mem_singleton, or_comm]
  · have hids : ∀ insn ∈ [initInsn initId (owner.element a) op
            (outerInames k owner (Expr.boundNames binders) body) (Expr.boundNames binders),
          updateInsn updateId ((owner.deps.add initId).addAll (updatesRead r.updates body))
            (owner.element a) op body (outerInames k owner (Expr.boundNames binders) body)
            (Expr.boundNames binders)], insn.id ∉ k.insnIds :=
      List.forall_mem_cons.mpr ⟨hinit.1, List.forall_mem_singleton.mpr hupdate.1⟩
    rw [newTargets_append hemitted hids, h.targets, List.flatMap_append, List.flatMap_singleton,
      List.map_cons, List.map_singleton, ReductionOwner.target_of_element rfl,
      ReductionOwner.target_of_element rfl]

/-- Every reduction of an expression gets an accumulator. -/
theorem tracks_accumulates (k : Kernel) (owner : ReductionOwner) :
    Expr.Tracks (Realization.realize k owner) fun r _ _ s =>
      ∀ accumulators, Accumulates k r accumulators → ∃ all, Accumulates k s all where
  nil _ := fun accumulators h => ⟨accumulators, h⟩
  append := by
    intro r s t _ _ _ _ hfirst hsecond accumulators h
    obtain ⟨middle, hmiddle⟩ := hfirst accumulators h
    exact hsecond middle hmiddle
  reduction := by
    intro r s _ op binders body hbody accumulators h
    obtain ⟨middle, hmiddle⟩ := hbody accumulators h
    obtain ⟨a, hall⟩ := hmiddle.realize owner op binders body
    exact ⟨middle ++ [a], hall⟩

/-- Realizing an owner adds the accumulators of its reductions. -/
theorem Accumulates.realizeOwner {insn : Instruction} (h : Accumulates k r accumulators)
    (hinsn : insn ∈ k.instructions) (hs : k.realizeOwner r insn = .ok s) :
    ∃ all, Accumulates k s all := by
  obtain ⟨lanes, expression, t, -, hmap, rfl⟩ := Kernel.exists_lanes_of_realizeOwner hs
  obtain ⟨all, hall⟩ := (tracks_accumulates k
    ⟨insn.id, insn.deps, k.insnInames insn, lanes⟩).mapReductionsM insn.expression
      { r with updates := ∅ } accumulators ⟨h.chosen, h.temporaries, h.targets⟩
  rw [hmap] at hall
  have hid : insn.id ∈ k.insnIds := List.mem_map_of_mem hinsn
  refine ⟨all, hall.chosen, hall.temporaries, ?_⟩
  refine (newTargets_of_mem_insnIds rfl ?_).trans hall.targets
  exact hid

end Realization

namespace Kernel

variable {k k' : Kernel} {iname : String} {length : Int} {outerTag innerTag : Option IndexTag}

/-- The accumulators are hygienic. -/
theorem hygienic_accumulators (h : k.realizeReduction = .ok k') :
    ∃ accumulators, k.Accumulates k' accumulators ∧
      k.Hygienic (List.replicate accumulators.length "acc") accumulators := by
  obtain ⟨r, hr, rfl, -⟩ := exists_of_realizeReduction h
  obtain ⟨accumulators, hr⟩ : ∃ accumulators, Realization.Accumulates k r accumulators := by
    apply Attempt.foldlM_induction
      (P := fun _ r => ∃ accumulators, Realization.Accumulates k r accumulators) _ _ hr
    · exact ⟨[], rfl, by simp, rfl⟩
    · rintro _ r insn s hinsn ⟨accumulators, hdone⟩ hs
      exact hdone.realizeOwner hinsn hs
  have hhygienic := k.hygienic_freshVars (List.replicate accumulators.length "acc")
  rw [← hr.chosen] at hhygienic
  refine ⟨accumulators, ⟨fun n => ?_, hr.targets⟩, hhygienic⟩
  rw [SortedMap.contains_foldl_insert, ← hr.temporaries, or_comm]
  exact or_congr_right SortedMap.mem_keys

/-! ## Halves of a split index -/

/-- The two indices that replace a split one are hygienic. -/
theorem hygienic_halves (k : Kernel) (iname : String) (length : Int) :
    k.Hygienic [iname ++ "_outer", iname ++ "_inner"]
      [(k.indexSplit iname length).outer, (k.indexSplit iname length).inner] :=
  k.hygienic_freshVars _

/-- After a split the dimensions are the old ones with the two new indices for the split one. -/
theorem dims_splitIname (h : k.splitIname iname length outerTag innerTag = .ok k') :
    k'.domain.dims = (k.indexSplit iname length).splitDims k.domain.dims := by
  obtain ⟨hiname, -, domain, hdomain, rfl⟩ := splitIname_spec h
  obtain ⟨-, -, -, hdims, -⟩ := IndexSplit.splitDomain_spec hdomain fun he =>
    k.inner_indexSplit_not_mem iname length (mem_names_of_mem_dims (he ▸ hiname))
  exact hdims

/-- The names that a transformation makes up are hygienic: the dimensions that copies of reduction
indices add, the accumulators for reductions, and the dimensions that replace a split index. -/
theorem hygienic_new_names (k : Kernel) :
    (∀ k', k.duplicateReductionInames = .ok k' →
      k'.domain.dims = k.domain.dims ++ (k.inameCopies k').map Prod.snd ∧
        k.Hygienic (copyBases k.instructions) ((k.inameCopies k').map Prod.snd)) ∧
    (∀ k', k.realizeReduction = .ok k' →
      ∃ accumulators, k.Accumulates k' accumulators ∧
        k.Hygienic (List.replicate accumulators.length "acc") accumulators) ∧
    ∀ iname length outerTag innerTag k',
      k.splitIname iname length outerTag innerTag = .ok k' →
        k'.domain.dims = (k.indexSplit iname length).splitDims k.domain.dims ∧
          k.Hygienic [iname ++ "_outer", iname ++ "_inner"]
            [(k.indexSplit iname length).outer, (k.indexSplit iname length).inner] := by
  refine ⟨fun k' h => ⟨?_, hygienic_inameCopies h⟩, fun k' h => hygienic_accumulators h,
    fun iname length outerTag innerTag k' h => ⟨dims_splitIname h, k.hygienic_halves iname length⟩⟩
  obtain ⟨-, -, hdomain, -⟩ := duplicateReductionInames_spec h
  exact Polyhedron.dims_duplicateAxes hdomain

/-- Weighted sums of rows, with a weight that nothing declares. -/
def weightedRowSumSource : String :=
  "domain [i, j] : 0 <= i < 8 and 0 <= j < 4
arg global int32 a[8, 4]
arg global int32 x[8]
" ++
    "insn s: x[i] = weight*sum(@j, a[i, j])
"

/-- The new names for it occur nowhere in it: those of the two halves of its index `i`, that of the
copy of `j`, and that of the accumulator. -/
theorem hygienic_new_names_weightedRowSum :
    ∃ k copied realized split accumulators, Source.load weightedRowSumSource .fermi = .ok k ∧
      k.duplicateReductionInames = .ok copied ∧ k.realizeReduction = .ok realized ∧
      k.splitIname "i" 4 none none = .ok split ∧ k.inameCopies copied = [("j", "j_s")] ∧
      k.Accumulates realized accumulators ∧ accumulators.Nodup ∧
      ∀ n ∈ ["j_s", "i_outer", "i_inner"] ++ accumulators,
        n ∉ k.names ∧ ∀ insn ∈ k.instructions, ¬insn.Mentions n := by
  obtain ⟨k, hload, hbases, houter, hinner, hmentions, hrealizes, hsplits, copied, hcopied,
      hcopies⟩ :
      ∃ k, Source.load weightedRowSumSource .fermi = .ok k ∧
        copyBases k.instructions = ["j_s"] ∧ (k.indexSplit "i" 4).outer = "i_outer" ∧
        (k.indexSplit "i" 4).inner = "i_inner" ∧
        (∀ insn ∈ k.instructions, ∀ n ∈ insn.expression.dependencies.toList ++
          insn.assignee.dependencies.toList, n ∈ k.names ∨ n = "weight") ∧
        k.realizeReduction.isOk = true ∧ (k.splitIname "i" 4 none none).isOk = true ∧
        ∃ copied, k.duplicateReductionInames = .ok copied ∧
          k.inameCopies copied = [("j", "j_s")] := by decide +kernel
  obtain ⟨realized, hrealized⟩ := Attempt.exists_eq_ok hrealizes
  obtain ⟨split, hsplit⟩ := Attempt.exists_eq_ok hsplits
  have hexposes : ∀ base : String, ¬base.toList <+: "weight".toList → ¬k.Exposes base := by
    rintro base hbase ⟨insn, hinsn, n, hn, hnew, hcandidate⟩
    have hmem : n ∈ insn.expression.dependencies.toList ++ insn.assignee.dependencies.toList := by
      rwa [List.mem_append, NameSet.mem_toList, NameSet.mem_toList]
    rcases hmentions insn hinsn n hmem with hold | rfl
    · exact hnew hold
    · exact hbase hcandidate.isPrefix
  obtain ⟨hduplicated, haccumulated, hhalved⟩ := k.hygienic_new_names
  obtain ⟨-, hcopy⟩ := hduplicated copied hcopied
  obtain ⟨accumulators, haccumulates, hacc⟩ := haccumulated realized hrealized
  obtain ⟨-, hhalves⟩ := hhalved "i" 4 none none split hsplit
  rw [hcopies, hbases] at hcopy
  rw [houter, hinner] at hhalves
  have hcopyNew := hcopy.unmentioned (List.forall_mem_singleton.mpr (hexposes _ (by decide)))
  have haccNew := hacc.unmentioned fun base hbase =>
    (List.mem_replicate.mp hbase).2 ▸ hexposes "acc" (by decide)
  have hhalvesNew := hhalves.unmentioned (List.forall_mem_cons.mpr ⟨hexposes _ (by decide),
    List.forall_mem_singleton.mpr (hexposes _ (by decide))⟩)
  refine ⟨k, copied, realized, split, accumulators, hload, hcopied, hrealized, hsplit, hcopies,
    haccumulates, hacc.nodup, fun n hn => ?_⟩
  rcases List.mem_append.mp hn with hn | hn
  · rcases List.mem_cons.mp hn with rfl | hn
    · exact ⟨hcopy.undeclared _ List.mem_cons_self, hcopyNew _ List.mem_cons_self⟩
    · exact ⟨hhalves.undeclared n hn, hhalvesNew n hn⟩
  · exact ⟨hacc.undeclared n hn, haccNew n hn⟩

end Kernel

end LoopKernel
