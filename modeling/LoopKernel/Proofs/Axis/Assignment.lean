import LoopKernel.Axis.Assignment
import LoopKernel.Proofs.Axis.Ranking
import LoopKernel.Proofs.Iname.Split
import Mathlib.Logic.Relation

/-!
# Choosing axes step by step

Choosing axes is a sequence of decisions. Each one is about an index that an instruction runs over
and whose axis is open: the index becomes sequential, gets an axis that no instruction running over
it uses yet, or is split onto such an axis. There is one open index less after it, so the sequence
ends, and it ends only when no instruction runs over an index whose axis is open.
-/

namespace LoopKernel.Kernel

/-- Whether an instruction runs over an index. -/
def RunsOver (k : Kernel) (n : String) : Prop := ∃ insn ∈ k.instructions, n ∈ k.insnInames insn

/-- Whether an index may get a local axis: instructions run over it, its axis is open, and no
instruction that runs over it uses the axis. -/
structure MayTake (k : Kernel) (n : String) (axis : Nat) : Prop where
  auto : (k.tag n).isAuto = true
  runs : k.RunsOver n
  free : axis ∉ k.axesAlongside n

/-- One decision, for local axes of given lengths. -/
inductive AxisStep (lengths : List Int) : Kernel → Kernel → Prop where
  | demote {k : Kernel} {n : String} (hauto : (k.tag n).isAuto = true) (hruns : k.RunsOver n) :
      AxisStep lengths k { k with tags := k.tags.insert n .sequential }
  | assign {k : Kernel} {n : String} {axis : Nat} {available length : Int}
      (hmay : k.MayTake n axis) (havailable : lengths[axis]? = some available)
      (hlength : k.inameLength n = .ok length) (hfits : length ≤ available) :
      AxisStep lengths k { k with tags := k.tags.insert n (.localAxis axis) }
  | split {k k' : Kernel} {n : String} {axis : Nat} {available : Int}
      (hmay : k.MayTake n axis) (havailable : lengths[axis]? = some available)
      (hsplit : k.splitIname n available (some .unroll) (some (.localAxis axis)) = .ok k') :
      AxisStep lengths k k'

variable {k k' : Kernel} {lengths : List Int} {insn : Instruction} {n : String}

/-! ## Finding a decision -/

theorem mem_openInames :
    n ∈ k.openInames insn ↔ n ∈ k.insnInames insn ∧ (k.tag n).isAuto = true := by
  rw [openInames, List.mem_filter, NameSet.mem_toList]

/-- Which local axes are used alongside an index. -/
theorem mem_axesAlongside {axis : Nat} : axis ∈ k.axesAlongside n ↔
    ∃ insn ∈ k.instructions, n ∈ k.insnInames insn ∧
      ∃ m ∈ k.insnInames insn, (k.tag m).localAxis? = some axis := by
  simp only [axesAlongside, localAxesOf, List.mem_flatMap, List.mem_filter, List.mem_map,
    List.mem_filterMap, NameSet.mem_toList, NameSet.contains_iff]
  constructor
  · rintro ⟨_, ⟨⟨insn, hinsn, rfl⟩, hn⟩, haxis⟩
    exact ⟨insn, hinsn, hn, haxis⟩
  · rintro ⟨insn, hinsn, hn, haxis⟩
    exact ⟨_, ⟨⟨insn, hinsn, rfl⟩, hn⟩, haxis⟩

/-- Whether a decision is about an index of an instruction, and an axis that is decided on is free
alongside it. -/
structure Permits (k : Kernel) (lengths : List Int) (d : AxisDecision) : Prop where
  runs : k.RunsOver d.iname
  used : d.used = k.axesAlongside d.iname
  free : ∀ axis, d.axis = some axis → axis < lengths.length ∧ axis ∉ k.axesAlongside d.iname

/-- Among several indices there is a longest one. -/
theorem longest_spec {names : List String} {best result : Option (String × Int)}
    (h : k.longest names best = .ok result) :
    (result = none → names = [] ∧ best = none) ∧
      ∀ n length, result = some (n, length) → n ∈ names ∨ best = some (n, length) := by
  induction names generalizing best with
  | nil =>
    rw [longest, Attempt.pure_eq_ok] at h
    rw [h]
    exact ⟨fun hnone => ⟨rfl, hnone⟩, fun _ _ hsome => .inr hsome⟩
  | cons iname rest ih =>
    rw [longest, Attempt.bind_eq_ok] at h
    obtain ⟨length, -, h⟩ := h
    cases best with
    | none =>
      obtain ⟨hnone, hsome⟩ := ih h
      refine ⟨fun hr => by simpa using (hnone hr).2, fun n l hr => ?_⟩
      rcases hsome n l hr with hmem | hfirst
      · exact .inl (List.mem_cons_of_mem iname hmem)
      · cases hfirst
        exact .inl List.mem_cons_self
    | some before =>
      obtain ⟨hnone, hsome⟩ := ih h
      refine ⟨fun hr => by simpa using (hnone hr).2, fun n l hr => ?_⟩
      rcases hsome n l hr with hmem | hbest
      · exact .inl (List.mem_cons_of_mem iname hmem)
      · split at hbest
        · cases hbest
          exact .inl List.mem_cons_self
        · exact .inr hbest

/-- A decision for an instruction is about an open index of it, and an axis that is decided on is
free alongside the index. -/
theorem of_decideFor {axis : Nat} {d : AxisDecision}
    (h : k.decideFor axis lengths insn = .ok (some d)) :
    d.iname ∈ k.openInames insn ∧ d.used = k.axesAlongside d.iname ∧
      ∀ a, d.axis = some a → a < lengths.length ∧ a ∉ k.axesAlongside d.iname := by
  unfold decideFor at h
  simp only at h
  split at h
  · simp at h
  · split at h
    · next haxis =>
      split at h
      · simp at h
      · rw [Attempt.bind_eq_ok] at h
        obtain ⟨ranking, hranking, h⟩ := h
        cases ranking with
        | none => simp at h
        | some ranking =>
          rw [Attempt.pure_eq_ok, pickForAxis, Option.map_eq_some_iff] at h
          obtain ⟨iname, hfound, rfl⟩ := h
          obtain ⟨hmem, hauto⟩ := List.mem_filter.mp (List.mem_of_find?_eq_some hfound)
          have hfree : axis ∉ k.axesAlongside iname := by
            simpa using List.find?_some hfound
          have hranked := (perm_of_strideRanking (Attempt.liftM_eq_ok.mp hranking)).subset hmem
          refine ⟨mem_openInames.mpr ⟨NameSet.mem_toList.mp hranked, hauto⟩, rfl, fun a ha => ?_⟩
          cases ha
          exact ⟨haxis, hfree⟩
    · rw [Attempt.bind_eq_ok] at h
      obtain ⟨longest, hlongest, h⟩ := h
      cases longest with
      | none => simp at h
      | some found =>
        rw [Attempt.pure_eq_ok, Option.some.injEq] at h
        subst h
        have hopen := ((longest_spec hlongest).2 found.1 found.2 rfl).resolve_right (by simp)
        exact ⟨hopen, rfl, fun a ha => by cases ha⟩

/-- A decision for an instruction can be carried out. -/
theorem permits_of_decideFor {axis : Nat} {d : AxisDecision} (hinsn : insn ∈ k.instructions)
    (h : k.decideFor axis lengths insn = .ok (some d)) : k.Permits lengths d := by
  obtain ⟨hopen, hused, hfree⟩ := of_decideFor h
  exact ⟨⟨insn, hinsn, (mem_openInames.mp hopen).1⟩, hused, hfree⟩

/-- There is a decision for what is left over as long as an index of the instruction is open. -/
theorem openInames_eq_nil_of_decideFor
    (h : k.decideFor lengths.length lengths insn = .ok none) : k.openInames insn = [] := by
  unfold decideFor at h
  simp only [lt_irrefl, if_false] at h
  split at h
  · next hempty => exact List.isEmpty_iff.mp hempty
  · rw [Attempt.bind_eq_ok] at h
    obtain ⟨longest, hlongest, h⟩ := h
    cases longest with
    | none => exact ((longest_spec hlongest).1 rfl).1
    | some found => simp at h

/-- The first decision for one of several instructions is one for such an instruction, and there is
none only if there is none for each. -/
theorem decideAmong_spec {axis : Nat} {insns : List Instruction} {result : Option AxisDecision}
    (h : k.decideAmong axis lengths insns = .ok result) :
    (∀ d, result = some d → ∃ insn ∈ insns, k.decideFor axis lengths insn = .ok (some d)) ∧
      (result = none → ∀ insn ∈ insns, k.decideFor axis lengths insn = .ok none) := by
  induction insns with
  | nil =>
    rw [decideAmong, Attempt.pure_eq_ok] at h
    subst h
    exact ⟨fun d hd => absurd hd (by simp), fun _ insn hinsn => absurd hinsn List.not_mem_nil⟩
  | cons first rest ih =>
    rw [decideAmong, Attempt.bind_eq_ok] at h
    obtain ⟨decision, hdecision, h⟩ := h
    cases decision with
    | some d =>
      rw [Attempt.pure_eq_ok] at h
      subst h
      refine ⟨fun e he => ?_, fun hnone => by cases hnone⟩
      cases he
      exact ⟨first, List.mem_cons_self, hdecision⟩
    | none =>
      obtain ⟨hsome, hnone⟩ := ih h
      refine ⟨fun d hd => ?_, fun hr => List.forall_mem_cons.mpr ⟨hdecision, hnone hr⟩⟩
      obtain ⟨insn, hinsn, hfor⟩ := hsome d hd
      exact ⟨insn, List.mem_cons_of_mem first hinsn, hfor⟩

/-- The first decision for one of several axes is one for such an axis, and there is none only if
there is none for each. -/
theorem decideOver_spec {axes : List Nat} {result : Option AxisDecision}
    (h : k.decideOver lengths axes = .ok result) :
    (∀ d, result = some d → k.Permits lengths d) ∧
      (result = none → ∀ axis ∈ axes, ∀ insn ∈ k.instructions,
        k.decideFor axis lengths insn = .ok none) := by
  induction axes with
  | nil =>
    rw [decideOver, Attempt.pure_eq_ok] at h
    subst h
    exact ⟨fun d hd => absurd hd (by simp), fun _ axis haxis => absurd haxis List.not_mem_nil⟩
  | cons axis rest ih =>
    rw [decideOver, Attempt.bind_eq_ok] at h
    obtain ⟨decision, hdecision, h⟩ := h
    obtain ⟨hsome, hnone⟩ := decideAmong_spec hdecision
    cases decision with
    | some d =>
      rw [Attempt.pure_eq_ok] at h
      subst h
      refine ⟨fun e he => ?_, fun hr => by cases hr⟩
      cases he
      obtain ⟨insn, hinsn, hfor⟩ := hsome d rfl
      exact permits_of_decideFor hinsn hfor
    | none =>
      obtain ⟨hsound, hrest⟩ := ih h
      exact ⟨hsound, fun hr => List.forall_mem_cons.mpr ⟨hnone rfl, hrest hr⟩⟩

/-- A next decision can be carried out. -/
theorem permits_of_nextDecision {d : AxisDecision} (h : k.nextDecision lengths = .ok (some d)) :
    k.Permits lengths d := (decideOver_spec h).1 d rfl

/-- There is a next decision as long as an instruction runs over an index whose axis is open. -/
theorem not_runsOver_of_nextDecision (h : k.nextDecision lengths = .ok none)
    (hauto : (k.tag n).isAuto = true) : ¬k.RunsOver n := by
  rintro ⟨insn, hinsn, hn⟩
  have hlast : lengths.length ∈ List.range (lengths.length + 1) :=
    List.mem_range.mpr (Nat.lt_succ_self _)
  have hnone := (decideOver_spec h).2 rfl _ hlast insn hinsn
  have hopen : n ∈ k.openInames insn := mem_openInames.mpr ⟨hn, hauto⟩
  rw [openInames_eq_nil_of_decideFor hnone] at hopen
  cases hopen

/-- What is found item by item is an item. -/
private theorem mem_of_foldl {step : Option Nat → Nat → Option Nat}
    (hstep : ∀ best b a, step best b = some a → best = some a ∨ a = b) {l : List Nat}
    {best : Option Nat} {a : Nat} (h : l.foldl step best = some a) : best = some a ∨ a ∈ l := by
  induction l generalizing best with
  | nil => exact .inl h
  | cons b rest ih =>
    rcases ih h with hbest | hrest
    · rcases hstep best b a hbest with hold | rfl
      · exact .inl hold
      · exact .inr List.mem_cons_self
    · exact .inr (List.mem_cons_of_mem b hrest)

/-- The axis that is found is one that is not used. -/
theorem findAxis_spec {desired : Int} {used : List Nat} {axis : Nat}
    (h : findAxis desired used lengths = some axis) :
    axis < lengths.length ∧ axis ∉ used := by
  unfold findAxis at h
  extract_lets free length at h
  have hfree : ∀ a ∈ free, a < lengths.length ∧ a ∉ used := by
    intro a ha
    simpa [free] using ha
  split at h
  · next a ha =>
    cases h
    exact hfree _ (List.mem_of_find?_eq_some ha)
  · refine hfree axis ((mem_of_foldl (fun best b a ha => ?_) h).resolve_left (by simp))
    split at ha
    · split at ha
      · exact .inl ha
      · cases ha
        exact .inr rfl
    · cases ha
      exact .inr rfl

/-! ## Carrying decisions out -/

/-- Carrying out a decision is a step. -/
theorem axisStep_of_applyDecision {d : AxisDecision} (hd : k.Permits lengths d)
    (h : k.applyDecision d lengths = .ok k') : AxisStep lengths k k' := by
  unfold applyDecision at h
  split at h
  · simp at h
  · next hauto =>
    rw [Bool.not_eq_true', Bool.not_eq_false] at hauto
    rw [Attempt.bind_eq_ok] at h
    obtain ⟨desired, hdesired, h⟩ := h
    extract_lets chosen at h
    have hchosen : ∀ axis, chosen = some axis →
        axis < lengths.length ∧ k.MayTake d.iname axis := by
      intro axis haxis
      have hfree : axis < lengths.length ∧ axis ∉ k.axesAlongside d.iname := by
        simp only [chosen] at haxis
        split at haxis
        · next given =>
          cases haxis
          exact hd.free axis given
        · rw [← hd.used]
          exact findAxis_spec haxis
      exact ⟨hfree.1, hauto, hd.runs, hfree.2⟩
    clear_value chosen
    cases chosen with
    | none =>
      rw [Attempt.pure_eq_ok] at h
      exact h ▸ .demote hauto hd.runs
    | some axis =>
      obtain ⟨hlt, hmay⟩ := hchosen axis rfl
      have hlength : lengths[axis]? = some (lengths.getD axis 0) := by
        rw [List.getD_eq_getElem?_getD, List.getElem?_eq_getElem hlt, Option.getD_some]
      simp only at h
      split at h
      · exact .split hmay hlength h
      · next hfits =>
        rw [Attempt.pure_eq_ok] at h
        exact h ▸ .assign hmay hlength hdesired (not_lt.mp hfits)

/-- The tags after one of them is set. -/
theorem tag_insert (k : Kernel) (n m : String) (tag : IndexTag) :
    ({ k with tags := k.tags.insert n tag } : Kernel).tag m = if m = n then tag else k.tag m :=
  SortedMap.getD_insert k.tags n m tag .sequential

/-- An index that is not sequential has a tag. -/
theorem get?_tags_of_ne_sequential (h : k.tag n ≠ .sequential) :
    k.tags.get? n = some (k.tag n) := by
  unfold tag SortedMap.getD at h ⊢
  cases hget : k.tags.get? n with
  | none =>
    rw [hget] at h
    exact absurd rfl h
  | some t => rfl

/-- An index whose axis is open has a tag. -/
theorem get?_tags_of_isAuto (h : (k.tag n).isAuto = true) :
    k.tags.get? n = some .autoLocalAxis := by
  have htag : k.tag n = .autoLocalAxis := beq_iff_eq.mp h
  rw [get?_tags_of_ne_sequential (by simp [htag]), htag]

/-- Number of open indices under other names than a given one. -/
private theorem length_filter_isAuto_insert (tags : SortedMap String IndexTag) (n : String)
    {tag : IndexTag} (htag : tag.isAuto = false) :
    ((tags.insert n tag).values.filter IndexTag.isAuto).length =
      ((tags.erase n).values.filter IndexTag.isAuto).length := by
  have hperm := ((SortedMap.perm_entries_insert tags n tag).map Prod.snd).filter IndexTag.isAuto
  rw [List.map_cons, List.filter_cons_of_neg (by simp [htag])] at hperm
  exact hperm.length_eq

private theorem length_filter_isAuto_erase_le (tags : SortedMap String IndexTag) (n : String) :
    ((tags.erase n).values.filter IndexTag.isAuto).length ≤
      (tags.values.filter IndexTag.isAuto).length := by
  have hsub : (tags.erase n).values.Sublist tags.values := List.filter_sublist.map Prod.snd
  exact (hsub.filter IndexTag.isAuto).length_le

/-- Without an open index there is one open index less. -/
private theorem length_filter_isAuto_erase (hauto : (k.tag n).isAuto = true) :
    ((k.tags.erase n).values.filter IndexTag.isAuto).length + 1 = k.openCount := by
  have hperm := ((SortedMap.perm_entries_erase (get?_tags_of_isAuto hauto)).map Prod.snd).filter
    IndexTag.isAuto
  rw [List.map_cons, List.filter_cons_of_pos rfl] at hperm
  exact hperm.length_eq.symm

/-- There is one open index less after a step. -/
theorem AxisStep.openCount_lt (h : AxisStep lengths k k') : k'.openCount < k.openCount := by
  have hinsert : ∀ n tag, (k.tag n).isAuto = true → tag.isAuto = false →
      ({ k with tags := k.tags.insert n tag } : Kernel).openCount < k.openCount := by
    intro n tag hauto htag
    have hless := length_filter_isAuto_erase hauto
    have hopen : ({ k with tags := k.tags.insert n tag } : Kernel).openCount = _ :=
      length_filter_isAuto_insert k.tags n htag
    omega
  cases h with
  | demote hauto hruns => exact hinsert _ _ hauto rfl
  | assign hmay => exact hinsert _ _ hmay.auto rfl
  | split hmay havailable hsplit =>
    obtain ⟨-, -, domain, -, rfl⟩ := splitIname_spec hsplit
    rw [← length_filter_isAuto_erase hmay.auto, Nat.lt_succ_iff]
    -- Each of the two new tags takes the place of what its name had before.
    refine (length_filter_isAuto_insert _ _ rfl).le.trans ?_
    refine (length_filter_isAuto_erase_le _ _).trans ?_
    exact (length_filter_isAuto_insert _ _ rfl).le.trans (length_filter_isAuto_erase_le _ _)

/-- Any number of decisions that is greater than that of the open indices are enough steps to come
to where no decision is left. -/
theorem reflTransGen_of_assignAxesWithin {fuel : Nat} (hfuel : k.openCount < fuel)
    (h : assignAxesWithin lengths fuel k = .ok k') :
    Relation.ReflTransGen (AxisStep lengths) k k' ∧ k'.nextDecision lengths = .ok none := by
  induction fuel generalizing k with
  | zero => exact absurd hfuel (Nat.not_lt_zero _)
  | succ fuel ih =>
    rw [assignAxesWithin, Attempt.bind_eq_ok] at h
    obtain ⟨decision, hdecision, h⟩ := h
    cases decision with
    | none =>
      rw [Attempt.pure_eq_ok] at h
      exact h ▸ ⟨.refl, hdecision⟩
    | some d =>
      simp only [Attempt.bind_eq_ok] at h
      obtain ⟨next, hnext, h⟩ := h
      have hstep := axisStep_of_applyDecision (permits_of_nextDecision hdecision) hnext
      have hless := hstep.openCount_lt
      obtain ⟨hsteps, hdone⟩ := ih (by omega) h
      exact ⟨.head hstep hsteps, hdone⟩

/-- Choosing axes takes steps for the lengths of the axes at the start, to where no decision is
left. -/
theorem assignAutomaticAxes_spec (h : k.assignAutomaticAxes = .ok k') :
    ∃ lengths, k.localAxisLengths = .ok lengths ∧
      Relation.ReflTransGen (AxisStep lengths) k k' ∧ k'.nextDecision lengths = .ok none := by
  unfold assignAutomaticAxes at h
  rw [Attempt.bind_eq_ok] at h
  obtain ⟨lengths, hlengths, h⟩ := h
  exact ⟨lengths, hlengths, reflTransGen_of_assignAxesWithin (Nat.lt_succ_self _) h⟩

/-! ## Well-formedness -/

/-- A step keeps a kernel well-formed. -/
theorem WellFormed.axisStep (h : k.WellFormed) (hstep : AxisStep lengths k k') :
    k'.WellFormed := by
  have hdim : ∀ {n}, (k.tag n).isAuto = true → n ∈ k.domain.dims := fun hauto =>
    h.mem_dims_of_tag (get?_tags_of_isAuto hauto)
  cases hstep with
  | demote hauto hruns => exact h.with_tag .sequential (hdim hauto)
  | assign hmay => exact h.with_tag (.localAxis _) (hdim hmay.auto)
  | split hmay havailable hsplit => exact h.splitIname hsplit

/-- Steps keep a kernel well-formed. -/
theorem WellFormed.axisSteps (h : k.WellFormed)
    (hsteps : Relation.ReflTransGen (AxisStep lengths) k k') : k'.WellFormed := by
  induction hsteps with
  | refl => exact h
  | tail _ hstep ih => exact ih.axisStep hstep

/-- Setting the tag of a name that has none leaves the number of open indices as it is. -/
private theorem length_filter_isAuto_insert_new {tags : SortedMap String IndexTag} {n : String}
    {tag : IndexTag} (hnew : tags.get? n = none) (htag : tag.isAuto = false) :
    ((tags.insert n tag).values.filter IndexTag.isAuto).length =
      (tags.values.filter IndexTag.isAuto).length := by
  rw [length_filter_isAuto_insert tags n htag, SortedMap.erase_of_get?_none hnew]

/-- A name that is new to a well-formed kernel has no tag. -/
theorem WellFormed.get?_tags_eq_none (h : k.WellFormed) (hn : n ∉ k.names) :
    k.tags.get? n = none := by
  by_contra hsome
  obtain ⟨tag, htag⟩ := Option.ne_none_iff_exists'.mp hsome
  exact hn (mem_names_of_mem_dims (h.mem_dims_of_tag htag))

/-- There is exactly one open index less after a step from a well-formed kernel: the two indices
that come out of a split are new, so that their tags take the place of none. -/
theorem WellFormed.openCount_axisStep (h : k.WellFormed) (hstep : AxisStep lengths k k') :
    k'.openCount + 1 = k.openCount := by
  cases hstep with
  | @demote n hauto hruns =>
    rw [← length_filter_isAuto_erase hauto]
    exact congrArg (· + 1) (length_filter_isAuto_insert k.tags n rfl)
  | @assign n axis _ _ hmay =>
    rw [← length_filter_isAuto_erase hmay.auto]
    exact congrArg (· + 1) (length_filter_isAuto_insert k.tags n rfl)
  | @split _ n _ available hmay havailable hsplit =>
    obtain ⟨-, -, domain, -, rfl⟩ := splitIname_spec hsplit
    have houter := h.get?_tags_eq_none (k.outer_indexSplit_not_mem n available)
    have hinner := h.get?_tags_eq_none (k.inner_indexSplit_not_mem n available)
    have hne := k.outer_indexSplit_ne_inner n available
    generalize k.indexSplit n available = s at *
    have houter' : (k.tags.erase n).get? s.outer = none := by
      rw [SortedMap.get?_erase, houter, ite_self]
    have hinner' : ((k.tags.erase n).insert s.outer .unroll).get? s.inner = none := by
      rw [SortedMap.get?_insert, if_neg hne.symm, SortedMap.get?_erase, hinner, ite_self]
    rw [← length_filter_isAuto_erase hmay.auto]
    exact congrArg (· + 1) ((length_filter_isAuto_insert_new hinner' rfl).trans
      (length_filter_isAuto_insert_new houter' rfl))

/-- Choosing axes keeps a kernel well-formed. -/
theorem WellFormed.assignAutomaticAxes (h : k.WellFormed) (hk : k.assignAutomaticAxes = .ok k') :
    k'.WellFormed := by
  obtain ⟨lengths, -, hsteps, -⟩ := assignAutomaticAxes_spec hk
  exact h.axisSteps hsteps

end LoopKernel.Kernel
