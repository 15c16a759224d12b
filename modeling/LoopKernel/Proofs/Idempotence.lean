import LoopKernel.Proofs.Axis.Completion
import LoopKernel.Proofs.Boost.Stability
import LoopKernel.Proofs.Reduction.Absence
import LoopKernel.Proofs.Storage.Locality

/-!
# Preprocessing twice

Preprocessing leaves no reductions and no open axes, and finds the same dependencies and the same
loops for extra runs again. A second preprocessing can still fail to measure a lane, force indices
on the instructions that set accumulators, take an accumulator for local, or pad a layout further.
When none of this happens it gives back its kernel, and otherwise it does not.
-/

namespace LoopKernel

variable {k out : Kernel} {options : PreprocessOptions} {p : Preprocessing}

/-! ## Runs that change nothing -/

/-- A check of obligations that are met reports nothing. -/
theorem Pass.certify_of_meets {q : Pass} (h : q.Meets k out) : q.certify k out = .ok [] := by
  obtain ⟨obligations, hobligations, hmet⟩ := h
  have hfailed : (obligations.filter fun o => !o.holds) = [] :=
    List.filter_eq_nil_iff.mpr fun o ho => by simp [hmet o ho]
  rw [certify, Attempt.bind_eq_ok]
  refine ⟨obligations, hobligations, ?_⟩
  rw [hfailed]
  rfl

/-- Passes that each give back a kernel with warnings at most give it back together. -/
theorem Preprocessing.runPasses_of_stays {certify : Bool} {passes : List Pass}
    (hrun : ∀ q ∈ passes, ∃ problems, q.run k = .ok (k, problems) ∧
      problems.any Diagnostic.isError = false)
    (hmeets : certify = true → ∀ q ∈ passes, q.Meets k k) :
    ∃ reports, runPasses certify passes k = .ok ⟨.ok k, reports⟩ := by
  induction passes with
  | nil => exact ⟨[], rfl⟩
  | cons q rest ih =>
    rw [List.forall_mem_cons] at hrun
    obtain ⟨⟨problems, hq, hclean⟩, hrest⟩ := hrun
    obtain ⟨reports, hreports⟩ := ih hrest fun hc r hr => hmeets hc r (List.mem_cons_of_mem q hr)
    have hpass : runPass certify q k = .ok (some k, problems) := by
      rw [runPass, Attempt.bind_eq_ok]
      refine ⟨.ok (k, problems), Attempt.caught_eq_ok.mpr hq, ?_⟩
      cases certify with
      | false =>
        change Except.ok (some k, problems ++ []) = _
        rw [List.append_nil]
      | true =>
        simp only [if_true, Attempt.bind_eq_ok, Attempt.pure_eq_ok]
        refine ⟨[], Pass.certify_of_meets (hmeets rfl q List.mem_cons_self), ?_⟩
        rw [List.append_nil]
    refine ⟨⟨q, problems⟩ :: reports, ?_⟩
    rw [runPasses, Attempt.bind_eq_ok]
    refine ⟨_, hpass, ?_⟩
    dsimp only
    rw [hclean, if_neg Bool.false_ne_true, hreports]
    rfl

namespace Kernel

/-! ## What preprocessing settles -/

/-- What a preprocessing settles for good: no reduction is left, no axis is open, what is known
about instructions is found again, and every temporary has a layout. -/
structure Finished (k : Kernel) : Prop where
  wellFormed : k.WellFormed
  reduced : k.IsReduced
  closed : ∀ n, (k.tag n).isAuto = false
  axes : ∃ lengths, k.localAxisLengths = .ok lengths
  inferred : k.inferDependencies.1 = k
  limited : k.limitBoostability = .ok k
  laidOut : ∀ n t, k.temporaries.get? n = some t → t.IsLaidOut

/-- Kernels with the same loops have the same reductions. -/
theorem SameLoops.isReduced {k' : Kernel} (h : k.SameLoops k') (hk : k.IsReduced) :
    k'.IsReduced := by
  have hmeets : Pass.realizeReduction.Meets k k := Pass.meets_realizeReduction_iff.mpr hk
  exact Pass.meets_realizeReduction_iff.mp (hmeets.realizeReduction_congr h)

/-- The kernel that enters the choice of axes is the one that was realized. -/
theorem eq_realized_of_reaches {copied realized before : Kernel}
    (hcopied : k.markLocalTemporaries.duplicateReductionInames = .ok copied)
    (hrealized : copied.realizeReduction = .ok realized)
    (h : Preprocessing.Reaches (Pass.all.take Pass.assignAxes.position) k before) :
    before = realized := by
  obtain ⟨reports, h⟩ := h
  have hrun := Preprocessing.foldlM_of_runPasses h rfl
  simp only [Pass.position, Pass.all, List.take, List.map, List.foldlM_cons, List.foldlM_nil,
    Step.run, Pass.run, Attempt.bind_eq_ok, Attempt.pure_eq_ok, Prod.exists, Pass.quiet_eq_ok,
    Prod.mk.injEq] at hrun
  obtain ⟨_, ⟨_, _, ⟨rfl, -⟩, rfl⟩, copied', ⟨_, _, ⟨hcopied', -⟩, rfl⟩, realized',
    ⟨_, _, ⟨hrealized', -⟩, rfl⟩, rfl⟩ := hrun
  obtain rfl := Except.ok.inj (hcopied'.symm.trans hcopied)
  exact Except.ok.inj (hrealized'.symm.trans hrealized)

/-- A preprocessing of a loaded kernel without open axes finishes it, and its result meets all
obligations once more if they are checked. -/
theorem finished_of_preprocess {source : String} {device : Device}
    (hload : Source.load source device = .ok k) (hclosed : ∀ n, (k.tag n).isAuto = false)
    (hterminal : options.terminal = .adjustStorage) (hp : k.preprocess options = .ok p)
    (hout : p.outcome = .ok out) :
    out.Finished ∧ (options.checkCertificates = true → ∀ q ∈ Pass.all, q.Meets out out) := by
  obtain ⟨copied, realized, assigned, limited, problems, hcopied, hrealized, hassigned, hlimited,
    hadjusted⟩ := preprocess_spec hterminal hp hout
  have hprepared := (Source.wellFormed_of_load hload).prepared hcopied hrealized
  have hrealizedClosed : ∀ n, (realized.tag n).isAuto = false := fun n => by
    rw [hprepared.tag, hclosed]
  obtain ⟨hlengths, rfl⟩ := (assignAutomaticAxes_eq_ok_iff hrealizedClosed).mp hassigned
  have hloops : assigned.SameLoops out := (sameLoops_inferDependencies assigned).trans
    ((sameLoops_limitBoostability hlimited).1.trans (sameLoops_adjustStorage hadjusted))
  have haxes : out.localAxisLengths = assigned.localAxisLengths := by
    rw [hloops.others]
    rfl
  obtain ⟨hinferred, hlimitedAgain⟩ := found_again hlimited hadjusted
  refine ⟨⟨?_, hloops.isReduced (isReduced_of_realizeReduction hrealized), fun n => ?_,
    haxes ▸ hlengths, hinferred, hlimitedAgain, isLaidOut_of_adjustStorage hadjusted⟩,
    fun hcertify q hq => ?_⟩
  · exact ((hprepared.wellFormed.inferDependencies).limitBoostability hlimited).adjustStorage
      hadjusted
  · rw [show out.tag n = assigned.tag n by rw [hloops.others]; rfl, hrealizedClosed]
  · have hoptions : options = ⟨.adjustStorage, true⟩ := by rw [← hterminal, ← hcertify]
    obtain ⟨outcome, reports⟩ := p
    obtain rfl : outcome = .ok out := hout
    rw [hoptions] at hp
    have hreaches : Preprocessing.Reaches Pass.adjustStorage.required k out := ⟨reports, hp⟩
    obtain ⟨before, hbefore, hmeets⟩ := hreaches.exists_meets hq
    cases q with
    | assignAxes =>
      obtain rfl := eq_realized_of_reaches hcopied hrealized hbefore
      unfold Pass.Meets Pass.obligations at hmeets ⊢
      rw [haxes]
      exact hmeets
    | _ => exact hmeets

/-! ## The second run -/

/-- Whether a second preprocessing has nothing left to do: lanes can be measured, all indices are
forced that instructions run under, flags are those that the tags determine, and no larger last
extent improves a layout. -/
structure Repeatable (k : Kernel) : Prop where
  lengths : ∀ insn ∈ k.instructions, ∀ n ∈ k.insnInames insn, k.tag n = .ilp →
    ∃ length, k.inameLength n = .ok length
  forced : ∀ insn ∈ k.instructions, insn.forcedInames = k.insnInames insn
  flags : ∀ v t, k.temporaries.get? v = some t → (t.isLocal = true ↔ k.WritesLocally v)
  layouts : ∀ v t, k.temporaries.get? v = some t → k.KeepsLayout v t

/-- Forcing the indices of instructions changes nothing when they are forced already. -/
theorem map_forcing_eq_self (h : ∀ insn ∈ k.instructions, insn.forcedInames = k.insnInames insn) :
    k.instructions.map k.forcing = k.instructions := by
  refine (List.map_congr_left fun insn hinsn => ?_).trans (List.map_id _)
  rw [forcing, ← h insn hinsn]
  rfl

namespace Finished

/-- A second preprocessing that gives back its kernel had nothing left to do. -/
theorem repeatable (h : k.Finished) (hterminal : options.terminal = .adjustStorage)
    (hp : k.preprocess options = .ok p) (hout : p.outcome = .ok k) : k.Repeatable := by
  obtain ⟨copied, realized, assigned, limited, problems, hcopied, hrealized, hassigned, hlimited,
    hadjusted⟩ := preprocess_spec hterminal hp hout
  have hmarked : k.markLocalTemporaries.IsReduced := h.reduced
  obtain rfl := Except.ok.inj (hmarked.duplicateReductionInames.symm.trans hcopied)
  obtain ⟨hlengths, rfl⟩ := hmarked.realizeReduction_eq_ok_iff.mp hrealized
  have hstays := fun hclosed => (assignAutomaticAxes_eq_ok_iff hclosed).mp hassigned
  obtain ⟨-, rfl⟩ := hstays h.closed
  have hloops := (sameLoops_inferDependencies _).trans
    ((sameLoops_limitBoostability hlimited).1.trans (sameLoops_adjustStorage hadjusted))
  have hforced : ∀ insn ∈ k.instructions, insn.forcedInames = k.insnInames insn := by
    intro insn hinsn
    have hbare : k.instructions.map Instruction.bare =
        k.instructions.map (Instruction.bare ∘ k.forcing) := by
      rw [hloops.bare, ← List.map_map]
      rfl
    exact congrArg Instruction.forcedInames (List.map_inj_left.mp hbare insn hinsn)
  have hflags : ∀ v t, k.temporaries.get? v = some t → (t.isLocal = true ↔ k.WritesLocally v) := by
    intro v t ht
    obtain ⟨before, hbefore, hlocal⟩ := (settled hlimited hadjusted).flags v t ht
    obtain ⟨_, -, flag, hflag, rfl⟩ :=
      h.wellFormed.get?_temporaries_markLocalTemporaries.mp hbefore
    rw [hlocal]
    exact hflag
  have hself := h.wellFormed.markLocalTemporaries_eq_self_iff.mpr hflags
  refine ⟨hlengths, hforced, hflags, (adjustStorage_stays_iff h.laidOut).mp ⟨problems, ?_⟩⟩
  have hkernel : ({ k.markLocalTemporaries with
      instructions := k.markLocalTemporaries.instructions.map k.markLocalTemporaries.forcing } :
        Kernel) = k := by
    rw [hself, map_forcing_eq_self hforced]
  rw [hkernel, h.inferred, h.limited] at hlimited
  obtain rfl := Except.ok.inj hlimited
  exact hadjusted

/-- A second preprocessing that has nothing left to do gives back its kernel. -/
theorem preprocess (h : k.Finished) (hrepeatable : k.Repeatable)
    (hterminal : options.terminal = .adjustStorage)
    (hmeets : options.checkCertificates = true → ∀ q ∈ Pass.all, q.Meets k k) :
    ∃ reports, k.preprocess options = .ok ⟨.ok k, reports⟩ := by
  have hmark : k.markLocalTemporaries = k :=
    h.wellFormed.markLocalTemporaries_eq_self_iff.mpr hrepeatable.flags
  have hrealize : k.realizeReduction = .ok k := by
    rw [h.reduced.realizeReduction_eq_ok_iff, map_forcing_eq_self hrepeatable.forced]
    exact ⟨hrepeatable.lengths, rfl⟩
  have hassign : k.assignAutomaticAxes = .ok k :=
    (assignAutomaticAxes_eq_ok_iff h.closed).mpr ⟨h.axes, rfl⟩
  obtain ⟨problems, hadjust⟩ := (adjustStorage_stays_iff h.laidOut).mpr hrepeatable.layouts
  rw [Kernel.preprocess, hterminal]
  refine Preprocessing.runPasses_of_stays (fun q _ => ?_) fun hcertify q _ =>
    hmeets hcertify q (by cases q <;> decide)
  cases q with
  | markLocal => exact ⟨[], by rw [Pass.run, hmark]; rfl, rfl⟩
  | duplicateInames =>
    exact ⟨[], Pass.quiet_eq_ok.mpr ⟨h.reduced.duplicateReductionInames, rfl⟩, rfl⟩
  | realizeReduction => exact ⟨[], Pass.quiet_eq_ok.mpr ⟨hrealize, rfl⟩, rfl⟩
  | assignAxes => exact ⟨[], Pass.quiet_eq_ok.mpr ⟨hassign, rfl⟩, rfl⟩
  | inferDependencies =>
    refine ⟨k.inferDependencies.2, ?_, warnings_inferDependencies k⟩
    exact congrArg Except.ok (Prod.ext h.inferred rfl)
  | limitBoostability => exact ⟨[], Pass.quiet_eq_ok.mpr ⟨h.limited, rfl⟩, rfl⟩
  | adjustStorage =>
    exact ⟨problems, Attempt.liftM_eq_ok.mpr hadjust, warnings_chooseLayouts hadjust⟩

end Finished

/-- Preprocessing the result of a preprocessing gives it back exactly if it leaves nothing to do. -/
theorem preprocess_twice_iff {source : String} {device : Device}
    (hload : Source.load source device = .ok k) (hclosed : ∀ n, k.tag n ≠ .autoLocalAxis)
    (hterminal : options.terminal = .adjustStorage) (hp : k.preprocess options = .ok p)
    (hout : p.outcome = .ok out) :
    (∃ again, out.preprocess options = .ok again ∧ again.outcome = .ok out) ↔ out.Repeatable := by
  have hclosed : ∀ n, (k.tag n).isAuto = false := fun n => by
    have hne := hclosed n
    revert hne
    cases k.tag n <;> simp [IndexTag.isAuto]
  obtain ⟨hfinished, hmeets⟩ := finished_of_preprocess hload hclosed hterminal hp hout
  constructor
  · rintro ⟨again, hagain, hsame⟩
    exact hfinished.repeatable hterminal hagain hsame
  · intro hrepeatable
    obtain ⟨reports, hagain⟩ := hfinished.preprocess hrepeatable hterminal hmeets
    exact ⟨_, hagain, rfl⟩

/-- The sums of rows, with a local axis for the rows. -/
def localRowSumSource : String :=
  "domain [i, j] : 0 <= i < 8 and 0 <= j < 4\narg global float32 a[8, 4]\n" ++
    "arg global float32 x[8]\ntag i = l.0\ninsn s: x[i] = sum(j, a[i, j])\n"

/-- The sums of rows of unknown length, with instruction-level parallelism along the rows. -/
def openLaneSource : String :=
  "domain [i, j] : 0 <= i < 4 and 0 <= j < n\narg global float32 a[4, n]\n" ++
    "arg global float32 x[4]\narg scalar int32 n ~ 10\ntag j = ilp\n" ++
    "insn s: x[i] = sum(j, a[i, j])\n"

/-- Sums of rows are preprocessed again without a change. With rows of unknown length a second
preprocessing fails, as it measures the lanes of the instruction that the reduction became. -/
theorem preprocess_twice_iff_rowSums :
    (∃ k p out, Source.load localRowSumSource .fermi = .ok k ∧ (∀ n, k.tag n ≠ .autoLocalAxis) ∧
      k.preprocess .default = .ok p ∧ p.outcome = .ok out ∧ out.Repeatable ∧
        ∃ again, out.preprocess .default = .ok again ∧ again.outcome = .ok out) ∧
    ∃ k p out, Source.load openLaneSource .fermi = .ok k ∧ (∀ n, k.tag n ≠ .autoLocalAxis) ∧
      k.preprocess .default = .ok p ∧ p.outcome = .ok out ∧ ¬out.Repeatable ∧
        ∃ again, out.preprocess .default = .ok again ∧ again.outcome.toOption = none := by
  have hclosed {k : Kernel} (h : ∀ tag ∈ k.tags.values, tag ≠ .autoLocalAxis) (n : String) :
      k.tag n ≠ .autoLocalAxis := by
    intro hn
    have hauto : (k.tag n).isAuto = true := by rw [hn]; rfl
    exact h _ (SortedMap.mem_values.mpr ⟨n, get?_tags_of_isAuto hauto⟩) rfl
  constructor
  · obtain ⟨k, hload, htags, p, hp, out, hmem, hlanes, hforced, hlocal, hwrites⟩ :
        ∃ k, Source.load localRowSumSource .fermi = .ok k ∧
          (∀ tag ∈ k.tags.values, tag ≠ .autoLocalAxis) ∧
          ∃ p, k.preprocess .default = .ok p ∧ ∃ out ∈ p.outcome.toOption,
            (∀ insn ∈ out.instructions, ∀ n ∈ out.insnInames insn, out.tag n ≠ .ilp) ∧
            (∀ insn ∈ out.instructions, insn.forcedInames.toList = (out.insnInames insn).toList) ∧
            (∀ t ∈ out.temporaries.values, t.isLocal = false) ∧
            ∀ v ∈ out.temporaries.keys, out.anyWritesLocally (out.writers.getD v ∅) = false := by
      decide +kernel
    have hout := Preprocessing.outcome_of_mem_toOption hmem
    have hwf : out.WellFormed :=
      (Source.wellFormed_of_load hload).run (Preprocessing.foldlM_of_runPasses hp hout)
    have hrepeatable : out.Repeatable := by
      refine ⟨fun insn hinsn n hn hilp => absurd hilp (hlanes insn hinsn n hn),
        fun insn hinsn => NameSet.ext fun n => ?_, fun v t ht => ?_, fun v t ht hislocal => ?_⟩
      · rw [← NameSet.mem_toList, hforced insn hinsn, NameSet.mem_toList]
      · have hkey := SortedMap.mem_keys.mpr (SortedMap.contains_iff.mpr ⟨t, ht⟩)
        rw [hlocal t (SortedMap.mem_values.mpr ⟨v, ht⟩), ← hwf.anyWritesLocally_iff, hwrites v hkey]
      · rw [hlocal t (SortedMap.mem_values.mpr ⟨v, ht⟩)] at hislocal
        cases hislocal
    exact ⟨k, p, out, hload, hclosed htags, hp, hout, hrepeatable,
      (preprocess_twice_iff hload (hclosed htags) rfl hp hout).mpr hrepeatable⟩
  · obtain ⟨k, hload, htags, p, hp, out, hmem, again, hagain, hnone⟩ :
        ∃ k, Source.load openLaneSource .fermi = .ok k ∧
          (∀ tag ∈ k.tags.values, tag ≠ .autoLocalAxis) ∧
          ∃ p, k.preprocess .default = .ok p ∧ ∃ out ∈ p.outcome.toOption,
            ∃ again, out.preprocess .default = .ok again ∧
              again.outcome.toOption.isNone = true := by
      decide +kernel
    have hout := Preprocessing.outcome_of_mem_toOption hmem
    have hnone := Option.isNone_iff_eq_none.mp hnone
    refine ⟨k, p, out, hload, hclosed htags, hp, hout, fun hrepeatable => ?_, again, hagain, hnone⟩
    obtain ⟨other, hother, hsame⟩ :=
      (preprocess_twice_iff hload (hclosed htags) rfl hp hout).mpr hrepeatable
    obtain rfl := Except.ok.inj (hagain.symm.trans hother)
    rw [hsame] at hnone
    cases hnone

end Kernel

end LoopKernel
