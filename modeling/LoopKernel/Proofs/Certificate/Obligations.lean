import LoopKernel.Preprocess
import LoopKernel.Proofs.Axis.Exclusive
import Mathlib.Data.List.Pairwise

/-!
# What certificates certify

The obligations of a pass are lists of checks of its result. Each one comes out true exactly if the
result has a property that can be said without the certificate: no reduction is left, no axis is
open and the chosen ones are long enough and exclusive, it is known of each instruction over which
indices it may run more often, and every temporary has a layout that fits.
-/

namespace LoopKernel

variable {before k : Kernel}

/-! ## Axes -/

/-- What holds of sequential indices holds of all if it holds of those that are listed with their
tags. -/
theorem Kernel.forall_entries_tags_iff {P : String → IndexTag → Prop}
    (h : ∀ n, P n .sequential) : (∀ e ∈ k.tags.entries, P e.1 e.2) ↔ ∀ n, P n (k.tag n) := by
  constructor
  · intro hlisted n
    rw [tag, SortedMap.getD]
    cases hget : k.tags.get? n with
    | none => exact h n
    | some tag => exact hlisted (n, tag) (SortedMap.mem_entries.mpr hget)
  · rintro hall ⟨n, tag⟩ he
    have htag := hall n
    rwa [Kernel.tag, SortedMap.getD, SortedMap.mem_entries.mp he] at htag

namespace AxisCertificate

variable {lengths : List Int} {iname : String} {axis : Nat} {insn : Instruction}

/-- An index fits an axis if both have lengths and its own is no greater. -/
theorem fits_eq_ok_true : fits k lengths iname axis = .ok true ↔
    ∃ available length, lengths[axis]? = some available ∧ k.inameLength iname = .ok length ∧
      length ≤ available := by
  rw [fits, Attempt.bind_eq_ok]
  constructor
  · rintro ⟨length?, hlength, h⟩
    split at h
    · next available length havailable =>
      rw [Attempt.pure_eq_ok, decide_eq_true_iff] at h
      exact ⟨available, length, havailable, Attempt.toOption_eq_some.mp hlength, h⟩
    · rw [Attempt.pure_eq_ok] at h
      cases h
  · rintro ⟨available, length, havailable, hlength, hle⟩
    refine ⟨some length, Attempt.toOption_eq_some.mpr hlength, ?_⟩
    rw [havailable, Attempt.pure_eq_ok, decide_eq_true_iff]
    exact hle

/-- An index is not too long if it fits the local axis that it has, if it has one. -/
theorem isOversized_eq_ok_false {tag : IndexTag} : isOversized k lengths iname tag = .ok false ↔
    ∀ axis, tag = .localAxis axis → fits k lengths iname axis = .ok true := by
  cases tag with
  | localAxis axis =>
    change (fits k lengths iname axis >>= fun fitting => pure (!fitting)) = .ok false ↔ _
    rw [Attempt.bind_eq_ok]
    simp
  | _ => simp [isOversized]

/-- A list without repetition is one in which every number occurs once at most. -/
theorem hasRepetition_eq_false_iff {l : List Nat} : hasRepetition l = false ↔ l.Nodup := by
  induction l with
  | nil => simp [hasRepetition]
  | cons n rest ih => simp [hasRepetition, ih]

/-- An instruction shares no axis if its indices with a local axis have different ones. -/
theorem sharesAxis_eq_false_iff : sharesAxis k insn = false ↔
    ∀ m ∈ k.insnInames insn, ∀ n ∈ k.insnInames insn,
      (k.tag m).localAxis?.isSome = true → k.tag m = k.tag n → m = n := by
  have haxis {tag : IndexTag} {axis : Nat} (h : tag.localAxis? = some axis) :
      tag = .localAxis axis := by
    cases tag <;> cases h
    rfl
  rw [sharesAxis, hasRepetition_eq_false_iff, List.Nodup, List.pairwise_filterMap]
  constructor
  · intro hpairs m hm n hn hlocal hsame
    by_contra hne
    obtain ⟨axis, hmaxis⟩ := Option.isSome_iff_exists.mp hlocal
    have hsymmetric : Std.Symm fun m n => ∀ a, (k.tag m).localAxis? = some a →
        ∀ b, (k.tag n).localAxis? = some b → a ≠ b :=
      ⟨fun m n h a ha b hb => (h b hb a ha).symm⟩
    exact hpairs.forall (NameSet.mem_toList.mpr hm) (NameSet.mem_toList.mpr hn) hne axis hmaxis axis
      (hsame ▸ hmaxis) rfl
  · intro hexclusive
    refine (k.insnInames insn).nodup_toList.pairwise_of_forall_ne fun m hm n hn hne => ?_
    rintro a ha b hb rfl
    exact hne (hexclusive m (NameSet.mem_toList.mp hm) n (NameSet.mem_toList.mp hn)
      (by rw [ha]; rfl) ((haxis ha).trans (haxis hb).symm))

/-- A certificate of some axes shows all that it must exactly if no axis is open, indices fit their
axes, and no instruction shares one. -/
theorem exists_met_iff :
    (∃ c, ofKernel k lengths = .ok c ∧ ∀ o ∈ c.obligations, o.holds = true) ↔
      (∀ n, (k.tag n).isAuto = false) ∧
      (∀ n axis, k.tag n = .localAxis axis → ∃ available length, lengths[axis]? = some available ∧
        k.inameLength n = .ok length ∧ length ≤ available) ∧
      k.ExclusiveAxes := by
  have hauto : (k.tags.entries.filter fun e => e.2.isAuto) = [] ↔
      ∀ n, (k.tag n).isAuto = false := by
    rw [← Kernel.forall_entries_tags_iff (P := fun _ tag => tag.isAuto = false) fun _ => rfl]
    simp only [List.filter_eq_nil_iff, Bool.not_eq_true]
  have hoversized : (k.tags.entries.filterM fun e => isOversized k lengths e.1 e.2) =
      .ok [] ↔ ∀ n axis, k.tag n = .localAxis axis → ∃ available length,
        lengths[axis]? = some available ∧ k.inameLength n = .ok length ∧ length ≤ available := by
    rw [Attempt.filterM_eq_nil_iff, Kernel.forall_entries_tags_iff
      (P := fun n tag => isOversized k lengths n tag = .ok false) fun _ => rfl]
    simp only [isOversized_eq_ok_false, fits_eq_ok_true]
  have hshared : k.instructions.filter (sharesAxis k) = [] ↔ k.ExclusiveAxes := by
    simp only [List.filter_eq_nil_iff, Bool.not_eq_true, sharesAxis_eq_false_iff]
    rfl
  rw [← hauto, ← hoversized, ← hshared]
  simp only [ofKernel, Attempt.bind_eq_ok, Attempt.pure_eq_ok]
  constructor
  · rintro ⟨_, ⟨oversized, hfilter, rfl⟩, hmet⟩
    simpa [obligations, hfilter] using hmet
  · rintro ⟨hnone, hfilter, hexclusive⟩
    refine ⟨_, ⟨[], hfilter, rfl⟩, ?_⟩
    simp [obligations, hnone, hexclusive]

end AxisCertificate

/-! ## Extra runs -/

/-- The limit of an instruction is good if it is known whether extra runs do harm, and if it names
no indices where they do and none of its own where they do not. -/
theorem BoostCertificate.hasGoodLimit_iff {insn : Instruction} :
    hasGoodLimit k insn = true ↔ ∃ boostable into, insn.boostable = some boostable ∧
      insn.boostableInto = some into ∧
        ∀ n ∈ into, boostable = true ∧ n ∉ k.insnInames insn := by
  unfold hasGoodLimit
  cases hinto : insn.boostableInto with
  | none => simp
  | some into =>
    cases hboostable : insn.boostable with
    | none => simp
    | some boostable =>
      cases boostable with
      | false => simp [NameSet.isEmpty_iff]
      | true => simp [NameSet.contains_eq_false]

/-! ## Layouts -/

/-- A certificate of layouts shows all that it must if none is missing, and if the local memory that
is used is less than the usable one where a layout is padded. -/
theorem StorageCertificate.met_iff {c : StorageCertificate} :
    (∀ o ∈ c.obligations, o.holds = true) ↔
      c.missing = [] ∧ (c.padded = true → c.localBytes < c.usableBytes) := by
  rw [obligations, List.forall_mem_cons, List.forall_mem_singleton, List.isEmpty_iff,
    Bool.or_eq_true, Bool.not_eq_true', decide_eq_true_iff, ← Bool.not_eq_true, ← imp_iff_not_or]

/-! ## Obligations of passes -/

/-- Whether a kernel meets the obligations of a pass that another kernel entered. -/
def Pass.Meets (p : Pass) (before after : Kernel) : Prop :=
  ∃ obligations, p.obligations before after = .ok obligations ∧ ∀ o ∈ obligations, o.holds = true

namespace Pass

/-- The obligation of realization is that no reduction is left. -/
theorem meets_realizeReduction_iff :
    Pass.realizeReduction.Meets before k ↔ ∀ insn ∈ k.instructions,
      insn.expression.containsReduction = false ∧ insn.assignee.containsReduction = false := by
  simp [Meets, obligations, ReductionCertificate.obligations, ReductionCertificate.ofKernel,
    Kernel.unrealized]

/-- The obligations of choosing axes are that no axis is open, that every index with a local axis
has a length no greater than that of the axis before the pass, and that no instruction runs over two
indices with the same local axis. -/
theorem meets_assignAxes_iff :
    Pass.assignAxes.Meets before k ↔ ∃ lengths, before.localAxisLengths.toOption = .ok lengths ∧
      (∀ n, (k.tag n).isAuto = false) ∧
      (∀ n axis, k.tag n = .localAxis axis → ∃ available length,
        (lengths.getD [])[axis]? = some available ∧ k.inameLength n = .ok length ∧
          length ≤ available) ∧
      k.ExclusiveAxes := by
  simp only [Meets, obligations, Attempt.bind_eq_ok, Attempt.pure_eq_ok]
  constructor
  · rintro ⟨_, ⟨lengths, hlengths, c, hc, rfl⟩, hmet⟩
    exact ⟨lengths, hlengths, AxisCertificate.exists_met_iff.mp ⟨c, hc, hmet⟩⟩
  · rintro ⟨lengths, hlengths, h⟩
    obtain ⟨c, hc, hmet⟩ := AxisCertificate.exists_met_iff.mpr h
    exact ⟨_, ⟨lengths, hlengths, c, hc, rfl⟩, hmet⟩

/-- The obligation of inference is that it is known of each instruction whether extra runs do
harm. -/
theorem meets_inferDependencies_iff :
    Pass.inferDependencies.Meets before k ↔
      none ∉ k.instructions.map Instruction.boostable := by
  simp [Meets, obligations, BoostCertificate.obligations, BoostCertificate.ofKernel]

/-- The obligations of limiting extra runs are that it is known of each instruction whether they do
harm and over which indices it may have them: over none if they do harm, and otherwise over none
that it runs under anyway. -/
theorem meets_limitBoostability_iff :
    Pass.limitBoostability.Meets before k ↔ ∀ insn ∈ k.instructions, ∃ boostable into,
      insn.boostable = some boostable ∧ insn.boostableInto = some into ∧
        ∀ n ∈ into, boostable = true ∧ n ∉ k.insnInames insn := by
  have hlimits : Pass.limitBoostability.Meets before k ↔
      (∀ insn ∈ k.instructions, insn.boostable ≠ none) ∧
        ∀ insn ∈ k.instructions, BoostCertificate.hasGoodLimit k insn = true := by
    simp [Meets, obligations, BoostCertificate.obligations, BoostCertificate.ofKernel]
  simp only [hlimits, BoostCertificate.hasGoodLimit_iff]
  refine and_iff_right_of_imp fun hgood insn hinsn => ?_
  obtain ⟨boostable, into, hboostable, -⟩ := hgood insn hinsn
  rw [hboostable]
  exact Option.some_ne_none boostable

/-- The obligations of choosing layouts are that every temporary has one, and that all local ones
together take less than the usable memory as soon as one of them is padded. -/
theorem meets_adjustStorage_iff :
    Pass.adjustStorage.Meets before k ↔
      (∀ t ∈ k.temporaries.values, t.storageShape.isSome = true) ∧
      ∃ bytes, k.localBytes = .ok bytes ∧
        ((∃ t ∈ k.temporaries.values, t.isLocal = true ∧ t.layout ≠ t.shape) →
          bytes < k.device.usableMemory) := by
  have hmissing : (k.temporaries.values.filter fun t => t.storageShape.isNone).map
      Temporary.name = [] ↔ ∀ t ∈ k.temporaries.values, t.storageShape.isSome = true := by
    simp [List.filter_eq_nil_iff, Option.isSome_iff_ne_none]
  have hpadded : (k.temporaries.values.any fun t => t.isLocal && t.layout != t.shape) = true ↔
      ∃ t ∈ k.temporaries.values, t.isLocal = true ∧ t.layout ≠ t.shape := by
    simp
  rw [← hmissing, ← hpadded]
  simp only [Meets, obligations, StorageCertificate.ofKernel, Attempt.bind_eq_ok,
    Attempt.pure_eq_ok]
  constructor
  · rintro ⟨_, ⟨c, ⟨bytes, hbytes, rfl⟩, rfl⟩, hmet⟩
    obtain ⟨hnone, hbudget⟩ := StorageCertificate.met_iff.mp hmet
    exact ⟨hnone, bytes, hbytes, hbudget⟩
  · rintro ⟨hnone, bytes, hbytes, hbudget⟩
    exact ⟨_, ⟨_, ⟨bytes, hbytes, rfl⟩, rfl⟩, StorageCertificate.met_iff.mpr ⟨hnone, hbudget⟩⟩

end Pass

end LoopKernel
