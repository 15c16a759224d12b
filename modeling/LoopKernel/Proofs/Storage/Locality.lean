import LoopKernel.Proofs.Axis.Locality
import LoopKernel.Proofs.Preprocess
import LoopKernel.Proofs.Reduction.Assignees

/-!
# Locality flags after preprocessing

Preprocessing decides first which temporaries are local. Axes are chosen later, and then a loop
index whose axis was open may become sequential. The flags stay as they were decided. So at the end
they are those that the tags of then determine exactly if the temporaries with a local axis in the
index of an element that is written are the same ones as at the start.
-/

namespace LoopKernel.Kernel

variable {k k' out : Kernel} {v : String} {options : PreprocessOptions} {p : Preprocessing}

/-- What stands when axes are about to be chosen: the flags are those that the tags determine,
elements are written as at the start or belong to accumulators, and no reduction is left. -/
structure Prepared (k c : Kernel) : Prop where
  wellFormed : c.WellFormed
  tag : ∀ n, c.tag n = k.tag n
  kept : ∀ v index, k.Writes v index → c.Writes v index
  written : ∀ v index, c.Writes v index →
    k.Writes v index ∨ ∀ n ∈ Expr.dependenciesOfAll index, c.tag n = .ilp
  plain : ∀ insn ∈ c.instructions, insn.assignee.containsReduction = false
  flags : ∀ v t, c.temporaries.get? v = some t →
    (t.isLocal = true ↔ k.temporaries.contains v = true ∧ k.WritesLocally v)

/-- The first three passes prepare a kernel. -/
theorem WellFormed.prepared {copied realized : Kernel} (h : k.WellFormed)
    (hcopied : k.markLocalTemporaries.duplicateReductionInames = .ok copied)
    (hrealized : copied.realizeReduction = .ok realized) : Prepared k realized := by
  have hmarked := h.markLocalTemporaries
  have hwf := hmarked.duplicateReductionInames hcopied
  have hcopiedWrites : ∀ v index, copied.Writes v index ↔ k.markLocalTemporaries.Writes v index :=
    fun v index => writes_duplicateReductionInames hcopied
  have hcopiedTag : ∀ n, copied.tag n = k.tag n := fun n =>
    hmarked.tag_duplicateReductionInames hcopied
  have hcopiedTemporaries : copied.temporaries = k.markLocalTemporaries.temporaries := by
    obtain ⟨-, -, -, hsame⟩ := duplicateReductionInames_spec hcopied
    rw [hsame]
  obtain ⟨hsame, hkept, hwritten, htemporaries, hplain⟩ := realizeReduction_keeps hrealized
  have htag : ∀ n, realized.tag n = copied.tag n := fun n => by rw [hsame, tag]; rfl
  refine ⟨hwf.realizeReduction hrealized, fun n => (htag n).trans (hcopiedTag n),
    fun v index hwrites => hkept v index ((hcopiedWrites v index).mpr hwrites),
    fun v index hwrites => ?_, hplain, fun v t ht => ?_⟩
  · refine (hwritten v index hwrites).imp (hcopiedWrites v index).mp fun hilp n hn => ?_
    exact (htag n).trans (hilp n hn)
  · rcases htemporaries v t ht with hold | ⟨hprivate, hnew⟩
    · rw [hcopiedTemporaries] at hold
      obtain ⟨before, hbefore, flag, hflag, rfl⟩ := h.get?_temporaries_markLocalTemporaries.mp hold
      have hdeclared := SortedMap.contains_iff.mpr ⟨before, hbefore⟩
      exact hflag.trans (and_iff_right hdeclared).symm
    · refine ⟨fun hlocal => ?_, fun hdeclared => absurd (mem_names.mpr (.inr (.inl ?_))) hnew⟩
      · rw [hprivate] at hlocal
        cases hlocal
      · rw [hcopiedTemporaries, SortedMap.contains, Kernel.markLocalTemporaries,
          SortedMap.get?_mapValues, Option.isSome_map]
        exact hdeclared.1

/-- Which arrays are written locally when axes are chosen after the first three passes. -/
theorem Prepared.writesLocally_iff {c : Kernel} {lengths : List Int} (h : Prepared k c)
    (hsteps : Relation.ReflTransGen (AxisStep lengths) c k') :
    k'.WritesLocally v ↔ ∃ index, k.Writes v index ∧ k.EndsLocal k' index := by
  have hends : ∀ index, c.EndsLocal k' index ↔ k.EndsLocal k' index := fun index => by
    simp only [EndsLocal, h.tag]
  rw [h.wellFormed.writesLocally_iff_of_axisSteps h.plain hsteps]
  constructor
  · rintro ⟨index, hwrites, hlocal⟩
    rcases h.written v index hwrites with hold | hilp
    · exact ⟨index, hold, (hends index).mp hlocal⟩
    · -- The lanes of an accumulator keep their tags.
      have hkept : ∀ n ∈ Expr.dependenciesOfAll index, k'.tags.get? n = some .ilp := by
        intro n hn
        have hget := get?_tags_of_ne_sequential (k := c) (n := n) (by simp [hilp n hn])
        rw [hilp n hn] at hget
        exact h.wellFormed.get?_tags_of_axisSteps hsteps hget rfl
      rcases hlocal with ⟨n, hn, hlocal⟩ | ⟨n, hn, hopen, -⟩
      · rw [Kernel.tag, SortedMap.getD, hkept n hn] at hlocal
        cases hlocal
      · have hplain := hwrites.plain h.plain
        rw [hilp n ((Expr.mem_dependenciesOfAll_iff index hplain).mpr (.inl hn))] at hopen
        cases hopen
  · rintro ⟨index, hwrites, hlocal⟩
    exact ⟨index, h.kept v index hwrites, (hends index).mpr hlocal⟩

/-- What is settled when axes are chosen: tags, the elements that are written and flags. -/
structure Settled (c out : Kernel) : Prop where
  tags : out.tags = c.tags
  writes : ∀ v index, out.Writes v index ↔ c.Writes v index
  flags : ∀ v t, out.temporaries.get? v = some t → ∃ before,
    c.temporaries.get? v = some before ∧ t.isLocal = before.isLocal

/-- The last three passes change nothing that is settled. -/
theorem settled {problems : List Diagnostic}
    (hlimited : k.inferDependencies.1.limitBoostability = .ok k')
    (hadjusted : k'.adjustStorage = .ok (out, problems)) : Settled k out := by
  obtain ⟨hlimitedSame, hlimitedWrites⟩ := limitBoostability_keeps hlimited
  obtain ⟨hsame, hflags⟩ := chooseLayouts_keeps hadjusted
  refine ⟨by rw [hsame, hlimitedSame]; rfl, fun v index => ?_, fun v t ht => ?_⟩
  · have hinferred : k.inferDependencies.1.Writes v index ↔ k.Writes v index := by
      apply writes_congr
      rw [instructions_inferDependencies, List.map_map]
      rfl
    rw [hsame]
    exact (hlimitedWrites v index).trans hinferred
  · obtain ⟨before, hbefore, hlocal⟩ := hflags v t ht
    rw [hlimitedSame] at hbefore
    exact ⟨before, hbefore, hlocal⟩

/-- Deciding on locality anew after a preprocessing changes nothing exactly if the temporaries that
were written along a local axis at the start, and no others, have a local axis left in the index of
an element that is written. -/
theorem markLocalTemporaries_preprocess_iff {source : String} {device : Device}
    (hload : Source.load source device = .ok k) (hterminal : options.terminal = .adjustStorage)
    (hp : k.preprocess options = .ok p) (hout : p.outcome = .ok out) :
    out.markLocalTemporaries = out ↔ ∀ v, out.temporaries.contains v = true →
      (k.temporaries.contains v = true ∧ k.WritesLocally v ↔
        ∃ index, k.Writes v index ∧ k.EndsLocal out index) := by
  have hwf := Source.wellFormed_of_load hload
  obtain ⟨copied, realized, assigned, limited, _, hcopied, hrealized, hassigned, hlimited,
    hadjusted⟩ := preprocess_spec hterminal hp hout
  have hprepared := hwf.prepared hcopied hrealized
  obtain ⟨lengths, -, hsteps, -⟩ := assignAutomaticAxes_spec hassigned
  have hsettled := settled hlimited hadjusted
  have hwfOut : out.WellFormed := (((hprepared.wellFormed.assignAutomaticAxes
    hassigned).inferDependencies).limitBoostability hlimited).adjustStorage hadjusted
  have htag : ∀ n, out.tag n = assigned.tag n := fun n => by rw [tag, hsettled.tags, tag]
  have hwrites : ∀ v, out.WritesLocally v ↔
      ∃ index, k.Writes v index ∧ k.EndsLocal out index := by
    intro v
    have hbefore := hprepared.writesLocally_iff (v := v) hsteps
    simp only [WritesLocally, EndsLocal, hsettled.writes, htag, hsettled.tags] at hbefore ⊢
    exact hbefore
  have hflags : ∀ v t, out.temporaries.get? v = some t →
      (t.isLocal = true ↔ k.temporaries.contains v = true ∧ k.WritesLocally v) := by
    intro v t ht
    obtain ⟨before, hbefore, hlocal⟩ := hsettled.flags v t ht
    rw [temporaries_of_axisSteps hsteps] at hbefore
    rw [hlocal]
    exact hprepared.flags v before hbefore
  rw [hwfOut.markLocalTemporaries_eq_self_iff]
  constructor
  · intro hcurrent v hv
    obtain ⟨t, ht⟩ := SortedMap.contains_iff.mp hv
    exact (hflags v t ht).symm.trans ((hcurrent v t ht).trans (hwrites v))
  · intro hsame v t ht
    have hv := SortedMap.contains_iff.mpr ⟨t, ht⟩
    exact (hflags v t ht).trans ((hsame v hv).trans (hwrites v).symm)

/-- A row in a temporary, with an axis to be chosen for its index. -/
def openIndexSource : String :=
  "domain [i] : 0 <= i < 16\ntemp float32 t[16]\ntag i = l.auto\ninsn a: t[i] = 1\n"

/-- There is no axis, the index becomes sequential, and the row is taken for local all the same. -/
theorem markLocalTemporaries_preprocess_iff_openIndex :
    ∃ k p out, Source.load openIndexSource .fermi = .ok k ∧ k.preprocess .default = .ok p ∧
      p.outcome = .ok out ∧ out.markLocalTemporaries ≠ out := by
  obtain ⟨k, hload, hdeclared, hmarked, p, hp, out, hmem, hcontains, htags⟩ :
      ∃ k, Source.load openIndexSource .fermi = .ok k ∧ k.temporaries.contains "t" = true ∧
        k.anyWritesLocally (k.writers.getD "t" ∅) = true ∧
        ∃ p, k.preprocess .default = .ok p ∧ ∃ out ∈ p.outcome.toOption,
          out.temporaries.contains "t" = true ∧ ∀ insn ∈ k.instructions,
            (∀ n ∈ Expr.dependenciesOfAll insn.targetIndex, (out.tag n).isLocal = false) ∧
              ∀ n ∈ Expr.variableNamesOfAll insn.targetIndex,
                out.tags.get? n = some .sequential := by decide +kernel
  have hout := Preprocessing.outcome_of_mem_toOption hmem
  refine ⟨k, p, out, hload, hp, hout, fun hcurrent => ?_⟩
  have hiff := markLocalTemporaries_preprocess_iff hload rfl hp hout
  have hwrites := (Source.wellFormed_of_load hload).anyWritesLocally_iff.mp hmarked
  obtain ⟨index, ⟨insn, hinsn, hassignee⟩, hends⟩ :=
    (hiff.mp hcurrent "t" hcontains).mp ⟨hdeclared, hwrites⟩
  have hindex : insn.targetIndex = index := by rw [Instruction.targetIndex, hassignee]
  obtain ⟨hnone, hsequential⟩ := hindex ▸ htags insn hinsn
  rcases hends with ⟨n, hn, hlocal⟩ | ⟨n, hn, -, hkeeps⟩
  · rw [hnone n hn] at hlocal
    cases hlocal
  · exact hkeeps (hsequential n hn)

end LoopKernel.Kernel
