import LoopKernel.Proofs.Certificate.Obligations
import LoopKernel.Proofs.Preprocess
import LoopKernel.Proofs.Storage.Writes

/-!
# Certificates are kept

A certificate is checked right after its own pass. Later passes change nothing that it looks at, or
change it in a way that does no harm, so the kernel at the end of a run meets the obligations of
every pass of the run.
-/

namespace LoopKernel

variable {k k' before out : Kernel}

/-- An instruction without what inference and limiting write into it. -/
def Instruction.bare (insn : Instruction) : Instruction :=
  { insn with deps := ∅, boostable := none, boostableInto := none }

/-- Whether two kernels run the same assignments over the same loops. -/
structure Kernel.SameLoops (k k' : Kernel) : Prop where
  others : k' = { k with instructions := k'.instructions, temporaries := k'.temporaries }
  bare : k'.instructions.map Instruction.bare = k.instructions.map Instruction.bare

/-! ## Passes that keep the loops -/

namespace Kernel

/-- Inferring dependencies keeps the loops. -/
theorem sameLoops_inferDependencies (k : Kernel) : k.SameLoops k.inferDependencies.1 :=
  ⟨rfl, by
    rw [inferDependencies, List.map_map]
    rfl⟩

/-- Limiting extra runs keeps the loops, and all that is known about extra runs. -/
theorem sameLoops_limitBoostability (h : k.limitBoostability = .ok k') :
    k.SameLoops k' ∧
      k'.instructions.map Instruction.boostable = k.instructions.map Instruction.boostable := by
  unfold limitBoostability at h
  simp only [Attempt.bind_eq_ok, Attempt.pure_eq_ok] at h
  obtain ⟨insns, hinsns, rfl⟩ := h
  refine ⟨⟨rfl, Attempt.map_of_mapM ?_ hinsns⟩, Attempt.map_of_mapM ?_ hinsns⟩
  · intro insn limited hlimited
    obtain ⟨_, rfl, -⟩ := limitFor_spec hlimited
    rfl
  · intro insn limited hlimited
    obtain ⟨_, rfl, -⟩ := limitFor_spec hlimited
    rfl

/-- Choosing layouts changes the temporaries alone. -/
theorem adjustStorage_keeps {problems : List Diagnostic}
    (h : k.adjustStorage = .ok (k', problems)) :
    k' = { k with temporaries := k'.temporaries } := (chooseLayouts_keeps h).1

/-- Choosing layouts keeps the loops. -/
theorem sameLoops_adjustStorage {problems : List Diagnostic}
    (h : k.adjustStorage = .ok (k', problems)) : k.SameLoops k' := by
  rw [adjustStorage_keeps h]
  exact ⟨rfl, rfl⟩

end Kernel

/-! ## Obligations -/

namespace Pass

/-- The obligations of choosing axes are about the loops alone. -/
theorem obligations_assignAxes_congr (h : k.SameLoops k') :
    Pass.assignAxes.obligations before k' = Pass.assignAxes.obligations before k := by
  obtain ⟨hothers, hbare⟩ := h
  have hshared : (k'.instructions.filter (AxisCertificate.sharesAxis k')).map Instruction.id =
      (k.instructions.filter (AxisCertificate.sharesAxis k)).map Instruction.id := by
    have hsame : AxisCertificate.sharesAxis k' = AxisCertificate.sharesAxis k := by
      rw [hothers]
      rfl
    have hids : ∀ insns : List Instruction,
        (insns.filter (AxisCertificate.sharesAxis k)).map Instruction.id =
          ((insns.map Instruction.bare).filter (AxisCertificate.sharesAxis k)).map
            Instruction.id := by
      intro insns
      rw [List.filter_map, List.map_map]
      rfl
    rw [hsame, hids, hbare, ← hids]
  have hoversized : ∀ lengths, AxisCertificate.isOversized k' lengths =
      AxisCertificate.isOversized k lengths := by
    intro lengths
    rw [hothers]
    rfl
  have htags : k'.tags = k.tags := by rw [hothers]
  simp only [obligations, AxisCertificate.ofKernel, hshared, hoversized, htags]

/-- A step that chooses an axis leaves no reduction where there was none. -/
theorem Meets.axisStep {lengths : List Int} (h : Pass.realizeReduction.Meets before k)
    (hstep : Kernel.AxisStep lengths k k') : Pass.realizeReduction.Meets before k' := by
  rw [meets_realizeReduction_iff] at h ⊢
  cases hstep with
  | demote | assign => exact h
  | split hmay havailable hsplit =>
    obtain ⟨-, -, domain, -, rfl⟩ := Kernel.splitIname_spec hsplit
    intro insn hinsn
    obtain ⟨old, hold, rfl⟩ := List.mem_map.mp hinsn
    exact ⟨(IndexSplit.containsReduction_splitExpr _).trans (h old hold).1,
      (IndexSplit.containsReduction_splitExpr _).trans (h old hold).2⟩

/-- Kernels with the same loops have the same reductions. -/
theorem Meets.realizeReduction_congr (h : Pass.realizeReduction.Meets before k)
    (hk : k.SameLoops k') : Pass.realizeReduction.Meets before k' := by
  rw [meets_realizeReduction_iff] at h ⊢
  intro insn hinsn
  have hmem : insn.bare ∈ k.instructions.map Instruction.bare :=
    hk.bare ▸ List.mem_map_of_mem hinsn
  obtain ⟨old, hold, hbare⟩ := List.mem_map.mp hmem
  have hexpression : old.bare.expression = insn.bare.expression :=
    congrArg Instruction.expression hbare
  have hassignee : old.bare.assignee = insn.bare.assignee := congrArg Instruction.assignee hbare
  change old.expression = insn.expression at hexpression
  change old.assignee = insn.assignee at hassignee
  rw [← hexpression, ← hassignee]
  exact h old hold

/-- Choosing axes leaves no reduction where there was none. -/
theorem Meets.axisSteps {lengths : List Int} (h : Pass.realizeReduction.Meets before k)
    (hsteps : Relation.ReflTransGen (Kernel.AxisStep lengths) k k') :
    Pass.realizeReduction.Meets before k' := by
  induction hsteps with
  | refl => exact h
  | tail _ hstep ih => exact ih.axisStep hstep

/-- A later pass keeps what an earlier one has to guarantee. -/
theorem Meets.kept {p q : Pass} {problems : List Diagnostic} (h : p.Meets before k)
    (hlater : p.position < q.position) (hk : q.run k = .ok (k', problems)) :
    p.Meets before k' := by
  -- The passes after the assignment of axes leave the loops as they are; what was said of the loops
  -- before them still holds.
  have hloops : Pass.assignAxes.position < q.position → k.SameLoops k' := by
    intro hq
    cases q with
    | markLocal | duplicateInames | realizeReduction | assignAxes => simp [position] at hq
    | inferDependencies =>
      rw [Pass.run, Attempt.pure_eq_ok] at hk
      have hfirst : k.inferDependencies.1 = k' := congrArg Prod.fst hk
      exact hfirst ▸ k.sameLoops_inferDependencies
    | limitBoostability => exact (Kernel.sameLoops_limitBoostability (quiet_eq_ok.mp hk).1).1
    | adjustStorage => exact Kernel.sameLoops_adjustStorage (Attempt.liftM_eq_ok.mp hk)
  cases p with
  | markLocal | duplicateInames => exact h
  | realizeReduction =>
    by_cases hq : q = .assignAxes
    · subst hq
      obtain ⟨lengths, -, hsteps, -⟩ := Kernel.assignAutomaticAxes_spec (quiet_eq_ok.mp hk).1
      exact h.axisSteps hsteps
    · apply h.realizeReduction_congr (hloops _)
      revert hq hlater
      cases q <;> simp [position]
  | assignAxes =>
    unfold Meets
    rw [obligations_assignAxes_congr (hloops hlater)]
    exact h
  | inferDependencies =>
    rw [meets_inferDependencies_iff] at h ⊢
    cases q with
    | limitBoostability =>
      rw [(Kernel.sameLoops_limitBoostability (quiet_eq_ok.mp hk).1).2]
      exact h
    | adjustStorage =>
      rw [Kernel.adjustStorage_keeps (Attempt.liftM_eq_ok.mp hk)]
      exact h
    | _ => simp [position] at hlater
  | limitBoostability =>
    cases q with
    | adjustStorage =>
      rw [Kernel.adjustStorage_keeps (Attempt.liftM_eq_ok.mp hk)]
      exact h
    | _ => simp [position] at hlater
  | adjustStorage => cases q <;> simp [position] at hlater

/-- A check that reports no error has found all obligations met. -/
theorem meets_of_certify {p : Pass} {after : Kernel} {failures : List Diagnostic}
    (h : p.certify before after = .ok failures) (hclean : failures.any Diagnostic.isError = false) :
    p.Meets before after := by
  rw [certify, Attempt.bind_eq_ok] at h
  obtain ⟨obligations, hobligations, h⟩ := h
  refine ⟨obligations, hobligations, ?_⟩
  split at h
  next hfailed =>
    intro o ho
    have hmet := List.filter_eq_nil_iff.mp hfailed o ho
    simpa using hmet
  next =>
    rw [Attempt.pure_eq_ok] at h
    subst h
    cases hclean

/-- A pass that a run needs divides it into the passes before, which are all those that come before
it in the order, and later ones. -/
theorem required_eq_append {p terminal : Pass} (h : p ∈ terminal.required) :
    terminal.required = all.take p.position ++ p :: terminal.required.drop (p.position + 1) ∧
      ∀ q ∈ terminal.required.drop (p.position + 1), p.position < q.position := by
  revert h
  cases terminal <;> cases p <;> decide

end Pass

/-! ## Certified runs -/

namespace Preprocessing

/-- Whether a run of passes with certificates comes to its end, with a given kernel. -/
def Reaches (passes : List Pass) (k out : Kernel) : Prop :=
  ∃ reports, runPasses true passes k = .ok ⟨.ok out, reports⟩

/-- A run goes on after a pass that gives a kernel and reports no error. -/
theorem runPasses_cons_eq_ok {p : Pass} {rest : List Pass} {reports : List PassReport} :
    runPasses true (p :: rest) k = .ok ⟨.ok out, reports⟩ ↔
      ∃ after diagnostics later, runPass true p k = .ok (some after, diagnostics) ∧
        diagnostics.any Diagnostic.isError = false ∧
        runPasses true rest after = .ok ⟨.ok out, later⟩ ∧ reports = ⟨p, diagnostics⟩ :: later := by
  rw [runPasses, Attempt.bind_eq_ok]
  constructor
  · rintro ⟨⟨_ | after, diagnostics⟩, hpass, h⟩
    · rw [Attempt.pure_eq_ok] at h
      cases h
    · dsimp only at h
      split at h
      · rw [Attempt.pure_eq_ok] at h
        cases h
      next hclean =>
        rw [Attempt.bind_eq_ok] at h
        obtain ⟨⟨outcome, later⟩, hrest, h⟩ := h
        rw [Attempt.pure_eq_ok, cons, mk.injEq] at h
        obtain ⟨rfl, rfl⟩ := h
        exact ⟨after, diagnostics, later, hpass, by simpa using hclean, hrest, rfl⟩
  · rintro ⟨after, diagnostics, later, hpass, hclean, hrest, rfl⟩
    refine ⟨(some after, diagnostics), hpass, ?_⟩
    dsimp only
    rw [hclean, if_neg Bool.false_ne_true, Attempt.bind_eq_ok]
    exact ⟨_, hrest, rfl⟩

/-- A run that comes to its end has a report of each pass. -/
theorem map_pass_reports {passes : List Pass} {reports : List PassReport}
    (h : runPasses true passes k = .ok ⟨.ok out, reports⟩) :
    reports.map PassReport.pass = passes := by
  induction passes generalizing k reports with
  | nil =>
    rw [runPasses, Attempt.pure_eq_ok, mk.injEq] at h
    rw [← h.2, List.map_nil]
  | cons p rest ih =>
    obtain ⟨after, diagnostics, later, -, -, hrest, rfl⟩ := runPasses_cons_eq_ok.mp h
    rw [List.map_cons, ih hrest]

/-- No pass reaches the kernel that it starts from. -/
theorem reaches_nil : Reaches [] k out ↔ k = out := by
  simp [Reaches, runPasses]

/-- One pass more is one that gives a kernel and reports no error. -/
theorem reaches_cons {p : Pass} {rest : List Pass} :
    Reaches (p :: rest) k out ↔ ∃ after diagnostics,
      runPass true p k = .ok (some after, diagnostics) ∧
        diagnostics.any Diagnostic.isError = false ∧ Reaches rest after out := by
  simp only [Reaches, runPasses_cons_eq_ok]
  constructor
  · rintro ⟨_, after, diagnostics, later, hpass, hclean, hrest, -⟩
    exact ⟨after, diagnostics, hpass, hclean, later, hrest⟩
  · rintro ⟨after, diagnostics, hpass, hclean, later, hrest⟩
    exact ⟨_, after, diagnostics, later, hpass, hclean, hrest, rfl⟩

/-- A run may be cut anywhere. -/
theorem reaches_append {done rest : List Pass} :
    Reaches (done ++ rest) k out ↔ ∃ middle, Reaches done k middle ∧ Reaches rest middle out := by
  induction done generalizing k with
  | nil => simp [reaches_nil]
  | cons p done ih =>
    simp only [List.cons_append, reaches_cons, ih]
    constructor
    · rintro ⟨after, diagnostics, hpass, hclean, middle, hdone, hrest⟩
      exact ⟨middle, ⟨after, diagnostics, hpass, hclean, hdone⟩, hrest⟩
    · rintro ⟨middle, ⟨after, diagnostics, hpass, hclean, hdone⟩, hrest⟩
      exact ⟨after, diagnostics, hpass, hclean, middle, hdone, hrest⟩

/-- A pass that lets the run go on gave its kernel, and this kernel meets its obligations. -/
theorem meets_of_runPass {p : Pass} {after : Kernel} {diagnostics : List Diagnostic}
    (h : runPass true p k = .ok (some after, diagnostics))
    (hclean : diagnostics.any Diagnostic.isError = false) :
    (∃ problems, p.run k = .ok (after, problems)) ∧ p.Meets k after := by
  rw [runPass, Attempt.bind_eq_ok] at h
  obtain ⟨_ | ⟨given, problems⟩, hresult, h⟩ := h
  · rw [Attempt.pure_eq_ok] at h
    cases h
  · simp only [if_true, Attempt.bind_eq_ok, Attempt.pure_eq_ok, Prod.mk.injEq,
      Option.some.injEq] at h
    obtain ⟨failures, hcertify, rfl, rfl⟩ := h
    rw [List.any_append, Bool.or_eq_false_iff] at hclean
    exact ⟨⟨problems, Attempt.caught_eq_ok.mp hresult⟩, Pass.meets_of_certify hcertify hclean.2⟩

/-- Later passes of a run keep what an earlier one has to guarantee. -/
theorem Reaches.keeps {p : Pass} {later : List Pass} (h : Reaches later k out)
    (hlater : ∀ q ∈ later, p.position < q.position) (hmeets : p.Meets before k) :
    p.Meets before out := by
  induction later generalizing k with
  | nil => exact reaches_nil.mp h ▸ hmeets
  | cons q later ih =>
    obtain ⟨after, diagnostics, hpass, hclean, hrest⟩ := reaches_cons.mp h
    obtain ⟨⟨problems, hrun⟩, -⟩ := meets_of_runPass hpass hclean
    exact ih hrest (fun r hr => hlater r (List.mem_cons_of_mem q hr))
      (hmeets.kept (hlater q List.mem_cons_self) hrun)

/-- Each pass on the way entered a kernel that came out of the passes before it, and the output
meets its obligations for that kernel. -/
theorem Reaches.exists_meets {terminal p : Pass} (h : Reaches terminal.required k out)
    (hp : p ∈ terminal.required) :
    ∃ before, Reaches (Pass.all.take p.position) k before ∧ p.Meets before out := by
  obtain ⟨hsplit, hlater⟩ := Pass.required_eq_append hp
  rw [hsplit, reaches_append] at h
  obtain ⟨before, hdone, hrest⟩ := h
  obtain ⟨after, diagnostics, hpass, hclean, hrest⟩ := reaches_cons.mp hrest
  exact ⟨before, hdone, hrest.keeps hlater (meets_of_runPass hpass hclean).2⟩

end Preprocessing

namespace Kernel

/-- The output of a preprocessing with certificates meets the obligations of all passes that ran,
each one for the kernel that the pass entered. -/
theorem meets_of_preprocess {terminal : Pass} {reports : List PassReport}
    (h : k.preprocess ⟨terminal, true⟩ = .ok ⟨.ok out, reports⟩) :
    reports.map PassReport.pass = terminal.required ∧
      ∀ p ∈ terminal.required, ∃ before,
        Preprocessing.Reaches (Pass.all.take p.position) k before ∧ p.Meets before out := by
  have hreaches : Preprocessing.Reaches terminal.required k out := ⟨reports, h⟩
  exact ⟨Preprocessing.map_pass_reports h, fun p hp => hreaches.exists_meets hp⟩

/-- Sums of rows, with an axis to be chosen for the index of the rows. -/
def openRowSumSource : String :=
  "domain [i, j] : 0 <= i < 8 and 0 <= j < 4
arg global int32 a[8, 4]
arg global int32 x[8]
" ++
    "tag i = l.auto
insn s: x[i] = sum(@j, a[i, j])
"

/-- All passes run on it, and the result meets the obligations of each. -/
theorem meets_of_preprocess_openRowSum :
    ∃ k out reports, Source.load openRowSumSource .fermi = .ok k ∧
      k.preprocess ⟨.adjustStorage, true⟩ = .ok ⟨.ok out, reports⟩ ∧
      ∀ p ∈ Pass.all, ∃ before,
        Preprocessing.Reaches (Pass.all.take p.position) k before ∧ p.Meets before out := by
  obtain ⟨k, hload, p, hp, hsome⟩ : ∃ k, Source.load openRowSumSource .fermi = .ok k ∧
      ∃ p, k.preprocess ⟨.adjustStorage, true⟩ = .ok p ∧ p.outcome.toOption.isSome = true := by
    decide +kernel
  obtain ⟨out, hmem⟩ := Option.isSome_iff_exists.mp hsome
  have hout := Preprocessing.outcome_of_mem_toOption hmem
  obtain ⟨outcome, reports⟩ := p
  subst hout
  exact ⟨k, out, reports, hload, hp, (meets_of_preprocess hp).2⟩

/-- After all passes with certificates no reduction is left, no axis is open and no instruction uses
one twice, each instruction has its limits for extra runs, and every temporary has a layout, padded
within the budget of local memory. -/
theorem certified_of_preprocess {reports : List PassReport}
    (h : k.preprocess ⟨.adjustStorage, true⟩ = .ok ⟨.ok out, reports⟩) :
    (∀ insn ∈ out.instructions,
      insn.expression.containsReduction = false ∧ insn.assignee.containsReduction = false) ∧
    (∀ n, (out.tag n).isAuto = false) ∧ out.ExclusiveAxes ∧
    (∀ insn ∈ out.instructions, ∃ boostable into, insn.boostable = some boostable ∧
      insn.boostableInto = some into ∧
        ∀ n ∈ into, boostable = true ∧ n ∉ out.insnInames insn) ∧
    (∀ t ∈ out.temporaries.values, t.storageShape.isSome = true) ∧
    ∃ bytes, out.localBytes = .ok bytes ∧
      ((∃ t ∈ out.temporaries.values, t.isLocal = true ∧ t.layout ≠ t.shape) →
        bytes < out.device.usableMemory) := by
  have hreaches : Preprocessing.Reaches Pass.adjustStorage.required k out := ⟨reports, h⟩
  have hmeets {p : Pass} (hp : p ∈ Pass.adjustStorage.required) : ∃ before, p.Meets before out :=
    (hreaches.exists_meets hp).imp fun _ hmet => hmet.2
  obtain ⟨_, hrealized⟩ := hmeets (p := .realizeReduction) (by decide)
  obtain ⟨_, haxes⟩ := hmeets (p := .assignAxes) (by decide)
  obtain ⟨_, hlimited⟩ := hmeets (p := .limitBoostability) (by decide)
  obtain ⟨_, hstored⟩ := hmeets (p := .adjustStorage) (by decide)
  obtain ⟨_, -, hchosen, -, hexclusive⟩ := Pass.meets_assignAxes_iff.mp haxes
  exact ⟨Pass.meets_realizeReduction_iff.mp hrealized, hchosen, hexclusive,
    Pass.meets_limitBoostability_iff.mp hlimited, Pass.meets_adjustStorage_iff.mp hstored⟩

end Kernel

end LoopKernel
