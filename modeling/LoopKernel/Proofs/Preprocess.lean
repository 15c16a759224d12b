import LoopKernel.Proofs.WellFormed.Runs

/-!
# Preprocessing as a run

A preprocessing that gives a kernel has run all its passes, each one on what the one before gave.
Certificates decide whether it goes on, and have no part in what it gives.
-/

namespace LoopKernel

variable {k after out : Kernel} {p : Preprocessing} {certify : Bool}

namespace Preprocessing

/-- The outcome of a preprocessing that gives a kernel. -/
theorem outcome_of_mem_toOption (h : out ∈ p.outcome.toOption) : p.outcome = .ok out := by
  cases houtcome : p.outcome with
  | error _ =>
    rw [houtcome] at h
    cases h
  | ok _ =>
    rw [houtcome] at h
    cases h
    rfl

/-- A pass that gives a kernel is a step of a run. -/
theorem run_of_runPass {pass : Pass} {diagnostics : List Diagnostic}
    (h : runPass certify pass k = .ok (some after, diagnostics)) :
    Kernel.Step.run k (.pass pass) = .ok after := by
  rw [runPass, Attempt.bind_eq_ok] at h
  obtain ⟨result, hresult, h⟩ := h
  cases result with
  | error d => simp at h
  | ok result =>
    have hafter : result.1 = after := by
      dsimp only at h
      split at h <;>
      · simp only [Attempt.bind_eq_ok, Attempt.pure_eq_ok, Prod.mk.injEq, Option.some.injEq] at h
        obtain ⟨-, -, hafter, -⟩ := h
        exact hafter
    rw [Kernel.Step.run, Attempt.bind_eq_ok]
    exact ⟨result, Attempt.caught_eq_ok.mp hresult, Attempt.pure_eq_ok.mpr hafter⟩

/-- Passes that give a kernel are a run. -/
theorem foldlM_of_runPasses {passes : List Pass} (h : runPasses certify passes k = .ok p)
    (hout : p.outcome = .ok out) :
    (passes.map Kernel.Step.pass).foldlM Kernel.Step.run k = .ok out := by
  induction passes generalizing k p with
  | nil =>
    rw [runPasses, Attempt.pure_eq_ok] at h
    subst h
    cases hout
    rfl
  | cons pass rest ih =>
    rw [runPasses, Attempt.bind_eq_ok] at h
    obtain ⟨⟨result, diagnostics⟩, hpass, h⟩ := h
    cases result with
    | none =>
      rw [Attempt.pure_eq_ok] at h
      subst h
      cases hout
    | some after =>
      simp only at h
      split at h
      · rw [Attempt.pure_eq_ok] at h
        subst h
        cases hout
      · simp only [Attempt.bind_eq_ok, Attempt.pure_eq_ok] at h
        obtain ⟨q, hrest, rfl⟩ := h
        rw [List.map_cons, List.foldlM_cons, Attempt.bind_eq_ok]
        exact ⟨after, run_of_runPass hpass, ih hrest hout⟩

end Preprocessing

/-- The kernels between the passes of a preprocessing that comes to its last pass. -/
theorem Kernel.preprocess_spec {options : PreprocessOptions}
    (hterminal : options.terminal = .adjustStorage) (h : k.preprocess options = .ok p)
    (hout : p.outcome = .ok out) : ∃ copied realized assigned limited problems,
      k.markLocalTemporaries.duplicateReductionInames = .ok copied ∧
      copied.realizeReduction = .ok realized ∧ realized.assignAutomaticAxes = .ok assigned ∧
      assigned.inferDependencies.1.limitBoostability = .ok limited ∧
      limited.adjustStorage = .ok (out, problems) := by
  have hrun := Preprocessing.foldlM_of_runPasses h hout
  rw [hterminal] at hrun
  simp only [Pass.required, Pass.position, Pass.all, List.take, List.map, List.foldlM_cons,
    List.foldlM_nil, Step.run, Pass.run, Attempt.bind_eq_ok, Attempt.pure_eq_ok, Prod.exists,
    Pass.quiet_eq_ok, Prod.mk.injEq] at hrun
  obtain ⟨_, ⟨_, _, ⟨rfl, -⟩, rfl⟩, copied, ⟨_, _, ⟨hcopied, -⟩, rfl⟩, realized,
    ⟨_, _, ⟨hrealized, -⟩, rfl⟩, assigned, ⟨_, _, ⟨hassigned, -⟩, rfl⟩, inferred,
    ⟨_, _, hinferred, rfl⟩, limited, ⟨_, _, ⟨hlimited, -⟩, rfl⟩, _, ⟨_, problems, hadjusted, rfl⟩,
    rfl⟩ := hrun
  refine ⟨_, _, _, _, problems, hcopied, hrealized, hassigned, ?_, Attempt.liftM_eq_ok.mp hadjusted⟩
  rw [hinferred]
  exact hlimited

end LoopKernel
