import LoopKernel.Polyhedron.Checks
import LoopKernel.Proofs.Polyhedron.Simplification

/-!
# Guards against leaving the domain

What is left to be checked of a domain is necessary at every one of its points, and together with
what is implemented it is sufficient when all dimensions are checked. Each of the three operations
that lead to the checks drops conditions only for a reason: they are implied by others, they are
about dimensions that are not checked, or they are implemented already.
-/

namespace LoopKernel.Polyhedron

variable {s t : Polyhedron}

/-! ## Projections -/

/-- A projection onto dimensions mentions only these and parameters. -/
theorem mem_of_involves_eliminateExcept {keep : NameSet} (h : s.eliminateExcept keep = .ok t)
    {c : Constraint} (hc : c ∈ t.constraints) {v : String} (hv : c.involves v = true) :
    v ∈ keep ∨ v ∈ s.params := by
  have hall := constraints_eliminate h
  rw [Constraint.involves_iff] at hv
  by_cases hdim : v ∈ s.dims
  · left
    apply Classical.byContradiction
    intro hkeep
    refine hv (Constraint.coeff_eliminateAll hall (.inl ?_) c hc)
    rw [List.mem_filter, NameSet.contains_eq_false.mpr hkeep]
    exact ⟨hdim, rfl⟩
  · right
    apply Classical.byContradiction
    intro hparam
    refine hv (Constraint.coeff_eliminateAll hall (.inr fun d hd => ?_) c hc)
    apply Affine.coeff_of_not_mem_vars
    intro hmentioned
    exact hparam (mem_params.mpr ⟨⟨d, hd, hmentioned⟩, hdim⟩)

/-- Nothing is projected out when all dimensions are kept. -/
theorem eliminateExcept_of_forall {keep : NameSet} (hkeep : ∀ d ∈ s.dims, d ∈ keep) :
    s.eliminateExcept keep = .ok s := by
  have hnone : (s.dims.filter fun d => !keep.contains d) = [] := by
    rw [List.filter_eq_nil_iff]
    intro d hd
    rw [NameSet.contains_iff.mpr (hkeep d hd)]
    exact Bool.false_ne_true
  have hdims : (s.dims.filter fun d => !([] : List String).contains d) = s.dims :=
    List.filter_eq_self.mpr fun _ _ => rfl
  rw [eliminateExcept, hnone, eliminate, hdims]
  rfl

/-! ## Checks -/

/-- The checks are about dimensions that may be checked and about parameters, every point of the
domain passes them, and when all dimensions may be checked, a point that is implemented and passes
them is a point of the domain. -/
theorem boundsChecks_guard {domain implemented : Polyhedron} {inames : NameSet}
    {checks : List Constraint} (h : domain.boundsChecks inames implemented = .ok checks) :
    (∀ c ∈ checks, ∀ v, c.involves v = true → v ∈ inames ∨ v ∈ domain.params) ∧
      (∀ x : String → Int, domain.Holds x → ∀ c ∈ checks, c.Holds x) ∧
      ((∀ d ∈ domain.dims, d ∈ inames) → ∀ x : String → Int, implemented.Holds x →
        (∀ c ∈ checks, c.Holds x) → domain.Holds x) := by
  unfold boundsChecks at h
  simp only [Attempt.bind_eq_ok, Attempt.pure_eq_ok] at h
  obtain ⟨lean, hlean, projection, hprojection, rest, hrest, rfl⟩ := h
  obtain ⟨hdims, hsub, hholds⟩ := removeRedundancies_spec hlean
  obtain ⟨hkept, himplemented⟩ := gist_spec hrest
  refine ⟨fun c hc v hv => ?_, fun x hx c hc => ?_, fun hall x hx hchecks => ?_⟩
  · refine (mem_of_involves_eliminateExcept hprojection (hkept c hc) hv).imp_right fun hparam => ?_
    rw [mem_params, hdims] at hparam
    exact mem_params.mpr ⟨hparam.1.imp fun d hd => ⟨hsub d hd.1, hd.2⟩, hparam.2⟩
  · exact eliminate_holds_of_holds hprojection ((hholds x).mpr hx) c (hkept c hc)
  · rw [eliminateExcept_of_forall (hdims ▸ hall), Except.ok.injEq] at hprojection
    subst hprojection
    exact (hholds x).mp (himplemented x hx hchecks)

/-- Indices below a parameter and below sixteen, with a bound on their sum that no loop
implements. -/
def coupled : Polyhedron where
  dims := ["i", "j"]
  constraints := [
    ⟨.inequality, ⟨.ofList [("i", 1)], 0⟩⟩,
    ⟨.inequality, ⟨.ofList [("i", -1), ("n", 1)], -1⟩⟩,
    ⟨.inequality, ⟨.ofList [("j", 1)], 0⟩⟩,
    ⟨.inequality, ⟨.ofList [("j", -1)], 15⟩⟩,
    ⟨.inequality, ⟨.ofList [("i", -1), ("j", -1)], 19⟩⟩]

/-- Loops over the two indices that run from zero, the second one up to sixteen. -/
def coupledLoops : Polyhedron where
  dims := ["i", "j"]
  constraints := [
    ⟨.inequality, ⟨.ofList [("i", 1)], 0⟩⟩,
    ⟨.inequality, ⟨.ofList [("j", 1)], 0⟩⟩,
    ⟨.inequality, ⟨.ofList [("j", -1)], 15⟩⟩]

/-- What is left to check is that the first index is below the parameter, and the sum. -/
theorem boundsChecks_guard_coupled :
    ∃ checks, coupled.boundsChecks (.ofList ["i", "j"]) coupledLoops = .ok checks ∧
      checks.length = 2 ∧
      ∀ x : String → Int, coupledLoops.Holds x →
        ((∀ c ∈ checks, c.Holds x) ↔ coupled.Holds x) := by
  obtain ⟨checks, hchecks, hlength⟩ : ∃ checks,
      coupled.boundsChecks (.ofList ["i", "j"]) coupledLoops = .ok checks ∧ checks.length = 2 := by
    decide +kernel
  obtain ⟨-, hnecessary, hsufficient⟩ := boundsChecks_guard hchecks
  exact ⟨checks, hchecks, hlength, fun x hx =>
    ⟨hsufficient (by decide +kernel) x hx, hnecessary x⟩⟩

end LoopKernel.Polyhedron
