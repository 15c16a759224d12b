import LoopKernel.Preprocess
import LoopKernel.Proofs.Axis.Assignment
import LoopKernel.Proofs.Reduction.Consistency
import LoopKernel.Proofs.Reduction.Duplication
import LoopKernel.Proofs.Source.WellFormed
import LoopKernel.Proofs.WellFormed.Attributes

/-!
# Runs of passes and transformations

A kernel is taken through any passes, splits and taggings of loop indices, in any order. Every step
keeps it well-formed, so a loaded kernel is well-formed at the end of any run.
-/

namespace LoopKernel

/-- A pass that reports nothing gives the kernel that it computes. -/
theorem Pass.quiet_eq_ok {result : Attempt Diagnostic Kernel} {after : Kernel}
    {problems : List Diagnostic} :
    Pass.quiet result = .ok (after, problems) ↔ result = .ok after ∧ problems = [] := by
  simp only [Pass.quiet, Attempt.bind_eq_ok, Attempt.pure_eq_ok, Prod.mk.injEq]
  constructor
  · rintro ⟨_, hresult, rfl, rfl⟩
    exact ⟨hresult, rfl⟩
  · rintro ⟨hresult, rfl⟩
    exact ⟨after, hresult, rfl, rfl⟩

namespace Kernel

/-- A step of a run: a pass, or one of the transformations of loop indices. -/
inductive Step where
  | pass (p : Pass)
  | split (iname : String) (length : Int) (outerTag innerTag : Option IndexTag)
  | tag (tags : List (String × IndexTag))

/-- The kernel that a step gives. -/
def Step.run (k : Kernel) : Step → Attempt Diagnostic Kernel
  | .pass p => do pure (← p.run k).1
  | .split iname length outerTag innerTag => k.splitIname iname length outerTag innerTag
  | .tag tags => k.tagInames tags

namespace WellFormed

variable {k k' : Kernel}

/-- Every pass keeps a kernel well-formed. -/
theorem pass {p : Pass} {problems : List Diagnostic} (h : k.WellFormed)
    (hk : p.run k = .ok (k', problems)) : k'.WellFormed := by
  cases p with
  | markLocal =>
    simp only [Pass.run, Attempt.pure_eq_ok, Prod.mk.injEq] at hk
    exact hk.1 ▸ h.markLocalTemporaries
  | duplicateInames => exact h.duplicateReductionInames (Pass.quiet_eq_ok.mp hk).1
  | realizeReduction => exact h.realizeReduction (Pass.quiet_eq_ok.mp hk).1
  | assignAxes => exact h.assignAutomaticAxes (Pass.quiet_eq_ok.mp hk).1
  | inferDependencies =>
    rw [Pass.run, Attempt.pure_eq_ok] at hk
    have hfirst : k.inferDependencies.1 = k' := congrArg Prod.fst hk
    exact hfirst ▸ h.inferDependencies
  | limitBoostability => exact h.limitBoostability (Pass.quiet_eq_ok.mp hk).1
  | adjustStorage => exact h.adjustStorage (Attempt.liftM_eq_ok.mp hk)

/-- Every step keeps a kernel well-formed. -/
theorem step {s : Step} (h : k.WellFormed) (hk : s.run k = .ok k') : k'.WellFormed := by
  cases s with
  | pass p =>
    simp only [Step.run, Attempt.bind_eq_ok, Attempt.pure_eq_ok] at hk
    obtain ⟨⟨after, problems⟩, hafter, rfl⟩ := hk
    exact h.pass hafter
  | split => exact h.splitIname hk
  | tag => exact h.tagInames hk

/-- Any run keeps a kernel well-formed. -/
theorem run {steps : List Step} (h : k.WellFormed) (hk : steps.foldlM Step.run k = .ok k') :
    k'.WellFormed :=
  Attempt.foldlM_induction (P := fun _ k => k.WellFormed) h
    (fun _ _ _ _ _ hbefore hstep => hbefore.step hstep) hk

end WellFormed

/-- A loaded kernel is well-formed after any run of passes and transformations. -/
theorem wellFormed_of_load_of_run {source : String} {device : Device} {k k' : Kernel}
    {steps : List Step} (hload : Source.load source device = .ok k)
    (hrun : steps.foldlM Step.run k = .ok k') : k'.WellFormed :=
  (Source.wellFormed_of_load hload).run hrun

/-- The sums of the rows of an array. -/
def rowSumSource : String :=
  "domain [i, j] : 0 <= i < 8 and 0 <= j < 4\narg global int32 a[8, 4]\narg global int32 x[8]\n" ++
    "insn s: x[i] = sum(@j, a[i, j])\n"

/-- A run in which transformations come between passes, and passes not in their usual order. -/
def rowSumSteps : List Step :=
  [.split "i" 3 (some (.groupAxis 0)) (some .autoLocalAxis), .pass .duplicateInames,
    .pass .realizeReduction, .tag [("j", .unroll)], .pass .inferDependencies,
    .pass .limitBoostability, .pass .assignAxes, .split "j_s" 2 none none, .pass .markLocal,
    .pass .adjustStorage]

/-- The kernel that sums rows is well-formed after such a run. -/
theorem wellFormed_of_load_of_run_rowSum :
    ∃ k k', Source.load rowSumSource .fermi = .ok k ∧ rowSumSteps.foldlM Step.run k = .ok k' ∧
      k'.WellFormed := by
  obtain ⟨k, hload, hok⟩ : ∃ k, Source.load rowSumSource .fermi = .ok k ∧
      (rowSumSteps.foldlM Step.run k).isOk = true := by decide +kernel
  obtain ⟨k', hrun⟩ := Attempt.exists_eq_ok hok
  exact ⟨k, k', hload, hrun, wellFormed_of_load_of_run hload hrun⟩

end Kernel

end LoopKernel
