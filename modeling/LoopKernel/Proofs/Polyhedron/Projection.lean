import LoopKernel.Proofs.Polyhedron.Basic
import Mathlib.Data.Rat.Floor

/-!
# Projections of polyhedra

What projecting out variables leaves: constraints in the remaining variables that every point
satisfies. Over the rationals nothing else satisfies them. Over the integers that is so for a
variable without coefficients other than zero and plus or minus one, since a rational value of it
can then be rounded.
-/

namespace LoopKernel

namespace Constraint

variable {x : String → Int} {name : String}

/-- Whether a variable has no coefficient other than zero and plus or minus one. -/
def UnitIn (c : Constraint) (name : String) : Prop :=
  c.form.coeff name = 0 ∨ c.form.coeff name = 1 ∨ c.form.coeff name = -1

instance (c : Constraint) (name : String) : Decidable (c.UnitIn name) :=
  inferInstanceAs (Decidable (_ ∨ _ ∨ _))

/-- A rational value of a variable with unit coefficients may be rounded up: a lower bound stays
below it, an upper bound is an integer itself, and an equality has an integer solution. -/
theorem holdsAt_ceil {c : Constraint} {t : Rat} (hunit : c.UnitIn name)
    (h : c.HoldsAt x name t) : c.HoldsAt x name (⌈t⌉ : Int) := by
  unfold HoldsAt at h ⊢
  generalize (c.form.without name).value x = r at h ⊢
  rcases hunit with hzero | hone | hminus
  · rw [hzero] at h ⊢
    simpa using h
  · rw [hone] at h ⊢
    cases hrelation : c.relation with
    | inequality =>
      simp only [hrelation, Relation.HoldsRat, Int.cast_one, one_mul] at h ⊢
      have hup := Int.le_ceil t
      linarith
    | equality =>
      simp only [hrelation, Relation.HoldsRat, Int.cast_one, one_mul] at h ⊢
      have ht : t = (-r : Int) := by push_cast; linarith
      rw [ht, Int.ceil_intCast]
      push_cast
      ring
  · rw [hminus] at h ⊢
    cases hrelation : c.relation with
    | inequality =>
      simp only [hrelation, Relation.HoldsRat, Int.cast_neg, Int.cast_one] at h ⊢
      have hbelow : ⌈t⌉ ≤ r := Int.ceil_le.mpr (by linarith)
      have hcast : (⌈t⌉ : Rat) ≤ r := Int.cast_le.mpr hbelow
      linarith
    | equality =>
      simp only [hrelation, Relation.HoldsRat, Int.cast_neg, Int.cast_one] at h ⊢
      have ht : t = (r : Int) := by linarith
      rw [ht, Int.ceil_intCast]
      ring

/-- Constraints with unit coefficients that hold for a rational value of the variable hold for an
integer one. -/
theorem exists_holds_update_iff {constraints : List Constraint}
    (hunit : ∀ c ∈ constraints, c.UnitIn name) :
    (∃ t : Rat, ∀ c ∈ constraints, c.HoldsAt x name t) ↔
      ∃ n : Int, ∀ c ∈ constraints, c.Holds (Function.update x name n) := by
  constructor
  · rintro ⟨t, ht⟩
    refine ⟨⌈t⌉, fun c hc => ?_⟩
    exact (holdsAt_intCast _).mp (holdsAt_ceil (hunit c hc) (ht c hc))
  · rintro ⟨n, hn⟩
    exact ⟨n, fun c hc => (holdsAt_intCast n).mpr (hn c hc)⟩

end Constraint

namespace Polyhedron

variable {s t : Polyhedron}

/-- What remains after variables are projected out has only variables that were there, and none of
those. -/
theorem of_mem_vars_eliminate {names : List String} {d : Constraint} {v : String}
    (hproper : ∀ c ∈ s.constraints, c.form.Proper) (h : s.eliminate names = .ok t)
    (hd : d ∈ t.constraints) (hv : v ∈ d.form.vars) :
    v ∉ names ∧ ∃ c ∈ s.constraints, v ∈ c.form.vars := by
  have hall := constraints_eliminate h
  have hcoeff := (Affine.mem_vars_iff (Constraint.proper_eliminateAll hall hproper d hd)).mp hv
  constructor
  · intro hname
    exact hcoeff (Constraint.coeff_eliminateAll hall (.inl hname) d hd)
  · apply Classical.byContradiction
    intro hnone
    refine hcoeff (Constraint.coeff_eliminateAll hall (.inr fun c hc => ?_) d hd)
    apply Affine.coeff_of_not_mem_vars
    intro hmem
    exact hnone ⟨c, hc, hmem⟩

/-- Projecting out one variable with unit coefficients leaves exactly the integer assignments that
some integer value of the variable completes to a point. -/
theorem eliminate_holds_of_unit {name : String} {x : String → Int}
    (hunit : ∀ c ∈ s.constraints, c.UnitIn name) (h : s.eliminate [name] = .ok t) :
    t.Holds x ↔ ∃ n : Int, s.Holds (Function.update x name n) := by
  rw [eliminate_holds h]
  exact Constraint.exists_holds_update_iff hunit

/-- Projecting out variables is a projection. The constraints that remain mention none of the
variables and no new ones, every point satisfies them, and they are exact for one variable with unit
coefficients: whatever satisfies them is completed to a point by some value of the variable. -/
theorem eliminate_projects {names : List String} (hproper : ∀ c ∈ s.constraints, c.form.Proper)
    (h : s.eliminate names = .ok t) :
    (∀ d ∈ t.constraints, ∀ v ∈ d.form.vars,
        v ∉ names ∧ ∃ c ∈ s.constraints, v ∈ c.form.vars) ∧
      t.dims = (s.dims.filter fun d => !names.contains d) ∧
      (∀ x : String → Int, s.Holds x → t.Holds x) ∧
      ∀ name, names = [name] → (∀ c ∈ s.constraints, c.UnitIn name) →
        ∀ x : String → Int, t.Holds x ↔ ∃ n : Int, s.Holds (Function.update x name n) := by
  refine ⟨fun d hd v hv => of_mem_vars_eliminate hproper h hd hv, dims_eliminate h,
    fun x => eliminate_holds_of_holds h, ?_⟩
  rintro name rfl hunit x
  exact eliminate_holds_of_unit hunit h

/-- An index between two others, which are bounded by a parameter. -/
def betweenIndices : Polyhedron where
  dims := ["i", "j", "k"]
  constraints := [
    ⟨.inequality, ⟨.ofList [("i", 1)], 0⟩⟩,
    ⟨.inequality, ⟨.ofList [("i", -2), ("j", 1)], 0⟩⟩,
    ⟨.inequality, ⟨.ofList [("j", -1), ("k", 3)], -1⟩⟩,
    ⟨.inequality, ⟨.ofList [("k", -1), ("n", 1)], -1⟩⟩]

/-- The index in the middle has unit coefficients, so whatever satisfies the constraints on the
others leaves a value for it. -/
theorem eliminate_projects_betweenIndices :
    ∃ t, betweenIndices.eliminate ["j"] = .ok t ∧ t.dims = ["i", "k"] ∧
      ∀ x : String → Int, t.Holds x ↔
        ∃ n : Int, betweenIndices.Holds (Function.update x "j" n) := by
  obtain ⟨t, ht⟩ := Attempt.exists_eq_ok (x := betweenIndices.eliminate ["j"]) (by decide +kernel)
  obtain ⟨-, hdims, -, hexact⟩ := eliminate_projects (by decide) ht
  refine ⟨t, ht, ?_, hexact "j" rfl (by decide)⟩
  rw [hdims]
  decide

end Polyhedron

end LoopKernel
