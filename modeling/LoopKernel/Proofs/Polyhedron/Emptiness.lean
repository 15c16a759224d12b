import LoopKernel.Proofs.Affine.Relaxation
import LoopKernel.Proofs.Polyhedron.Basic

/-!
# Emptiness between integers and rationals

The test for emptiness eliminates all variables and looks for a contradiction. Over the integers a
contradiction is a proof that there is no point. Over the rationals elimination is complete, so the
test finds every polyhedron empty that has no rational point.
-/

namespace LoopKernel.Polyhedron

/-- Whether a rational assignment satisfies all constraints. -/
def HoldsRat (x : String → Rat) (s : Polyhedron) : Prop := ∀ c ∈ s.constraints, c.HoldsRat x

variable {s t : Polyhedron}

/-- Every variable of the constraints is a dimension or a parameter. -/
theorem mem_allVariables {c : Constraint} (hc : c ∈ s.constraints) {v : String}
    (hv : v ∈ c.form.vars) : v ∈ s.allVariables := by
  rw [allVariables, List.mem_append, NameSet.mem_toList, params, NameSet.mem_ofList,
    List.mem_filter, List.mem_flatMap]
  by_cases hdim : s.hasDim v = true
  · exact .inl (hasDim_iff.mp hdim)
  · rw [Bool.not_eq_true] at hdim
    exact .inr ⟨⟨c, hc, hv⟩, by rw [hdim]; rfl⟩

/-- Nothing but constants remains when all variables are projected out. -/
theorem isConstant_of_eliminate_allVariables (hproper : ∀ c ∈ s.constraints, c.form.Proper)
    (h : s.eliminate s.allVariables = .ok t) : ∀ c ∈ t.constraints, c.form.isConstant = true := by
  have hall := constraints_eliminate h
  intro c hc
  apply Affine.isConstant_of_coeff (Constraint.proper_eliminateAll hall hproper c hc)
  intro v
  refine Constraint.coeff_eliminateAll hall ?_ c hc
  by_cases hv : v ∈ s.allVariables
  · exact .inl hv
  · right
    intro d hd
    apply Classical.byContradiction
    intro hne
    exact hv (mem_allVariables hd ((Affine.mem_vars_iff (hproper d hd)).mpr hne))

/-- A polyhedron that is not found to be empty has a rational point. -/
theorem exists_holdsRat_of_isEmpty_false (hproper : ∀ c ∈ s.constraints, c.form.Proper)
    (h : s.isEmpty = .ok false) : ∃ x, s.HoldsRat x := by
  unfold isEmpty at h
  rw [Attempt.bind_eq_ok] at h
  obtain ⟨here, -, h⟩ := h
  split at h
  · simp at h
  · rw [Attempt.bind_eq_ok] at h
    obtain ⟨projected, hprojected, h⟩ := h
    have hconstant := isConstant_of_eliminate_allVariables hproper hprojected
    have hrest : ∀ d ∈ projected.constraints, d.HoldsRat fun _ => 0 := fun d hd =>
      Constraint.holdsRat_of_isContradiction_false (hconstant d hd) (Attempt.of_anyM_false h d hd)
    exact Constraint.exists_holdsRat_of_eliminateAll (constraints_eliminate hprojected) hrest

/-- The test for emptiness lies between the integers and the rationals: a polyhedron that is found
to be empty has no integer point for any parameters, and one without rational points is found to be
empty. -/
theorem isEmpty_sandwiched {b : Bool} (hproper : ∀ c ∈ s.constraints, c.form.Proper)
    (h : s.isEmpty = .ok b) :
    (b = true → ∀ x : String → Int, ¬s.Holds x) ∧
      ((∀ x : String → Rat, ¬s.HoldsRat x) → b = true) := by
  constructor
  · rintro rfl x
    exact not_holds_of_isEmpty h
  · intro hnone
    cases b with
    | true => rfl
    | false =>
      obtain ⟨x, hx⟩ := exists_holdsRat_of_isEmpty_false hproper h
      exact absurd hx (hnone x)

/-- Two equal indices, one of them above a parameter and the other one not. -/
def equalAcross : Polyhedron where
  dims := ["i", "j"]
  constraints := [
    ⟨.equality, ⟨.ofList [("i", 1), ("j", -1)], 0⟩⟩,
    ⟨.inequality, ⟨.ofList [("i", 1), ("n", -1)], -1⟩⟩,
    ⟨.inequality, ⟨.ofList [("j", -1), ("n", 1)], 0⟩⟩]

/-- No rationals are such, so the test says that there are none, and so there are no integers. -/
theorem isEmpty_sandwiched_equalAcross :
    ∃ b, equalAcross.isEmpty = .ok b ∧ b = true ∧ ∀ x : String → Int, ¬equalAcross.Holds x := by
  obtain ⟨b, hb⟩ := Attempt.exists_eq_ok (x := equalAcross.isEmpty) (by decide +kernel)
  have hnone : ∀ x : String → Rat, ¬equalAcross.HoldsRat x := by
    intro x hx
    have hij : (SortedMap.ofList [("i", (1 : Int)), ("j", -1)]).entries = [("i", 1), ("j", -1)] :=
      by decide
    have hin : (SortedMap.ofList [("i", (1 : Int)), ("n", -1)]).entries = [("i", 1), ("n", -1)] :=
      by decide
    have hjn : (SortedMap.ofList [("j", (-1 : Int)), ("n", 1)]).entries = [("j", -1), ("n", 1)] :=
      by decide
    simp only [HoldsRat, equalAcross, List.forall_mem_cons, Constraint.HoldsRat, Relation.HoldsRat,
      Affine.valueRat, hij, hin, hjn, List.map_cons, List.map_nil, List.sum_cons, List.sum_nil]
      at hx
    obtain ⟨hequal, habove, hbelow, -⟩ := hx
    push_cast at hequal habove hbelow
    linarith
  obtain ⟨hintegers, hrationals⟩ := isEmpty_sandwiched (by decide) hb
  exact ⟨b, hb, hrationals hnone, hintegers (hrationals hnone)⟩

end LoopKernel.Polyhedron
