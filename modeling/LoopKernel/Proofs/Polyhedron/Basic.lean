import LoopKernel.Polyhedron.Basic
import LoopKernel.Proofs.Affine.Elimination
import LoopKernel.Proofs.NameSet

/-!
# Points of polyhedra

The integer assignments that satisfy all constraints of a polyhedron, and what the operations on
polyhedra do to them. A polyhedron that is found to be empty has no points.
-/

namespace LoopKernel.Polyhedron

/-- Whether an integer assignment satisfies all constraints. -/
def Holds (x : String → Int) (s : Polyhedron) : Prop := ∀ c ∈ s.constraints, c.Holds x

instance (x : String → Int) (s : Polyhedron) : Decidable (s.Holds x) :=
  inferInstanceAs (Decidable (∀ c ∈ s.constraints, c.Holds x))

/-- The points of a polyhedron for given values of the parameters: integer assignments that satisfy
all constraints and agree with the given one off the dimensions. -/
def pointsAt (s : Polyhedron) (env : String → Int) : Set (String → Int) :=
  {x | (∀ v, v ∉ s.dims → x v = env v) ∧ s.Holds x}

variable {s t : Polyhedron} {x : String → Int}

/-- The dimensions test. -/
theorem hasDim_iff {name : String} : s.hasDim name = true ↔ name ∈ s.dims := by
  rw [hasDim, List.contains_eq_mem, decide_eq_true_eq]

/-- The parameters are the variables of the constraints that are no dimensions. -/
theorem mem_params {name : String} :
    name ∈ s.params ↔ (∃ c ∈ s.constraints, name ∈ c.form.vars) ∧ name ∉ s.dims := by
  rw [params, NameSet.mem_ofList, List.mem_filter, List.mem_flatMap, Bool.not_eq_true',
    ← Bool.not_eq_true, hasDim_iff]

/-- One more constraint is normalized and then joins the others. -/
theorem constrain_eq_ok_iff {c : Constraint} :
    s.constrain c = .ok t ↔ ∃ normal, c.normalize = .ok normal ∧
      t = { s with constraints := Constraint.pushUnique s.constraints normal } := by
  unfold constrain
  simp only [Attempt.bind_eq_ok, Attempt.pure_eq_ok, eq_comm (b := t)]

/-- One more constraint comes in as it is when normalized. -/
theorem of_mem_constrain {c d : Constraint} (h : s.constrain c = .ok t)
    (hd : d ∈ t.constraints) : d ∈ s.constraints ∨ c.normalize = .ok d := by
  obtain ⟨normal, hnormal, rfl⟩ := constrain_eq_ok_iff.mp h
  rcases Constraint.mem_of_mem_pushUnique hd with hd | rfl
  · exact .inl hd
  · exact .inr hnormal

/-- One more constraint is one more condition. -/
theorem constrain_holds {c : Constraint} (h : s.constrain c = .ok t) :
    t.Holds x ↔ s.Holds x ∧ c.Holds x := by
  obtain ⟨normal, hnormal, rfl⟩ := constrain_eq_ok_iff.mp h
  rw [Holds, Constraint.holds_pushUnique, Constraint.normalize_holds hnormal]
  rfl

theorem dims_constrain {c : Constraint} (h : s.constrain c = .ok t) : t.dims = s.dims := by
  obtain ⟨normal, -, rfl⟩ := constrain_eq_ok_iff.mp h
  rfl

/-- Projecting out variables eliminates them from the constraints and from the dimensions. -/
theorem eliminate_eq_ok_iff {names : List String} :
    s.eliminate names = .ok t ↔
      Constraint.eliminateAll names s.constraints = .ok t.constraints ∧
        t.dims = s.dims.filter fun d => !names.contains d := by
  unfold eliminate
  simp only [Attempt.bind_eq_ok, Attempt.pure_eq_ok]
  constructor
  · rintro ⟨constraints, hall, rfl⟩
    exact ⟨hall, rfl⟩
  · rintro ⟨hall, hdims⟩
    exact ⟨t.constraints, hall, by rw [← hdims]⟩

theorem constraints_eliminate {names : List String} (h : s.eliminate names = .ok t) :
    Constraint.eliminateAll names s.constraints = .ok t.constraints := (eliminate_eq_ok_iff.mp h).1

theorem dims_eliminate {names : List String} (h : s.eliminate names = .ok t) :
    t.dims = s.dims.filter fun d => !names.contains d := (eliminate_eq_ok_iff.mp h).2

/-- Projecting out one variable eliminates it from the constraints. -/
theorem constraints_eliminate_singleton {name : String} (h : s.eliminate [name] = .ok t) :
    Constraint.eliminate name s.constraints = .ok t.constraints := by
  have hall := constraints_eliminate h
  unfold Constraint.eliminateAll at hall
  simp only [List.foldlM_cons, List.foldlM_nil, Attempt.bind_eq_ok, Attempt.pure_eq_ok] at hall
  obtain ⟨_, hone, rfl⟩ := hall
  exact hone

/-- Projecting out one variable leaves the points from which a rational value of the variable leads
into the polyhedron. -/
theorem eliminate_holds {name : String} (h : s.eliminate [name] = .ok t) :
    t.Holds x ↔ ∃ q : Rat, ∀ c ∈ s.constraints, c.HoldsAt x name q :=
  Constraint.holds_eliminate (constraints_eliminate_singleton h)

/-- What remains after one variable is projected out does not mention it. -/
theorem coeff_eliminate {name : String} (h : s.eliminate [name] = .ok t) :
    ∀ c ∈ t.constraints, c.form.coeff name = 0 :=
  Constraint.coeff_eliminate (constraints_eliminate_singleton h)

/-- Projecting out variables keeps every point. -/
theorem eliminate_holds_of_holds {names : List String} (h : s.eliminate names = .ok t)
    (hx : s.Holds x) : t.Holds x :=
  Constraint.holds_eliminateAll_of_holds (constraints_eliminate h) hx

/-- A polyhedron that is found to be empty has no points. -/
theorem not_holds_of_isEmpty (h : s.isEmpty = .ok true) : ¬s.Holds x := by
  intro hx
  unfold isEmpty at h
  rw [Attempt.bind_eq_ok] at h
  obtain ⟨here, hhere, h⟩ := h
  split at h
  · next htrue =>
    rw [htrue] at hhere
    obtain ⟨c, hc, hcontra⟩ := Attempt.of_anyM_true hhere
    exact Constraint.not_holds_of_isContradiction hcontra (hx c hc)
  · rw [Attempt.bind_eq_ok] at h
    obtain ⟨projected, hprojected, h⟩ := h
    obtain ⟨c, hc, hcontra⟩ := Attempt.of_anyM_true h
    have hrest := eliminate_holds_of_holds hprojected hx
    exact Constraint.not_holds_of_isContradiction hcontra (hrest c hc)

/-- What is found to be implied holds at every point. -/
theorem holds_of_implies {c : Constraint} (h : s.implies c = .ok true) (hx : s.Holds x) :
    c.Holds x := by
  unfold implies at h
  rw [Attempt.bind_eq_ok] at h
  obtain ⟨negated, hnegated, h⟩ := h
  apply Classical.byContradiction
  intro hnot
  obtain ⟨d, hd, hdx⟩ := (Constraint.negations_holds hnegated).mpr hnot
  have hempty := Attempt.of_allM_true h d hd
  rw [Attempt.bind_eq_ok] at hempty
  obtain ⟨cut, hcut, hempty⟩ := hempty
  exact not_holds_of_isEmpty hempty ((constrain_holds hcut).mpr ⟨hx, hdx⟩)

end LoopKernel.Polyhedron
