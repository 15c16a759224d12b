import LoopKernel.Proofs.Affine.Difference
import LoopKernel.Proofs.Polyhedron.Emptiness
import LoopKernel.Proofs.Polyhedron.Projection
import LoopKernel.Proofs.Polyhedron.Summation

/-!
# The extent of a dimension

The static size of a dimension is read off what remains when every other variable, parameters
included, is projected out. It is an upper bound on the spread of the values that the dimension has
at all points. Where all constraints are bounds of variables or of their differences, elimination is
exact on the integers and the size is the spread itself.
-/

namespace LoopKernel

namespace Constraint

variable {x : String → Int} {name : String}

/-- A variable of a difference has a unit coefficient. -/
theorem Joins.unitIn {c : Constraint} (h : c.Joins) : c.UnitIn name := by
  obtain ⟨p, m, h⟩ := h
  rcases Int.lt_trichotomy (c.form.coeff name) 0 with hneg | hzero | hpos
  · exact .inr (.inr (h.of_neg hneg).2)
  · exact .inl hzero
  · exact .inr (.inl (h.of_pos hpos).2)

/-- What satisfies all that remains of constraints on differences is completed to a solution by
values of the eliminated variables. -/
theorem exists_holds_of_eliminateAll {names : List String} {constraints out : List Constraint}
    (hjoins : ∀ c ∈ constraints, c.Joins) (h : eliminateAll names constraints = .ok out)
    (hx : ∀ d ∈ out, d.Holds x) :
    ∃ y : String → Int, (∀ v ∉ names, y v = x v) ∧ ∀ c ∈ constraints, c.Holds y := by
  unfold eliminateAll at h
  induction names generalizing constraints with
  | nil =>
    rw [List.foldlM_nil, Attempt.pure_eq_ok] at h
    exact ⟨x, fun _ _ => rfl, h ▸ hx⟩
  | cons name rest ih =>
    rw [List.foldlM_cons, Attempt.bind_eq_ok] at h
    obtain ⟨middle, hmiddle, h⟩ := h
    obtain ⟨y, hoff, hy⟩ := ih (joins_eliminate hmiddle hjoins) h
    have hunit : ∀ c ∈ constraints, c.UnitIn name := fun c hc => (hjoins c hc).unitIn
    obtain ⟨n, hn⟩ := (exists_holds_update_iff hunit).mp ((holds_eliminate hmiddle).mp hy)
    refine ⟨Function.update y name n, fun v hv => ?_, hn⟩
    rw [List.mem_cons, not_or] at hv
    rw [Function.update_of_ne hv.1, hoff v hv.2]

end Constraint

namespace Polyhedron

variable {s t : Polyhedron} {name : String} {size : Int}

/-- The values that a variable has at the points of a polyhedron, for any parameters. -/
def values (s : Polyhedron) (name : String) : Set Int := {n | ∃ x, s.Holds x ∧ x name = n}

/-- Bounds that mention no variable are constant. -/
private theorem isConstant_of_dimBounds {bounds : DimBounds}
    (hproper : ∀ c ∈ s.constraints, c.form.Proper) (hs : s.Over (· = name))
    (h : s.dimBounds name = .ok bounds) :
    ∀ f, f ∈ bounds.lower ∨ f ∈ bounds.upper → f.isConstant = true := by
  refine forms_of_dimBounds (fun _ => rfl) (fun f g hf hneg => ?_) (fun c hc => ?_) h
  · rw [Affine.isConstant_neg hneg, hf]
  · refine Affine.isConstant_of_coeff (Affine.proper_without (hproper c hc) name) fun v => ?_
    exact Affine.over_without (hs c hc) v fun hv => hv.1 hv.2

/-- Every polyhedron is over its dimensions and parameters. -/
theorem over_allVariables : s.Over (· ∈ s.allVariables) := by
  intro c hc v hv
  exact Affine.coeff_of_not_mem_vars fun hmem => hv (mem_allVariables hc hmem)

/-- When all other variables are projected out, a dimension is alone. -/
private theorem over_eliminate_others
    (h : s.eliminate (s.allVariables.filter fun v => v != name) = .ok t) : t.Over (· = name) := by
  refine (over_eliminate over_allVariables h).mono fun v hv => ?_
  by_contra hne
  exact hv.1 (List.mem_filter.mpr ⟨hv.2, bne_iff_ne.mpr hne⟩)

/-- Constant lower bounds together are their greatest one. -/
private theorem forall_le_iff_of_max? {forms : List Affine} {lo n : Int} {x : String → Int}
    (hconstant : ∀ f ∈ forms, f.isConstant = true) (h : (constants forms).max? = some lo) :
    (∀ l ∈ forms, l.value x ≤ n) ↔ lo ≤ n := by
  rw [constants, List.filter_eq_self.mpr hconstant] at h
  rw [(List.max?_le_iff h)]
  simp only [List.forall_mem_map]
  refine forall₂_congr fun f hf => ?_
  rw [Affine.value_of_isConstant x (hconstant f hf)]

/-- Constant upper bounds together are their least one. -/
private theorem forall_le_iff_of_min? {forms : List Affine} {hi n : Int} {x : String → Int}
    (hconstant : ∀ f ∈ forms, f.isConstant = true) (h : (constants forms).min? = some hi) :
    (∀ u ∈ forms, n ≤ u.value x) ↔ n ≤ hi := by
  rw [constants, List.filter_eq_self.mpr hconstant] at h
  rw [(List.le_min?_iff h)]
  simp only [List.forall_mem_map]
  refine forall₂_congr fun f hf => ?_
  rw [Affine.value_of_isConstant x (hconstant f hf)]

/-- Where all constraints are on differences and there is a point, the values of a dimension are an
interval, and the static size is its length. -/
theorem values_eq_Icc (hs : ∀ c ∈ s.constraints, c.form.IsDifference)
    (h : s.staticSize name = .ok size) {z : String → Int} (hz : s.Holds z) :
    ∃ lo hi, lo ≤ hi ∧ s.values name = Set.Icc lo hi ∧ size = hi - lo + 1 := by
  obtain ⟨projected, bounds, lo, hi, hprojected, hbounds, hlo, hhi, hsize⟩ :=
    exists_of_staticSize h
  have hproper : ∀ c ∈ s.constraints, c.form.Proper := fun c hc => (hs c hc).proper
  have hconstant := isConstant_of_dimBounds (proper_eliminate hproper hprojected)
    (over_eliminate_others hprojected) hbounds
  have hexact : ∀ (x : String → Int) (n : Int),
      (∀ c ∈ projected.constraints.filter fun c => c.involves name, c.HoldsAt x name n) ↔
        lo ≤ n ∧ n ≤ hi := by
    intro x n
    rw [(dimBounds_describes hbounds).exact,
      forall_le_iff_of_max? (fun f hf => hconstant f (.inl hf)) hlo,
      forall_le_iff_of_min? (fun f hf => hconstant f (.inr hf)) hhi]
  have hwithin : ∀ x, s.Holds x → lo ≤ x name ∧ x name ≤ hi := fun x hx =>
    (hexact x (x name)).mp fun c hc => Constraint.holdsAt_self.mpr
      (eliminate_holds_of_holds hprojected hx c (List.mem_filter.mp hc).1)
  have hle : lo ≤ hi := (hwithin z hz).1.trans (hwithin z hz).2
  refine ⟨lo, hi, hle, Set.Subset.antisymm ?_ ?_, by omega⟩
  · rintro _ ⟨x, hx, rfl⟩
    exact hwithin x hx
  -- A value in the interval takes the place of that of the given point, and the other variables are
  -- then chosen anew.
  · intro n hn
    have hupdate : ∀ c ∈ projected.constraints, c.Holds (Function.update z name n) := by
      intro c hc
      by_cases hinvolves : c.involves name = true
      · exact (Constraint.holdsAt_intCast n).mp
          ((hexact z n).mpr hn c (List.mem_filter.mpr ⟨hc, hinvolves⟩))
      · rw [Constraint.not_involves_iff] at hinvolves
        exact (Constraint.holds_update hinvolves n).mpr
          (eliminate_holds_of_holds hprojected hz c hc)
    obtain ⟨y, hoff, hy⟩ := Constraint.exists_holds_of_eliminateAll
      (fun c hc => (hs c hc).exists_joins) (constraints_eliminate hprojected) hupdate
    refine ⟨y, hy, ?_⟩
    rw [hoff name fun hmem => by simp at hmem, Function.update_self]

/-- The static size of a dimension is at least one more than the distance of any two of its values,
also for different parameters, so that it is zero only without points. It is exact where there is a
point and all constraints are bounds of variables or of differences of two. -/
theorem staticSize_spans (h : s.staticSize name = .ok size) :
    0 ≤ size ∧
      (∀ x y : String → Int, s.Holds x → s.Holds y → |x name - y name| + 1 ≤ size) ∧
      (size = 0 → ∀ x : String → Int, ¬s.Holds x) ∧
      ((∀ c ∈ s.constraints, c.form.IsDifference) → (∃ x : String → Int, s.Holds x) →
        ∃ least greatest, IsLeast (s.values name) least ∧ IsGreatest (s.values name) greatest ∧
          size = greatest - least + 1) := by
  have hspread : ∀ x y : String → Int, s.Holds x → s.Holds y → |x name - y name| + 1 ≤ size := by
    intro x y hx hy
    have hxy := sub_lt_of_staticSize h hx hy
    have hyx := sub_lt_of_staticSize h hy hx
    rw [← Int.lt_iff_add_one_le, abs_lt]
    constructor <;> omega
  refine ⟨?_, hspread, ?_, ?_⟩
  · obtain ⟨_, _, lo, hi, -, -, -, -, rfl⟩ := exists_of_staticSize h
    exact le_max_right _ _
  · rintro rfl x hx
    have := hspread x x hx hx
    simp at this
  · rintro hs ⟨z, hz⟩
    obtain ⟨lo, hi, hle, hvalues, hsize⟩ := values_eq_Icc hs h hz
    exact ⟨lo, hi, hvalues ▸ isLeast_Icc hle, hvalues ▸ isGreatest_Icc hle, hsize⟩

/-- A triangle of two indices, the first one from one up to the second one, that moves with a
parameter up to seven. -/
def movingTriangle : Polyhedron where
  dims := ["i", "j"]
  constraints := [
    ⟨.inequality, ⟨.ofList [("i", 1)], -1⟩⟩,
    ⟨.inequality, ⟨.ofList [("i", -1), ("j", 1)], 0⟩⟩,
    ⟨.inequality, ⟨.ofList [("j", -1), ("n", 1)], 0⟩⟩,
    ⟨.inequality, ⟨.ofList [("n", -1)], 7⟩⟩]

/-- The first index has the values from one to seven, whatever the parameter, and so its size is
seven. -/
theorem staticSize_spans_movingTriangle :
    ∃ size, movingTriangle.staticSize "i" = .ok size ∧ size = 7 ∧
      (∀ x y : String → Int, movingTriangle.Holds x → movingTriangle.Holds y →
        |x "i" - y "i"| + 1 ≤ 7) ∧
      ∃ least greatest, IsLeast (movingTriangle.values "i") least ∧
        IsGreatest (movingTriangle.values "i") greatest ∧ 7 = greatest - least + 1 := by
  obtain ⟨size, hsize, rfl⟩ : ∃ size, movingTriangle.staticSize "i" = .ok size ∧ size = 7 := by
    decide +kernel
  obtain ⟨-, hspread, -, hexact⟩ := staticSize_spans hsize
  have hpoint : movingTriangle.Holds fun _ => 1 := by decide
  exact ⟨7, hsize, rfl, hspread, hexact (by decide) ⟨_, hpoint⟩⟩

end Polyhedron

end LoopKernel
