import LoopKernel.Proofs.Polyhedron.Points

/-!
# Listings are exact and in order

Where all parameters have values, a listing that has a result lists the integer points of the
polyhedron for these values: each of them once, in lexicographic order of the dimensions, and
nothing else.
-/

namespace LoopKernel.Polyhedron

/-- The integer points of a polyhedron for given values of the parameters: values for exactly the
dimensions that satisfy all constraints. -/
def solutions (s : Polyhedron) (env : String → Int) : Set Point :=
  {q | (∀ v, (q.get? v).isSome = true ↔ v ∈ s.dims) ∧ s.Holds fun v => (q.get? v).getD (env v)}

variable {s : Polyhedron} {env x : String → Int} {q : Point}

/-- The constraints depend on the dimensions and the parameters. -/
theorem holds_congr_params {y : String → Int} (hdims : ∀ v ∈ s.dims, x v = y v)
    (hparams : ∀ v ∈ s.params, x v = y v) : s.Holds x ↔ s.Holds y := by
  refine forall₂_congr fun c hc => Constraint.holds_congr fun v hv => ?_
  by_cases hdim : v ∈ s.dims
  · exact hdims v hdim
  · exact hparams v (mem_params.mpr ⟨⟨c, hc, hv⟩, hdim⟩)

/-- The solutions are the points of the polyhedron, restricted to the dimensions. -/
theorem mem_solutions_iff :
    q ∈ s.solutions env ↔ ∃ x ∈ s.pointsAt env, q = Point.extend ∅ x s.dims := by
  have hget : ∀ (x : String → Int) v,
      (Point.extend ∅ x s.dims).get? v = if v ∈ s.dims then some (x v) else none := fun x v => by
    rw [Point.get?_extend, SortedMap.get?_empty]
  constructor
  · rintro ⟨hkeys, hholds⟩
    have hnone : ∀ v, v ∉ s.dims → q.get? v = none := fun v hv => by
      rwa [← hkeys, Bool.not_eq_true, Option.isSome_eq_false_iff, Option.isNone_iff_eq_none] at hv
    refine ⟨_, ⟨fun v hv => by rw [hnone v hv, Option.getD_none], hholds⟩, ?_⟩
    apply SortedMap.ext_get?
    intro v
    rw [hget]
    split
    · next hv =>
      obtain ⟨n, hn⟩ := Option.isSome_iff_exists.mp ((hkeys v).mpr hv)
      rw [hn, Option.getD_some]
    · next hv => exact hnone v hv
  · rintro ⟨x, ⟨hoff, hx⟩, rfl⟩
    have hsame : (fun v => ((Point.extend ∅ x s.dims).get? v).getD (env v)) = x := by
      funext v
      rw [hget]
      split
      · rfl
      · next hv => exact (hoff v hv).symm
    refine ⟨fun v => ?_, ?_⟩
    · rw [hget]
      split <;> simp [*]
    · rwa [hsame]

/-- The solutions depend on the values of the parameters alone. -/
theorem mem_solutions_congr {env' : String → Int} (h : ∀ v ∈ s.params, env v = env' v) :
    q ∈ s.solutions env ↔ q ∈ s.solutions env' := by
  refine and_congr_right fun hkeys => holds_congr_params (fun v hv => ?_) fun v hv => ?_
  · obtain ⟨n, hn⟩ := Option.isSome_iff_exists.mp ((hkeys v).mpr hv)
    rw [hn, Option.getD_some, Option.getD_some]
  · rw [h v hv]

/-- A listing that has a result lists all solutions and nothing else, each of them once, in strictly
increasing lexicographic order of the dimensions. -/
theorem enumeratePoints_exact {given : String → Option Int} {points : List Point}
    (hdims : s.dims.Nodup) (hproper : ∀ c ∈ s.constraints, c.form.Proper)
    (hgiven : ∀ v ∈ s.params, given v = some (env v)) (h : s.enumeratePoints given = .ok points) :
    (∀ q, q ∈ points ↔ q ∈ s.solutions env) ∧ points.Nodup ∧
      points.Pairwise fun p q => p.coordinates s.dims < q.coordinates s.dims := by
  refine ⟨fun q => ?_, nodup_enumeratePoints hdims h, ordered_enumeratePoints hdims h⟩
  have hvalues : ∀ v n, v ∉ s.dims → given v = some n → (given v).getD 0 = n := fun v n _ hn => by
    rw [hn, Option.getD_some]
  rw [mem_enumeratePoints hdims h hproper hvalues, ← mem_solutions_iff]
  exact mem_solutions_congr fun v hv => by rw [hgiven v hv, Option.getD_some]

/-- An index up to a parameter, and an integer that is at least a third of it and exceeds that by at
most a third. -/
def nearThirds : Polyhedron where
  dims := ["i", "j"]
  constraints := [
    ⟨.inequality, ⟨.ofList [("i", 1)], 0⟩⟩,
    ⟨.inequality, ⟨.ofList [("i", -1), ("n", 1)], 0⟩⟩,
    ⟨.inequality, ⟨.ofList [("i", -1), ("j", 3)], 0⟩⟩,
    ⟨.inequality, ⟨.ofList [("i", 1), ("j", -3)], 1⟩⟩]

/-- For some values of the index there is no such integer, although there are rational numbers
between the bounds for each. -/
theorem enumeratePoints_exact_nearThirds :
    ∃ points, nearThirds.enumeratePoints (fun v => if v = "n" then some 5 else none) = .ok points ∧
      (∀ q, q ∈ points ↔ q ∈ nearThirds.solutions fun _ => 5) ∧
      points.map (Point.coordinates · ["i", "j"]) = [[0, 0], [2, 1], [3, 1], [5, 2]] := by
  obtain ⟨points, hpoints, hlisted⟩ : ∃ points,
      nearThirds.enumeratePoints (fun v => if v = "n" then some 5 else none) = .ok points ∧
        points.map (Point.coordinates · ["i", "j"]) = [[0, 0], [2, 1], [3, 1], [5, 2]] := by
    decide +kernel
  have hgiven : ∀ v ∈ nearThirds.params,
      (if v = "n" then some 5 else none) = some ((fun _ => 5 : String → Int) v) := by
    decide
  obtain ⟨hmem, -, -⟩ := enumeratePoints_exact (by decide) (by decide) hgiven hpoints
  exact ⟨points, hpoints, hmem, hlisted⟩

end LoopKernel.Polyhedron
