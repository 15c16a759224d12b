import LoopKernel.Proofs.Execution.Meaning
import LoopKernel.Proofs.Polyhedron.Points

/-!
# Projections of the domain

Points over some loop indices only. Such a point is in the projection of the domain if a point of
the domain lies over it.
-/

namespace LoopKernel

namespace Point

variable {x y : String → Int} {s names : NameSet}

/-- The part of an assignment on some names. -/
def ofNames (x : String → Int) (names : NameSet) : Point := names.mapValues fun n _ => x n

/-- The values of an assignment on some names. -/
theorem get?_ofNames (x : String → Int) (names : NameSet) (n : String) :
    (ofNames x names).get? n = if n ∈ names then some (x n) else none := by
  unfold ofNames
  rw [SortedMap.get?_mapValues]
  by_cases h : n ∈ names
  · obtain ⟨u, hu⟩ := SortedMap.contains_iff.mp h
    rw [hu, if_pos h, Option.map_some]
  · rw [if_neg h, Option.map_eq_none_iff]
    cases hn : names.get? n with
    | none => rfl
    | some u => exact (h (SortedMap.contains_iff.mpr ⟨u, hn⟩)).elim

/-- An assignment on some names names these. -/
@[simp] theorem names_ofNames : (ofNames x names).names = names := by
  apply NameSet.ext
  intro n
  rw [mem_names, get?_ofNames]
  by_cases h : n ∈ names <;> simp [h]

/-- Points over the same names are equal if they have the same values. -/
theorem ofNames_eq_ofNames : ofNames x names = ofNames y names ↔ ∀ n ∈ names, x n = y n := by
  constructor
  · intro h n hn
    have hget := congrArg (fun p : Point => p.get? n) h
    simpa [get?_ofNames, hn] using hget
  · intro h
    apply SortedMap.ext_get?
    intro n
    rw [get?_ofNames, get?_ofNames]
    by_cases hn : n ∈ names
    · rw [h n hn]
    · rw [if_neg hn, if_neg hn]

/-- The part of a part on fewer names. -/
theorem restrict_ofNames (h : ∀ n ∈ s, n ∈ names) : (ofNames x names).restrict s = ofNames x s := by
  apply SortedMap.ext_get?
  intro n
  rw [get?_restrict, get?_ofNames, get?_ofNames]
  by_cases hn : n ∈ s
  · rw [if_pos hn, if_pos hn, if_pos (h n hn)]
  · rw [if_neg hn, if_neg hn]

/-- The part of a part off some names. -/
theorem without_ofNames : (ofNames x names).without s = ofNames x (names.diff s) := by
  apply SortedMap.ext_get?
  intro n
  rw [get?_without, get?_ofNames, get?_ofNames]
  by_cases hn : n ∈ s
  · rw [if_pos hn, if_neg (by simp [hn])]
  · by_cases hnames : n ∈ names <;> simp [hn, hnames]

end Point

/-- Whether lists of points for sets of names are the projections of a polyhedron onto these names,
for given values of its parameters. -/
structure Projects (s : Polyhedron) (env : String → Int) (points : NameSet → List Point) :
    Prop where
  nodup : ∀ names, (points names).Nodup
  mem : ∀ names q, q ∈ points names ↔ ∃ x ∈ s.pointsAt env, q = Point.ofNames x names

namespace Projects

variable {s : Polyhedron} {env : String → Int}

/-- Points of a projection name the names that it is onto. -/
theorem names_of_mem {points : NameSet → List Point} (h : Projects s env points) {names : NameSet}
    {q : Point} (hq : q ∈ points names) : q.names = names := by
  obtain ⟨x, -, rfl⟩ := (h.mem names q).mp hq
  exact Point.names_ofNames

/-- The points that extend a point by values for some names. -/
theorem mem_extensions {points : NameSet → List Point} (h : Projects s env points)
    {around bound : NameSet} {x : String → Int} {q : Point} :
    q ∈ Expr.extensions points (Point.ofNames x around) bound ↔
      ∃ y ∈ s.pointsAt env, (∀ n ∈ around, n ∉ bound → y n = x n) ∧
        q = Point.ofNames y (around.union bound) := by
  have hdiff : ∀ n, n ∈ (around.union bound).diff bound ↔ n ∈ around.diff bound := by
    intro n
    simp only [NameSet.mem_diff, NameSet.mem_union]
    exact ⟨fun hn => ⟨hn.1.resolve_right hn.2, hn.2⟩, fun hn => ⟨.inl hn.1, hn.2⟩⟩
  have hagree : ∀ y : String → Int,
      (Point.ofNames y (around.union bound)).without bound =
          (Point.ofNames x around).without bound ↔
        ∀ n ∈ around, n ∉ bound → y n = x n := by
    intro y
    rw [Point.without_ofNames, Point.without_ofNames, NameSet.ext hdiff,
      Point.ofNames_eq_ofNames]
    simp only [NameSet.mem_diff, and_imp]
  unfold Expr.extensions
  rw [List.mem_filter, decide_eq_true_eq, Point.names_ofNames, h.mem]
  constructor
  · rintro ⟨⟨y, hy, rfl⟩, -, hwithout⟩
    exact ⟨y, hy, (hagree y).mp hwithout, rfl⟩
  · rintro ⟨y, hy, hyx, rfl⟩
    exact ⟨⟨y, hy, rfl⟩, Point.names_ofNames, (hagree y).mpr hyx⟩

/-- The points of a projection that extend a point over fewer names. -/
theorem mem_filter_restrict {points : NameSet → List Point} (h : Projects s env points)
    {cells names : NameSet} (hcells : ∀ n ∈ cells, n ∈ names) {x : String → Int} {q : Point} :
    q ∈ ((points names).filter fun q => q.restrict cells = Point.ofNames x cells) ↔
      ∃ z ∈ s.pointsAt env, (∀ n ∈ cells, z n = x n) ∧ q = Point.ofNames z names := by
  rw [List.mem_filter, decide_eq_true_eq, h.mem]
  constructor
  · rintro ⟨⟨z, hz, rfl⟩, hrestrict⟩
    rw [Point.restrict_ofNames hcells, Point.ofNames_eq_ofNames] at hrestrict
    exact ⟨z, hz, hrestrict, rfl⟩
  · rintro ⟨z, hz, hzx, rfl⟩
    refine ⟨⟨z, hz, rfl⟩, ?_⟩
    rw [Point.restrict_ofNames hcells, Point.ofNames_eq_ofNames]
    exact hzx

/-- If the values of the bound indices depend on no others than those of the cells, then the points
that extend a point are, up to names that make no difference, those that extend its cell. -/
theorem perm_extensions {points : NameSet → List Point} (h : Projects s env points)
    {around bound cells : NameSet} {x : String → Int}
    (hcells : ∀ n ∈ cells, n ∈ around ∧ n ∉ bound)
    (hindependent : ∀ z ∈ s.pointsAt env, (∀ n ∈ cells, z n = x n) →
      ∃ y ∈ s.pointsAt env, (∀ n ∈ around, n ∉ bound → y n = x n) ∧ ∀ n ∈ bound, y n = z n) :
    ((Expr.extensions points (Point.ofNames x around) bound).map fun q =>
        q.restrict (cells.union bound)).Perm
      ((points (cells.union bound)).filter fun q => q.restrict cells = Point.ofNames x cells) := by
  have hsub : ∀ n ∈ cells.union bound, n ∈ around.union bound := by
    intro n hn
    rw [NameSet.mem_union] at hn ⊢
    exact hn.imp_left fun hc => (hcells n hc).1
  have hleft : ∀ n ∈ cells, n ∈ cells.union bound := fun n hn => NameSet.mem_union.mpr (.inl hn)
  apply (List.perm_ext_iff_of_nodup ?_ ((h.nodup _).filter _)).mpr
  · intro q
    rw [List.mem_map, h.mem_filter_restrict hleft]
    constructor
    · rintro ⟨p, hp, rfl⟩
      obtain ⟨y, hy, hyx, rfl⟩ := h.mem_extensions.mp hp
      exact ⟨y, hy, fun n hn => hyx n (hcells n hn).1 (hcells n hn).2, Point.restrict_ofNames hsub⟩
    · rintro ⟨z, hz, hzx, rfl⟩
      obtain ⟨y, hy, hyx, hyz⟩ := hindependent z hz hzx
      refine ⟨_, h.mem_extensions.mpr ⟨y, hy, hyx, rfl⟩, ?_⟩
      rw [Point.restrict_ofNames hsub, Point.ofNames_eq_ofNames]
      intro n hn
      rcases NameSet.mem_union.mp hn with hn | hn
      · rw [hyx n (hcells n hn).1 (hcells n hn).2, hzx n hn]
      · exact hyz n hn
  · -- Two extensions that agree on the bound indices agree everywhere.
    refine List.Nodup.map_on ?_ ((h.nodup _).filter _)
    intro p hp q hq hpq
    obtain ⟨y, -, hyx, rfl⟩ := h.mem_extensions.mp hp
    obtain ⟨z, -, hzx, rfl⟩ := h.mem_extensions.mp hq
    rw [Point.restrict_ofNames hsub, Point.restrict_ofNames hsub, Point.ofNames_eq_ofNames] at hpq
    rw [Point.ofNames_eq_ofNames]
    intro n hn
    by_cases hb : n ∈ bound
    · exact hpq n (NameSet.mem_union.mpr (.inr hb))
    · have ha := (NameSet.mem_union.mp hn).resolve_right hb
      rw [hyx n ha hb, hzx n ha hb]

/-- Points over some names, from a list of points over all dimensions. -/
def project (listed : List Point) (env : String → Int) (names : NameSet) : List Point :=
  (listed.map fun p => Point.ofNames (fun n => p.getD n (env n)) names).dedup

/-- A polyhedron whose points can be listed has projections. -/
theorem of_enumeratePoints {given : String → Option Int} {listed : List Point}
    (hdims : s.dims.Nodup) (hproper : ∀ c ∈ s.constraints, c.form.Proper)
    (henv : ∀ v n, v ∉ s.dims → given v = some n → env v = n)
    (h : s.enumeratePoints given = .ok listed) : Projects s env (project listed env) := by
  refine ⟨fun names => List.nodup_dedup _, fun names q => ?_⟩
  have hvalue : ∀ x ∈ s.pointsAt env, ∀ n, (Point.extend ∅ x s.dims).getD n (env n) = x n := by
    intro x hx n
    rw [SortedMap.getD, Point.get?_extend]
    by_cases hn : n ∈ s.dims
    · rw [if_pos hn, Option.getD_some]
    · rw [if_neg hn, SortedMap.get?_empty, Option.getD_none, hx.1 n hn]
  unfold project
  rw [List.mem_dedup, List.mem_map]
  constructor
  · rintro ⟨p, hp, rfl⟩
    obtain ⟨x, hx, rfl⟩ := (Polyhedron.mem_enumeratePoints hdims h hproper henv).mp hp
    exact ⟨x, hx, Point.ofNames_eq_ofNames.mpr fun n _ => hvalue x hx n⟩
  · rintro ⟨x, hx, rfl⟩
    exact ⟨_, (Polyhedron.mem_enumeratePoints hdims h hproper henv).mpr ⟨x, hx, rfl⟩,
      Point.ofNames_eq_ofNames.mpr fun n _ => hvalue x hx n⟩

end Projects

end LoopKernel
