import LoopKernel.Proofs.Affine.Elimination

/-!
# Bounds and differences

Forms that are a variable, the negation of one or the difference of two, up to a constant. Boxes
and triangles are described by constraints on such forms. A variable cancels between two of them and
leaves one of them, so eliminating variables never leads to a coefficient other than one.
-/

namespace LoopKernel

namespace Affine

variable {f g s : Affine} {name : String} {p m q n : Option String}

/-- Whether a form is a variable, the negation of one or the difference of two, plus a constant, or
the constant alone. -/
def IsDifference (f : Affine) : Prop :=
  f.coeffs.values ∈ ([[], [1], [-1], [1, -1], [-1, 1]] : List (List Int))

instance (f : Affine) : Decidable f.IsDifference := inferInstanceAs (Decidable (_ ∈ _))

/-- A difference stores no zeros. -/
theorem IsDifference.proper (h : f.IsDifference) : f.Proper := by
  rw [proper_iff]
  rintro e he hzero
  have hmem : (0 : Int) ∈ f.coeffs.values := List.mem_map.mpr ⟨e, he, hzero⟩
  unfold IsDifference at h
  generalize f.coeffs.values = values at h hmem
  simp only [List.mem_cons, List.not_mem_nil, or_false] at h
  rcases h with rfl | rfl | rfl | rfl | rfl <;> simp at hmem

/-- Whether a form has coefficient one for one variable, minus one for another, and zero for all
others. Each of the two may be missing, and they cancel if they are the same. -/
def Joins (f : Affine) (plus minus : Option String) : Prop :=
  ∀ name, f.coeff name = (if plus = some name then 1 else 0) - if minus = some name then 1 else 0

/-- A coefficient is the sum of the entries for its variable. -/
private theorem coeff_eq_sum (f : Affine) (name : String) :
    f.coeff name = (f.coeffs.entries.map fun e => if e.1 = name then e.2 else 0).sum := by
  have hterms : ∀ e : String × Int,
      e.2 * Function.update (0 : String → Int) name 1 e.1 = if e.1 = name then e.2 else 0 := by
    intro e
    rw [Function.update_apply, Pi.zero_apply, mul_ite, mul_one, mul_zero]
  rw [coeff_eq_value, value, value]
  simp [hterms]

/-- A difference joins its variables. -/
theorem IsDifference.exists_joins (h : f.IsDifference) : ∃ plus minus, f.Joins plus minus := by
  have hcoeff := coeff_eq_sum f
  unfold IsDifference SortedMap.values at h
  generalize f.coeffs.entries = entries at h hcoeff
  simp only [List.mem_cons, List.not_mem_nil, or_false, List.map_eq_nil_iff,
    List.map_eq_cons_iff] at h
  rcases h with rfl | h | h | h | h
  · exact ⟨none, none, fun name => by simp [hcoeff]⟩
  · obtain ⟨⟨v, _⟩, _, rfl, rfl, rfl⟩ := h
    exact ⟨some v, none, fun name => by simp [hcoeff]⟩
  · obtain ⟨⟨v, _⟩, _, rfl, rfl, rfl⟩ := h
    exact ⟨none, some v, fun name => by simp [hcoeff]; split <;> rfl⟩
  · obtain ⟨⟨u, _⟩, _, rfl, rfl, ⟨v, _⟩, _, rfl, rfl, rfl⟩ := h
    exact ⟨some u, some v, fun name => by simp [hcoeff]; grind⟩
  · obtain ⟨⟨u, _⟩, _, rfl, rfl, ⟨v, _⟩, _, rfl, rfl, rfl⟩ := h
    exact ⟨some v, some u, fun name => by simp [hcoeff]; grind⟩

namespace Joins

/-- A variable with a positive coefficient is the first one. -/
theorem of_pos (h : f.Joins p m) (hpos : 0 < f.coeff name) : p = some name ∧ f.coeff name = 1 := by
  have hcoeff := h name
  grind

/-- A variable with a negative coefficient is the second one. -/
theorem of_neg (h : f.Joins p m) (hneg : f.coeff name < 0) :
    m = some name ∧ f.coeff name = -1 := by
  have hcoeff := h name
  grind

/-- The negation has the variables exchanged. -/
theorem neg (h : f.Joins p m) (hg : f.neg = .ok g) : g.Joins m p := by
  intro name
  rw [coeff_neg hg, h name]
  ring

/-- Where a first variable cancels against a second one, the other two are left. -/
theorem add (hf : f.Joins (some name) m) (hg : g.Joins q (some name)) (hs : f.add g = .ok s) :
    s.Joins q m := by
  intro other
  rw [coeff_add hs, hf other, hg other]
  ring

/-- A multiple by one has the same variables. -/
theorem scale_one (h : f.Joins p m) (hg : f.scale 1 = .ok g) : g.Joins p m := by
  intro other
  rw [coeff_scale hg, h other, mul_one]

end Joins

/-- The content of a form divides its coefficients. -/
theorem content_dvd_coeff {k : Nat} (h : f.content = .ok k) (name : String) :
    (k : Int) ∣ f.coeff name := by
  unfold coeff SortedMap.getD
  cases hget : f.coeffs.get? name with
  | none => exact dvd_zero _
  | some c => exact content_dvd h _ (SortedMap.mem_entries.mpr hget)

/-- A form that joins two variables is constant or has content one. -/
theorem Joins.content {k : Nat} (h : f.Joins p m) (hk : f.content = .ok k) :
    (∀ name, f.coeff name = 0) ∨ k = 1 := by
  have hunit : ∀ name, f.coeff name ≠ 0 → k = 1 := by
    intro name hne
    have hdvd := content_dvd_coeff hk name
    have hone : (k : Int) ∣ 1 := by
      rcases Int.lt_or_gt_of_ne hne with hneg | hpos
      · rwa [(h.of_neg hneg).2, Int.dvd_neg] at hdvd
      · rwa [(h.of_pos hpos).2] at hdvd
    exact Int.natCast_inj.mp (Int.eq_one_of_dvd_one (Int.natCast_nonneg k) hone)
  by_contra hnot
  rw [not_or, not_forall] at hnot
  obtain ⟨⟨name, hne⟩, hk⟩ := hnot
  exact hk (hunit name hne)

end Affine

namespace Constraint

variable {name : String} {c d lower upper : Constraint}

/-- Whether the form of a constraint has at most two variables, with coefficients one and minus
one. -/
def Joins (c : Constraint) : Prop := ∃ plus minus, c.form.Joins plus minus

/-- Normalizing at most turns the sign. -/
theorem joins_normalize (hc : c.Joins) (h : c.normalize = .ok d) : d.Joins := by
  obtain ⟨p, m, hjoins⟩ := hc
  have hzero : (∀ name, c.form.coeff name = 0) → d.Joins := fun hall =>
    ⟨none, none, fun name => by rw [coeff_normalize (hall name) h]; simp⟩
  obtain ⟨-, k, hk, hd⟩ := normalize_cases h
  rcases hjoins.content hk with hall | rfl
  · exact hzero hall
  have htighten : tighten c.form 1 = c.form := if_neg (lt_irrefl 1)
  have hreduce : reduce c.form 1 = c.form := if_neg fun h => absurd h.1 (lt_irrefl 1)
  rw [htighten, hreduce] at hd
  obtain ⟨-, hd⟩ | ⟨-, hd⟩ := hd
  · exact ⟨p, m, hd ▸ hjoins⟩
  · rcases eq_or_neg_of_orient hd with heq | hneg
    · exact ⟨p, m, heq ▸ hjoins⟩
    · exact ⟨m, p, hjoins.neg hneg⟩

/-- A lower bound ends in the variable that an upper bound starts from. -/
private theorem joins_combine (hl : lower.Joins) (hu : upper.Joins)
    (hpos : 0 < lower.form.coeff name) (hneg : upper.form.coeff name < 0)
    (h : combine name lower upper = .ok d) : d.Joins := by
  obtain ⟨p, m, hl⟩ := hl
  obtain ⟨q, n, hu⟩ := hu
  obtain ⟨rfl, ha⟩ := hl.of_pos hpos
  obtain ⟨rfl, hb⟩ := hu.of_neg hneg
  obtain ⟨below, above, sum, hbelow, habove, hsum, hd⟩ := exists_of_combine h
  rw [hb, neg_neg] at hbelow
  rw [ha] at habove
  exact joins_normalize ⟨q, m, (hl.scale_one hbelow).add (hu.scale_one habove) hsum⟩ hd

/-- Cancelling a variable leaves the other one of the pivot in its place. -/
private theorem joins_cancel {form : Affine} {p m : Option String} {a : Int} (ha : 0 < a)
    (hcoeff : form.coeff name = a) (hform : form.Joins p m) (hc : c.Joins)
    (h : cancel name form a c = .ok d) : d.Joins := by
  obtain ⟨q, n, hc'⟩ := hc
  obtain ⟨rfl, hone⟩ := hform.of_pos (hcoeff ▸ ha)
  rw [hone] at hcoeff
  subst hcoeff
  rcases cancel_cases h with
    ⟨-, rfl⟩ | ⟨hne, scaled, multiple, difference, hscaled, hmultiple, hdifference, hd⟩
  · exact ⟨q, n, hc'⟩
  · have hcoeffs : ∀ other, difference.coeff other =
        c.form.coeff other - form.coeff other * c.form.coeff name := by
      intro other
      rw [Affine.coeff_sub hdifference, Affine.coeff_scale hscaled, Affine.coeff_scale hmultiple,
        mul_one]
    rcases Int.lt_or_gt_of_ne hne with hneg | hpos
    · obtain ⟨rfl, hminus⟩ := hc'.of_neg hneg
      refine joins_normalize ⟨q, m, fun other => ?_⟩ hd
      rw [hcoeffs, hc' other, hform other, hminus]
      ring
    · obtain ⟨rfl, hplus⟩ := hc'.of_pos hpos
      refine joins_normalize ⟨m, n, fun other => ?_⟩ hd
      rw [hcoeffs, hc' other, hform other, hplus]
      ring

private theorem joins_orientedPivot {pivot : Constraint} {form : Affine} {a : Int}
    (hpivot : isPivot name pivot = true) (hjoins : pivot.Joins)
    (h : orientedPivot name pivot = .ok (form, a)) :
    0 < a ∧ form.coeff name = a ∧ ∃ p m, form.Joins p m := by
  obtain ⟨p, m, hjoins⟩ := hjoins
  obtain ⟨-, ha, hcoeff, rfl | hneg⟩ := orientedPivot_cases hpivot h
  · exact ⟨ha, hcoeff, p, m, hjoins⟩
  · exact ⟨ha, hcoeff, m, p, hjoins.neg hneg⟩

/-- Eliminating a variable from constraints on differences leaves constraints on differences. -/
theorem joins_eliminate {constraints out : List Constraint}
    (h : eliminate name constraints = .ok out) (hjoins : ∀ c ∈ constraints, c.Joins) :
    ∀ d ∈ out, d.Joins := by
  intro d hd
  rcases of_mem_eliminate h hd with ⟨pivot, hpivotMem, c, hc, form, a, hpivot, horiented, hcancel⟩ |
    ⟨hd, -⟩ | ⟨lower, hl, upper, hu, hpos, hneg, hcombine⟩
  · obtain ⟨ha, hcoeff, p, m, hform⟩ := joins_orientedPivot hpivot (hjoins _ hpivotMem) horiented
    exact joins_cancel ha hcoeff hform (hjoins c hc) hcancel
  · exact hjoins d hd
  · exact joins_combine (hjoins _ hl) (hjoins _ hu) hpos hneg hcombine

end Constraint

end LoopKernel
