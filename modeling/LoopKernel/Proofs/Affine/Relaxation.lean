import LoopKernel.Proofs.Affine.Elimination
import Mathlib.Algebra.BigOperators.Group.Finset.Basic
import Mathlib.Algebra.BigOperators.Ring.Finset

/-!
# Rational solutions

What constraints say where variables have rational values. Normalizing an inequality rounds its
constant, so a constraint may lose rational solutions, but gains none. What remains after variables
are eliminated therefore has a rational solution only if everything has one. The constants may count
with any weight that is not negative: with weight zero, the solutions are the directions in which
nothing that holds is ever violated.
-/

namespace LoopKernel

namespace Affine

/-- The value of a form where every variable has a rational value. -/
def valueRat (x : String → Rat) (f : Affine) : Rat :=
  f.constant + (f.coeffs.entries.map fun e => (e.2 : Rat) * x e.1).sum

/-- The value of a form where every variable has a rational value and the constant has a weight. -/
def weighted (w : Rat) (x : String → Rat) (f : Affine) : Rat :=
  w * f.constant + (f.coeffs.entries.map fun e => (e.2 : Rat) * x e.1).sum

variable (w : Rat) (x : String → Rat)

/-- With weight one it is the value. -/
theorem weighted_one (f : Affine) : f.weighted 1 x = f.valueRat x := by
  rw [weighted, valueRat, one_mul]

/-- The value of a form is a sum over all names of a set that has its variables. -/
theorem weighted_eq_sum {f : Affine} {names : Finset String} (h : ∀ v ∈ f.vars, v ∈ names) :
    f.weighted w x = w * f.constant + ∑ v ∈ names, (f.coeff v : Rat) * x v := by
  have hentries : (f.coeffs.entries.map fun e => (e.2 : Rat) * x e.1) =
      f.vars.map fun v => (f.coeff v : Rat) * x v := by
    unfold vars SortedMap.keys
    rw [List.map_map]
    apply List.map_congr_left
    rintro ⟨v, c⟩ he
    have hget := SortedMap.mem_entries.mp he
    simp only [Function.comp_apply, coeff, SortedMap.getD, hget, Option.getD_some]
  have hrest : ∀ v ∈ names, v ∉ f.vars.toFinset → (f.coeff v : Rat) * x v = 0 := by
    intro v _ hv
    rw [List.mem_toFinset, vars, SortedMap.mem_keys, SortedMap.contains, Bool.not_eq_true,
      Option.isSome_eq_false_iff, Option.isNone_iff_eq_none] at hv
    simp only [coeff, SortedMap.getD, hv, Option.getD_none, Int.cast_zero, zero_mul]
  unfold weighted
  have hnodup : f.vars.Nodup := SortedMap.nodup_keys f.coeffs
  rw [hentries, ← List.sum_toFinset _ hnodup,
    Finset.sum_subset (fun v hv => h v (List.mem_toFinset.mp hv)) hrest]

/-- The value depends on the values of the variables alone. -/
theorem weighted_congr {x y : String → Rat} {f : Affine} (h : ∀ v ∈ f.vars, x v = y v) :
    f.weighted w x = f.weighted w y := by
  unfold weighted
  congr 2
  apply List.map_congr_left
  intro e he
  rw [h e.1 (List.mem_map_of_mem he)]

/-- A constant form. -/
@[simp] theorem weighted_const (c : Int) : (const c).weighted w x = w * c := add_zero _

/-- A constant form has no variables. -/
theorem weighted_of_isConstant {f : Affine} (h : f.isConstant = true) :
    f.weighted w x = w * f.constant := by
  unfold weighted
  rw [List.isEmpty_iff.mp h]
  exact add_zero _

/-- The constant is the value where all variables are zero. -/
theorem constant_eq_value (f : Affine) : f.constant = f.value 0 := by
  simp [value]

/-- A form that is a combination of two others at all integers is so at all rationals. -/
theorem weighted_of_value {f g h : Affine} {a b : Int}
    (hvalue : ∀ y, h.value y = a * f.value y + b * g.value y) :
    h.weighted w x = a * f.weighted w x + b * g.weighted w x := by
  have hcoeff : ∀ v, h.coeff v = a * f.coeff v + b * g.coeff v := by
    intro v
    rw [coeff_eq_value h, coeff_eq_value f, coeff_eq_value g, hvalue, hvalue]
    ring
  have hconstant : h.constant = a * f.constant + b * g.constant := by
    rw [constant_eq_value h, constant_eq_value f, constant_eq_value g, hvalue]
  have hsum : ∀ e ∈ [f, g, h], e.weighted w x = w * e.constant +
      ∑ v ∈ (f.vars ++ g.vars ++ h.vars).toFinset, (e.coeff v : Rat) * x v := by
    intro e he
    apply weighted_eq_sum
    intro v hv
    simp only [List.mem_cons, List.not_mem_nil, or_false] at he
    simp only [List.mem_toFinset, List.mem_append]
    rcases he with rfl | rfl | rfl
    · exact .inl (.inl hv)
    · exact .inl (.inr hv)
    · exact .inr hv
  rw [hsum f (by simp), hsum g (by simp), hsum h (by simp), hconstant]
  simp only [hcoeff]
  push_cast
  simp only [add_mul, Finset.sum_add_distrib, mul_assoc, ← Finset.mul_sum]
  ring

theorem weighted_scale {f g : Affine} {k : Int} (h : f.scale k = .ok g) :
    g.weighted w x = f.weighted w x * k := by
  have hvalue : ∀ y, g.value y = k * f.value y + 0 * f.value y := by
    intro y
    rw [value_scale y h]
    ring
  rw [weighted_of_value w x hvalue]
  push_cast
  ring

theorem weighted_neg {f g : Affine} (h : f.neg = .ok g) : g.weighted w x = -f.weighted w x := by
  rw [weighted_scale w x h]
  push_cast
  ring

theorem weighted_add {f g s : Affine} (h : f.add g = .ok s) :
    s.weighted w x = f.weighted w x + g.weighted w x := by
  have hvalue : ∀ y, s.value y = 1 * f.value y + 1 * g.value y := by
    intro y
    rw [value_add y h]
    ring
  rw [weighted_of_value w x hvalue]
  push_cast
  ring

theorem weighted_sub {f g d : Affine} (h : f.sub g = .ok d) :
    d.weighted w x = f.weighted w x - g.weighted w x := by
  have hvalue : ∀ y, d.value y = 1 * f.value y + (-1) * g.value y := by
    intro y
    rw [value_sub y h]
    ring
  rw [weighted_of_value w x hvalue]
  push_cast
  ring

/-- A variable. -/
@[simp] theorem weighted_var (name : String) : (var name).weighted w x = x name := by
  have h : ∀ v ∈ (var name).vars, v ∈ ({name} : Finset String) := by
    intro v hv
    simpa [vars, var, term, SortedMap.mem_keys] using hv
  rw [weighted_eq_sum w x h, Finset.sum_singleton, coeff_eq_value, constant_eq_value]
  simp

/-- A form is one of its terms and the rest. -/
theorem weighted_without (f : Affine) (name : String) :
    f.weighted w x = f.coeff name * x name + (f.without name).weighted w x := by
  have hvalue : ∀ y, f.value y = f.coeff name * (var name).value y +
      1 * (f.without name).value y := by
    intro y
    rw [value_without y f name, value_var, one_mul]
  rw [weighted_of_value w x hvalue, weighted_var, Int.cast_one, one_mul]

/-- The value of a form where one variable has a new value. -/
theorem weighted_update (f : Affine) (name : String) (t : Rat) :
    f.weighted w (Function.update x name t) = f.coeff name * t + (f.without name).weighted w x := by
  rw [weighted_without w _ f name, Function.update_self]
  congr 1
  apply weighted_congr
  intro v hv
  have hne : v ≠ name := by
    rintro rfl
    rw [vars, SortedMap.mem_keys, SortedMap.contains, without, SortedMap.get?_erase, if_pos rfl]
      at hv
    cases hv
  rw [Function.update_of_ne hne]

end Affine

namespace Constraint

variable {w : Rat} {x : String → Rat} {name : String}

/-- Whether a rational assignment satisfies a constraint. -/
def HoldsRat (x : String → Rat) (c : Constraint) : Prop := c.relation.HoldsRat (c.form.valueRat x)

/-- Whether a rational assignment satisfies a constraint whose constant has a weight. -/
def HoldsWeighted (w : Rat) (x : String → Rat) (c : Constraint) : Prop :=
  c.relation.HoldsRat (c.form.weighted w x)

theorem holdsWeighted_one {c : Constraint} : c.HoldsWeighted 1 x ↔ c.HoldsRat x := by
  rw [HoldsWeighted, HoldsRat, Affine.weighted_one]

/-! ## Normalization -/

private theorem weighted_divideCoeffs {f : Affine} {g : Nat} (h : f.content = .ok g)
    (constant : Int) :
    f.weighted w x =
      w * f.constant + g * ((divideCoeffs f g constant).weighted w x - w * constant) := by
  have hvalue : ∀ y, f.value y = 1 * (Affine.const (f.constant - g * constant)).value y +
      g * (divideCoeffs f g constant).value y := by
    intro y
    rw [value_divideCoeffs (Affine.content_dvd h) constant, Affine.value_const]
    ring
  rw [Affine.weighted_of_value w x hvalue, Affine.weighted_const]
  push_cast
  ring

/-- Rounding the constant of an inequality down brings no rational solution in. -/
theorem nonneg_of_tighten (hw : 0 ≤ w) {f : Affine} {g : Nat} (h : f.content = .ok g)
    (hx : 0 ≤ (tighten f g).weighted w x) : 0 ≤ f.weighted w x := by
  unfold tighten at hx
  split at hx
  · have hround : (g : Rat) * (f.constant / g : Int) ≤ f.constant := by
      exact_mod_cast Int.mul_ediv_self_le (x := f.constant) (k := g) (by omega)
    have hscaled : 0 ≤ (g : Rat) * (divideCoeffs f g (f.constant / g)).weighted w x :=
      mul_nonneg (Nat.cast_nonneg g) hx
    have hweight := mul_le_mul_of_nonneg_left hround hw
    rw [weighted_divideCoeffs h (f.constant / g), mul_sub]
    linarith
  · exact hx

/-- Dividing an equality by a common divisor brings no rational solution in. -/
theorem eq_zero_of_reduce {f : Affine} {g : Nat} (h : f.content = .ok g)
    (hx : (reduce f g).weighted w x = 0) : f.weighted w x = 0 := by
  unfold reduce at hx
  split at hx
  · next hg =>
    have hexact : (g : Rat) * (f.constant / g : Int) = f.constant := by
      exact_mod_cast Int.mul_ediv_cancel' (Int.dvd_of_emod_eq_zero hg.2)
    rw [weighted_divideCoeffs h (f.constant / g), hx, mul_sub, mul_left_comm, hexact]
    ring
  · exact hx

/-- Turning the sign of an equality brings no rational solution in. -/
theorem eq_zero_of_orient {f g : Affine} (h : orient f = .ok g) (hx : g.weighted w x = 0) :
    f.weighted w x = 0 := by
  rcases eq_or_neg_of_orient h with rfl | hneg
  · exact hx
  · rwa [Affine.weighted_neg w x hneg, neg_eq_zero] at hx

/-- Normalizing a constraint brings no rational solution in. -/
theorem holdsWeighted_of_normalize (hw : 0 ≤ w) {c d : Constraint} (h : c.normalize = .ok d)
    (hx : d.HoldsWeighted w x) : c.HoldsWeighted w x := by
  obtain ⟨hsame, g, hg, ⟨hrelation, hd⟩ | ⟨hrelation, hd⟩⟩ := normalize_cases h
  · rw [HoldsWeighted, hsame, hrelation, hd] at hx
    rw [HoldsWeighted, hrelation]
    exact nonneg_of_tighten hw hg hx
  · rw [HoldsWeighted, hsame, hrelation] at hx
    rw [HoldsWeighted, hrelation]
    exact eq_zero_of_reduce hg (eq_zero_of_orient hd hx)

/-- What always holds does so at rationals. -/
theorem holdsWeighted_of_isTautology (hw : 0 ≤ w) {c : Constraint} (h : c.isTautology = true) :
    c.HoldsWeighted w x := by
  obtain ⟨relation, f⟩ := c
  unfold isTautology at h
  rw [Bool.and_eq_true, decide_eq_true_eq] at h
  unfold HoldsWeighted
  rw [Affine.weighted_of_isConstant w x h.1]
  cases relation with
  | inequality => exact mul_nonneg hw (Int.cast_nonneg h.2)
  | equality => exact mul_eq_zero_of_right w (Int.cast_eq_zero.mpr h.2)

/-- A constant that is no contradiction holds at rationals. -/
theorem holdsRat_of_isContradiction_false {c : Constraint} (hconstant : c.form.isConstant = true)
    (h : c.isContradiction = .ok false) : c.HoldsRat x := by
  obtain ⟨relation, f⟩ := c
  unfold HoldsRat
  rw [← Affine.weighted_one, Affine.weighted_of_isConstant 1 x hconstant, one_mul]
  cases relation with
  | inequality =>
    simp only [isContradiction, Attempt.pure_eq_ok] at h
    simp only [Bool.and_eq_false_iff, hconstant, decide_eq_false_iff_not, not_lt,
      Bool.true_eq_false, false_or] at h
    exact Int.cast_nonneg h
  | equality =>
    simp only [isContradiction, Attempt.bind_eq_ok, Attempt.pure_eq_ok] at h
    obtain ⟨_, -, h⟩ := h
    rw [if_pos hconstant, bne_eq_false_iff_eq] at h
    exact Int.cast_eq_zero.mpr h

/-! ## Elimination -/

/-- A constraint where one variable has a new value. -/
theorem holdsWeighted_update (c : Constraint) (t : Rat) :
    c.HoldsWeighted w (Function.update x name t) ↔
      c.relation.HoldsRat (c.form.coeff name * t + (c.form.without name).weighted w x) := by
  rw [HoldsWeighted, Affine.weighted_update]

/-- A requirement does not change under a positive factor. -/
private theorem holdsRat_mul_pos {r : Relation} {a q : Rat} (ha : 0 < a) :
    r.HoldsRat (a * q) ↔ r.HoldsRat q := by
  cases r with
  | inequality => exact mul_nonneg_iff_of_pos_left ha
  | equality => exact mul_eq_zero_iff_left ha.ne'

/-- The form of a pivot has a positive coefficient, and is zero where the pivot holds. -/
private theorem orientedPivot_holdsWeighted {pivot : Constraint} {form : Affine} {a : Int}
    (hpivot : isPivot name pivot = true) (h : orientedPivot name pivot = .ok (form, a)) :
    0 < a ∧ form.coeff name = a ∧
      ∀ y : String → Rat, form.weighted w y = 0 → pivot.HoldsWeighted w y := by
  obtain ⟨hequality, ha, hcoeff, hform⟩ := orientedPivot_cases hpivot h
  refine ⟨ha, hcoeff, fun y hy => ?_⟩
  rw [HoldsWeighted, hequality, Relation.HoldsRat]
  rcases hform with rfl | hneg
  · exact hy
  · rwa [Affine.weighted_neg w y hneg, neg_eq_zero] at hy

/-- What a constraint with the variable cancelled demands, the constraint does not exceed where the
variable makes the pivot zero. -/
private theorem holdsWeighted_of_cancel (hw : 0 ≤ w) {form : Affine} {a : Int}
    {c d : Constraint} {t : Rat} (ha : 0 < a) (hcoeff : form.coeff name = a)
    (ht : form.weighted w (Function.update x name t) = 0) (h : cancel name form a c = .ok d)
    (hd : d.HoldsWeighted w x) : c.HoldsWeighted w (Function.update x name t) := by
  rcases cancel_cases h with
    ⟨hzero, rfl⟩ | ⟨-, scaled, multiple, difference, hscaled, hmultiple, hdifference, hnormal⟩
  · rw [HoldsWeighted, Affine.weighted_without w x d.form name] at hd
    rw [holdsWeighted_update]
    rwa [hzero, Int.cast_zero, zero_mul] at hd ⊢
  · -- The difference does not mention the variable, so it may be read at the new value.
    have hfree : difference.coeff name = 0 := by
      rw [Affine.coeff_sub hdifference, Affine.coeff_scale hscaled, Affine.coeff_scale hmultiple,
        hcoeff]
      ring
    have hsame : difference.weighted w x = difference.weighted w (Function.update x name t) := by
      rw [Affine.weighted_update, Affine.weighted_without w x difference name, hfree, Int.cast_zero,
        zero_mul, zero_mul]
    have hvalue : difference.weighted w x = a * c.form.weighted w (Function.update x name t) := by
      rw [hsame, Affine.weighted_sub w _ hdifference, Affine.weighted_scale w _ hscaled,
        Affine.weighted_scale w _ hmultiple, ht]
      ring
    have hdiff := holdsWeighted_of_normalize hw hnormal hd
    rw [HoldsWeighted, hvalue, holdsRat_mul_pos (Int.cast_pos.mpr ha)] at hdiff
    exact hdiff

/-- Where a lower and an upper bound add up to what holds, the root of the lower one is not above
that of the upper one. -/
private theorem root_le_root_of_combine (hw : 0 ≤ w) {lower upper d : Constraint}
    (hlower : 0 < lower.form.coeff name) (hupper : upper.form.coeff name < 0)
    (h : combine name lower upper = .ok d) (hd : d.HoldsWeighted w x) :
    root (lower.form.coeff name) ((lower.form.without name).weighted w x) ≤
      root (upper.form.coeff name) ((upper.form.without name).weighted w x) := by
  obtain ⟨below, above, sum, hbelow, habove, hsum, hnormal⟩ := exists_of_combine h
  have hnonneg : 0 ≤ sum.weighted w x := holdsWeighted_of_normalize hw hnormal hd
  rw [Affine.weighted_add w x hsum, Affine.weighted_scale w x hbelow,
    Affine.weighted_scale w x habove, Affine.weighted_without w x lower.form name,
    Affine.weighted_without w x upper.form name] at hnonneg
  rw [root_le_root_iff (Int.cast_pos.mpr hlower) (Int.cast_lt_zero.mpr hupper)]
  push_cast at hnonneg
  linarith

/-- A rational solution of what remains after a variable is eliminated is one of everything for some
value of the variable. -/
theorem exists_holdsWeighted_of_eliminate (hw : 0 ≤ w) {constraints out : List Constraint}
    (h : eliminate name constraints = .ok out) (hx : ∀ d ∈ out, d.HoldsWeighted w x) :
    ∃ t : Rat, ∀ c ∈ constraints, c.HoldsWeighted w (Function.update x name t) := by
  rcases eliminate_cases h with ⟨pivot, rest, form, a, hperm, hpivot, horiented, hfold⟩ |
    ⟨hrelation, hfold⟩
  · obtain ⟨ha, hcoeff, hzero⟩ := orientedPivot_holdsWeighted hpivot horiented
    have hroot : form.weighted w
        (Function.update x name (root a ((form.without name).weighted w x))) = 0 := by
      rw [Affine.weighted_update, hcoeff, mul_root (Int.cast_ne_zero.mpr ha.ne')]
    have hderived := (forall_derived hfold (fun _ => holdsWeighted_of_isTautology hw)
      (P := fun c => ∃ d, cancel name form a c = .ok d ∧ d.HoldsWeighted w x)
      fun c _ d hd => by simp [hd]).mp hx
    refine ⟨root a ((form.without name).weighted w x), fun c hc => ?_⟩
    rw [← hperm.mem_iff, List.mem_cons] at hc
    rcases hc with rfl | hc
    · exact hzero _ hroot
    · obtain ⟨d, hd, hdx⟩ := hderived.2 c hc
      exact holdsWeighted_of_cancel hw ha hcoeff hroot hd hdx
  · simp only [holdsWeighted_update]
    have hderived := (forall_derived hfold (fun _ => holdsWeighted_of_isTautology hw)
      (P := fun p => ∃ d, combine name p.1 p.2 = .ok d ∧ d.HoldsWeighted w x)
      fun p _ d hd => by simp [hd]).mp hx
    rw [forall_foldl_pushUnique fun _ => holdsWeighted_of_isTautology hw] at hderived
    obtain ⟨⟨-, hothers⟩, hpairs⟩ := hderived
    apply (exists_holdsRat_iff hrelation).mpr
    refine ⟨fun c hc hz => ?_, fun l hl u hu hpos hneg => ?_⟩
    · have hcx := hothers c (List.mem_filter.mpr ⟨hc, decide_eq_true hz⟩)
      rwa [HoldsWeighted, Affine.weighted_without w x c.form name, hz, Int.cast_zero, zero_mul,
        zero_add] at hcx
    · obtain ⟨d, hd, hdx⟩ := hpairs (l, u) (mem_boundPairs_filter.mpr ⟨⟨hl, hpos⟩, hu, hneg⟩)
      exact root_le_root_of_combine hw hpos hneg hd hdx

/-- Where what remains after several variables are eliminated has a rational solution, everything
has one. -/
theorem exists_holdsRat_of_eliminateAll {names : List String} {constraints out : List Constraint}
    (h : eliminateAll names constraints = .ok out) (hx : ∀ d ∈ out, d.HoldsRat x) :
    ∃ y : String → Rat, ∀ c ∈ constraints, c.HoldsRat y := by
  simp only [← holdsWeighted_one] at hx ⊢
  unfold eliminateAll at h
  induction names generalizing constraints with
  | nil =>
    rw [List.foldlM_nil, Attempt.pure_eq_ok] at h
    exact ⟨x, h ▸ hx⟩
  | cons name rest ih =>
    rw [List.foldlM_cons, Attempt.bind_eq_ok] at h
    obtain ⟨next, hnext, h⟩ := h
    obtain ⟨y, hy⟩ := ih h
    obtain ⟨t, ht⟩ := exists_holdsWeighted_of_eliminate zero_le_one hnext hy
    exact ⟨_, ht⟩

end Constraint

end LoopKernel
