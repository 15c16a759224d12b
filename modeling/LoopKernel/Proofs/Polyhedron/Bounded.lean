import LoopKernel.Proofs.Affine.Relaxation
import LoopKernel.Proofs.Overflow
import LoopKernel.Proofs.Polyhedron.Points

/-!
# Listing finite polyhedra

A direction in which one can go on forever leads to infinitely many points. A polyhedron that has
points, but finitely many, therefore has none: at each level of a listing, some constraint bounds
the dimension from below and some constraint from above. Nothing but overflow keeps such a
polyhedron from being listed.
-/

namespace LoopKernel

/-- Along a direction, the value of a form grows evenly. -/
theorem Affine.value_add_mul (f : Affine) (x d : String → Int) (n : Nat) :
    ((f.value fun v => x v + n * d v : Int) : Rat) =
      f.value x + n * f.weighted 0 fun v => d v := by
  unfold value weighted
  induction f.coeffs.entries with
  | nil => simp
  | cons e rest ih =>
    simp only [List.map_cons, List.sum_cons] at ih ⊢
    push_cast at ih ⊢
    linarith

namespace Constraint

variable {c : Constraint} {name : String} {r : String → Rat}

/-- Whether one can go on forever in a direction, from wherever a constraint holds. -/
def Recedes (r : String → Rat) (c : Constraint) : Prop := c.HoldsWeighted 0 r

/-- How far one goes in a direction makes no difference. -/
theorem Recedes.mul (h : c.Recedes r) {k : Rat} (hk : 0 < k) : c.Recedes fun v => k * r v := by
  have hform : c.form.weighted 0 (fun v => k * r v) = k * c.form.weighted 0 r := by
    unfold Affine.weighted
    rw [zero_mul, zero_add, zero_add, ← List.sum_map_mul_left]
    simp only [mul_left_comm]
  unfold Recedes HoldsWeighted at h ⊢
  rw [hform]
  cases hrelation : c.relation with
  | inequality =>
    rw [hrelation] at h
    exact mul_nonneg hk.le h
  | equality =>
    rw [hrelation] at h
    exact mul_eq_zero_of_right k h

/-- In the direction of a variable, its coefficient alone counts. -/
theorem recedes_update_zero {t : Rat} : c.Recedes (Function.update 0 name t) ↔
    c.relation.HoldsRat (c.form.coeff name * t) := by
  have hrest : (c.form.without name).weighted 0 0 = 0 := by
    unfold Affine.weighted
    simp
  rw [Recedes, holdsWeighted_update, hrest, add_zero]

/-- Where a constraint holds, it does so after any number of steps in a direction. -/
theorem Recedes.holds {x d : String → Int} (h : c.Recedes fun v => d v) (hx : c.Holds x) (n : Nat) :
    c.Holds fun v => x v + n * d v := by
  have hvalue := c.form.value_add_mul x d n
  unfold Recedes HoldsWeighted at h
  unfold Holds at hx ⊢
  cases hrelation : c.relation with
  | inequality =>
    rw [hrelation] at h hx
    have hx' : (0 : Rat) ≤ c.form.value x := Int.cast_nonneg hx
    have hn := mul_nonneg (Nat.cast_nonneg (α := Rat) n) h
    rw [Relation.Holds, ← Int.cast_nonneg_iff (R := Rat), hvalue]
    exact add_nonneg hx' hn
  | equality =>
    rw [hrelation] at h hx
    change c.form.value x = 0 at hx
    change c.form.weighted 0 (fun v => (d v : Rat)) = 0 at h
    rw [Relation.Holds, ← Int.cast_eq_zero (α := Rat), hvalue, hx, h, mul_zero, Int.cast_zero,
      add_zero]

end Constraint

namespace Polyhedron

open Constraint (Recedes)

variable {s : Polyhedron} {name : String} {levels : List (String × List Constraint)}

/-! ## Directions -/

/-- A direction along finitely many dimensions becomes one of integers when it is long enough. -/
private theorem exists_integer_direction {names : List String} {r : String → Rat}
    (hoff : ∀ v, v ∉ names → r v = 0) :
    ∃ (k : Rat) (d : String → Int), 0 < k ∧ ∀ v, (d v : Rat) = k * r v := by
  have hinteger : ∀ v, ∃ n : Int,
      (n : Rat) = ((names.map fun v => (r v).den).prod : Nat) * r v := by
    intro v
    by_cases hv : v ∈ names
    · obtain ⟨m, hm⟩ := List.dvd_prod (List.mem_map_of_mem (f := fun v => (r v).den) hv)
      refine ⟨m * (r v).num, ?_⟩
      rw [hm]
      push_cast
      rw [← Rat.mul_den_eq_num (r v)]
      ring
    · exact ⟨0, by rw [hoff v hv, mul_zero, Int.cast_zero]⟩
  choose d hd using hinteger
  refine ⟨_, d, ?_, hd⟩
  have hne : (names.map fun v => (r v).den).prod ≠ 0 := by
    apply List.prod_ne_zero
    simp
  exact Nat.cast_pos.mpr (Nat.pos_of_ne_zero hne)

/-- There are infinitely many points in a direction in which one can go on forever. -/
theorem infinite_of_recedes {r : String → Rat} (hr : ∀ c ∈ s.constraints, c.Recedes r)
    (hoff : ∀ v, v ∉ s.dims → r v = 0) (hne : r name ≠ 0) {env x : String → Int}
    (hx : x ∈ s.pointsAt env) : (s.pointsAt env).Infinite := by
  obtain ⟨k, d, hk, hd⟩ := exists_integer_direction hoff
  have hmove : d name ≠ 0 := by
    rw [← Int.cast_ne_zero (α := Rat), hd]
    exact mul_ne_zero hk.ne' hne
  apply Set.infinite_of_injective_forall_mem (f := fun (n : Nat) v => x v + n * d v)
  · intro m n hmn
    have hname := congrFun hmn name
    simpa [hmove] using hname
  · intro n
    refine ⟨fun v hv => ?_, fun c hc => ?_⟩
    · have hstay : d v = 0 := by
        rw [← Int.cast_eq_zero (α := Rat), hd, hoff v hv, mul_zero]
      simp only [hstay, mul_zero, add_zero]
      exact hx.1 v hv
    · refine Recedes.holds ?_ (hx.2 c hc) n
      simpa only [hd] using (hr c hc).mul hk

/-- A direction at one level leads to one at all constraints, which is the same outside of the later
levels. -/
private theorem exists_recedes_of_projections {constraints : List Constraint} {names : List String}
    (hnames : names.Nodup) (h : projections constraints names = .ok levels)
    {level : String × List Constraint} (hlevel : level ∈ levels) {r : String → Rat}
    (hr : ∀ c ∈ level.2, c.Recedes r) :
    ∃ r', (∀ c ∈ constraints, c.Recedes r') ∧ r' level.1 = r level.1 ∧
      ∀ v, v ∉ names → r' v = r v := by
  induction names generalizing constraints levels with
  | nil =>
    rw [projections, Attempt.pure_eq_ok] at h
    rw [← h] at hlevel
    cases hlevel
  | cons name outer ih =>
    obtain ⟨hname, houter⟩ := List.nodup_cons.mp hnames
    simp only [projections, Attempt.bind_eq_ok, Attempt.pure_eq_ok] at h
    obtain ⟨projected, hprojected, earlier, hearlier, rfl⟩ := h
    rcases List.mem_append.mp hlevel with hlevel | hlevel
    · obtain ⟨r', hr', hsame, hoff⟩ := ih houter hearlier hlevel
      obtain ⟨t, ht⟩ := Constraint.exists_holdsWeighted_of_eliminate le_rfl hprojected hr'
      have hne : level.1 ≠ name := by
        have hmem := List.mem_map_of_mem (f := Prod.fst) hlevel
        rw [(projections_spec hearlier).1, List.mem_reverse] at hmem
        exact fun he => hname (he ▸ hmem)
      refine ⟨Function.update r' name t, ht, ?_, fun v hv => ?_⟩
      · rw [Function.update_of_ne hne, hsame]
      · rw [List.mem_cons, not_or] at hv
        rw [Function.update_of_ne hv.1, hoff v hv.2]
    · rw [List.mem_singleton] at hlevel
      subst hlevel
      exact ⟨r, hr, rfl, fun _ _ => rfl⟩

/-- In a polyhedron with points, but finitely many, each level bounds its dimension on both
sides. -/
theorem exists_not_recedes (hdims : s.dims.Nodup)
    (hlevels : projections s.constraints s.dims.reverse = .ok levels) {env : String → Int}
    (hfinite : (s.pointsAt env).Finite) (hpoint : (s.pointsAt env).Nonempty)
    {level : String × List Constraint} (hlevel : level ∈ levels) {t : Rat} (ht : t ≠ 0) :
    ∃ c ∈ level.2, ¬c.Recedes (Function.update 0 level.1 t) := by
  by_contra hnone
  push Not at hnone
  obtain ⟨x, hx⟩ := hpoint
  obtain ⟨r, hr, hsame, hoff⟩ :=
    exists_recedes_of_projections (List.nodup_reverse.mpr hdims) hlevels hlevel hnone
  have hdim : level.1 ∈ s.dims := by
    have hmem := List.mem_map_of_mem (f := Prod.fst) hlevel
    rwa [(projections_spec hlevels).1, List.reverse_reverse] at hmem
  have houtside : ∀ v, v ∉ s.dims → r v = 0 := by
    intro v hv
    have hne : v ≠ level.1 := fun he => hv (he ▸ hdim)
    rw [hoff v (by rwa [List.mem_reverse]), Function.update_of_ne hne, Pi.zero_apply]
  have hmove : r level.1 ≠ 0 := by
    rw [hsame, Function.update_self]
    exact ht
  exact infinite_of_recedes hr houtside hmove hx hfinite

/-! ## Levels -/

/-- The constraints of each level mention no later dimension. -/
private theorem ordered_projections {constraints : List Constraint} {names : List String}
    (hnames : names.Nodup) (h : projections constraints names = .ok levels)
    (hvars : ∀ c ∈ constraints, ∀ v, c.form.coeff v ≠ 0 → v ∈ names) :
    (∀ level ∈ levels, ∀ c ∈ level.2, ∀ v, c.form.coeff v ≠ 0 → v ∈ names) ∧
      levels.Pairwise fun earlier later => ∀ c ∈ earlier.2, c.form.coeff later.1 = 0 := by
  induction names generalizing constraints levels with
  | nil =>
    rw [projections, Attempt.pure_eq_ok] at h
    rw [← h]
    simp
  | cons name outer ih =>
    obtain ⟨hname, houter⟩ := List.nodup_cons.mp hnames
    simp only [projections, Attempt.bind_eq_ok, Attempt.pure_eq_ok] at h
    obtain ⟨projected, hprojected, earlier, hearlier, rfl⟩ := h
    have hprojectedVars : ∀ c ∈ projected, ∀ v, c.form.coeff v ≠ 0 → v ∈ outer := by
      intro c hc v hv
      have hmem : v ∈ name :: outer := by
        by_contra hnot
        exact hv (Constraint.coeff_eliminate_of_forall hprojected
          (fun d hd => not_not.mp fun hne => hnot (hvars d hd v hne)) c hc)
      refine (List.mem_cons.mp hmem).resolve_left ?_
      rintro rfl
      exact hv (Constraint.coeff_eliminate hprojected c hc)
    obtain ⟨hall, hpairs⟩ := ih houter hearlier hprojectedVars
    constructor
    · intro level hlevel c hc v hv
      rcases List.mem_append.mp hlevel with hlevel | hlevel
      · exact List.mem_cons_of_mem _ (hall level hlevel c hc v hv)
      · rw [List.mem_singleton.mp hlevel] at hc
        exact hvars c hc v hv
    · rw [List.pairwise_append]
      refine ⟨hpairs, List.pairwise_singleton _ _, fun level hlevel last hlast c hc => ?_⟩
      rw [List.mem_singleton.mp hlast]
      exact not_not.mp fun hne => hname (hall level hlevel c hc name hne)

/-- Elimination at all levels stores no zeros. -/
private theorem proper_projections {constraints : List Constraint} {names : List String}
    (h : projections constraints names = .ok levels)
    (hproper : ∀ c ∈ constraints, c.form.Proper) :
    ∀ level ∈ levels, ∀ c ∈ level.2, c.form.Proper := by
  induction names generalizing constraints levels with
  | nil =>
    rw [projections, Attempt.pure_eq_ok] at h
    rw [← h]
    simp
  | cons name outer ih =>
    simp only [projections, Attempt.bind_eq_ok, Attempt.pure_eq_ok] at h
    obtain ⟨projected, hprojected, earlier, hearlier, rfl⟩ := h
    intro level hlevel
    rcases List.mem_append.mp hlevel with hlevel | hlevel
    · exact ih hearlier (Constraint.proper_eliminate hprojected hproper) level hlevel
    · rw [List.mem_singleton.mp hlevel]
      exact hproper

/-- Whether each level, once its turn comes, has bounds on both sides that can be evaluated. -/
structure Bounding (point : Point) (levels : List (String × List Constraint)) : Prop where
  known : ∀ level ∈ levels, ∀ c ∈ level.2, ∀ v ∈ c.form.vars,
    v ∈ levels.map Prod.fst ∨ (point.get? v).isSome = true
  ordered : levels.Pairwise fun earlier later => ∀ c ∈ earlier.2, later.1 ∉ c.form.vars
  bounded : ∀ level ∈ levels, ∀ t : Rat, t ≠ 0 →
    ∃ c ∈ level.2, ¬c.Recedes (Function.update 0 level.1 t)

/-- A value for the first dimension leaves the later levels bounding. -/
private theorem Bounding.insert {point : Point} {onName : List Constraint}
    (h : Bounding point ((name, onName) :: levels)) (n : Int) :
    Bounding (point.insert name n) levels where
  known level hlevel := decided_insert (h.known level (List.mem_cons_of_mem _ hlevel))
  ordered := (List.pairwise_cons.mp h.ordered).2
  bounded level hlevel := h.bounded level (List.mem_cons_of_mem _ hlevel)

/-- The variables of the first level other than its dimension have values. -/
private theorem Bounding.isSome {point : Point} {onName : List Constraint}
    (h : Bounding point ((name, onName) :: levels)) :
    ∀ c ∈ onName, ∀ v ∈ (c.form.without name).vars, (point.get? v).isSome = true := by
  intro c hc v hv
  rw [Affine.vars, SortedMap.mem_keys, Affine.without, SortedMap.contains_erase, Bool.and_eq_true,
    bne_iff_ne] at hv
  have hvars : v ∈ c.form.vars := by
    rw [Affine.vars, SortedMap.mem_keys]
    exact hv.2
  refine (h.known (name, onName) List.mem_cons_self c hc v hvars).resolve_left fun hmem => ?_
  rcases List.mem_cons.mp hmem with hname | hmem
  · exact hv.1 hname
  · obtain ⟨later, hlater, rfl⟩ := List.mem_map.mp hmem
    exact (List.pairwise_cons.mp h.ordered).1 later hlater c hc hvars

section Ranges

variable {point : Point} {range r : Range}

/-- A constraint that bounds a dimension from below gives its range a lower end, and one that bounds
it from above an upper end. -/
private theorem Narrowing.ends {c : Constraint} {next : Range}
    (hvalues : ∀ v ∈ (c.form.without name).vars, (point.get? v).isSome = true)
    (h : Narrowing name point range c (some next)) :
    (range.lo.isSome = true ∨ ¬c.Recedes (Function.update 0 name (-1)) → next.lo.isSome = true) ∧
      (range.hi.isSome = true ∨ ¬c.Recedes (Function.update 0 name 1) → next.hi.isSome = true) := by
  simp only [Constraint.recedes_update_zero, mul_neg, mul_one]
  cases h with
  | absent hcoeff =>
    have hfree : c.relation.HoldsRat 0 := by
      cases c.relation
      · exact le_rfl
      · rfl
    rw [hcoeff, Int.cast_zero, neg_zero]
    exact ⟨fun hlo => hlo.resolve_right (not_not.mpr hfree),
      fun hhi => hhi.resolve_right (not_not.mpr hfree)⟩
  | unknown hvalue => simpa using Affine.eval_isSome hvalues hvalue
  | below n _ hrelation hcoeff =>
    rw [hrelation]
    refine ⟨fun _ => rfl, fun hhi => hhi.resolve_right (not_not.mpr ?_)⟩
    exact (Int.cast_pos.mpr hcoeff).le
  | above n _ hrelation hcoeff =>
    rw [hrelation]
    refine ⟨fun hlo => hlo.resolve_right (not_not.mpr ?_), fun _ => rfl⟩
    exact neg_nonneg.mpr (Int.cast_nonpos.mpr hcoeff.le)
  | solved => exact ⟨fun _ => rfl, fun _ => rfl⟩

/-- Where constraints bound a dimension on both sides, its range has both ends. -/
private theorem ends_of_rangeOf {constraints : List Constraint}
    (hvalues : ∀ c ∈ constraints, ∀ v ∈ (c.form.without name).vars, (point.get? v).isSome = true)
    (h : rangeOf name point range constraints = .ok (some r)) :
    (range.lo.isSome = true ∨ (∃ c ∈ constraints, ¬c.Recedes (Function.update 0 name (-1))) →
      r.lo.isSome = true) ∧
    (range.hi.isSome = true ∨ (∃ c ∈ constraints, ¬c.Recedes (Function.update 0 name 1)) →
      r.hi.isSome = true) := by
  induction constraints generalizing range with
  | nil =>
    rw [rangeOf, Attempt.pure_eq_ok, Option.some.injEq] at h
    subst h
    simp
  | cons c rest ih =>
    rw [List.forall_mem_cons] at hvalues
    rcases rangeOf_cons_cases h with ⟨-, hnone⟩ | ⟨next, hnarrow, hnext⟩
    · cases hnone
    · obtain ⟨hlo, hhi⟩ := hnarrow.ends hvalues.1
      obtain ⟨ihlo, ihhi⟩ := ih hvalues.2 hnext
      simp only [List.mem_cons, exists_eq_or_imp, ← or_assoc]
      exact ⟨fun h => ihlo (h.imp_left hlo), fun h => ihhi (h.imp_left hhi)⟩

end Ranges

/-! ## Listing -/

section Listing

variable {given : String → Option Int}

private theorem causeless_fixParams {names : List String} {c : Constraint}
    (h : ∀ v ∈ names, v ∈ s.dims ∨ (given v).isSome = true) :
    (fixParams s given names c).Causeless := by
  induction names generalizing c with
  | nil => exact Attempt.causeless_pure c
  | cons v rest ih =>
    rw [List.forall_mem_cons] at h
    unfold fixParams
    split
    · exact ih h.2
    · next hdim =>
      rw [hasDim_iff] at hdim
      obtain ⟨n, hn⟩ := Option.isSome_iff_exists.mp (h.1.resolve_left hdim)
      simp only [hn]
      exact (Attempt.causeless_liftM _).bind fun d _ => ih h.2

private theorem causeless_forConsecutive {α : Type}
    {action : Int → Attempt PolyhedronError (List α)} (h : ∀ n, (action n).Causeless)
    {count : Nat} {first : Int} : (forConsecutive action count first).Causeless := by
  induction count generalizing first with
  | zero => exact Attempt.causeless_pure []
  | succ count ih => exact (h first).bind fun _ _ => ih.bind fun _ _ => Attempt.causeless_pure _

/-- Levels that bound their dimensions leave no range open. -/
private theorem causeless_extendPoint {constraints : List Constraint} {point : Point}
    (h : Bounding point levels) : (extendPoint constraints levels point).Causeless := by
  induction levels generalizing point with
  | nil => exact (Attempt.causeless_liftM _).bind fun _ _ => Attempt.causeless_pure _
  | cons level rest ih =>
    obtain ⟨name, onName⟩ := level
    refine (Attempt.causeless_liftM _).bind fun range hrange => ?_
    rw [Attempt.liftM_eq_ok] at hrange
    split
    · exact Attempt.causeless_pure _
    · exact causeless_forConsecutive fun n => ih (h.insert n)
    · next r hopen =>
      have hbounded := h.bounded (name, onName) List.mem_cons_self
      obtain ⟨hlo, hhi⟩ := ends_of_rangeOf h.isSome hrange
      obtain ⟨lo, hlo⟩ := Option.isSome_iff_exists.mp
        (hlo (.inr (hbounded (-1) (neg_ne_zero.mpr one_ne_zero))))
      obtain ⟨hi, hhi⟩ := Option.isSome_iff_exists.mp (hhi (.inr (hbounded 1 one_ne_zero)))
      have hends : r = ⟨some lo, some hi⟩ := by rw [← hlo, ← hhi]
      exact absurd hends (hopen lo hi)

/-- Where all parameters have values and there are points, but finitely many, they are listed unless
the listing overflows. -/
theorem causeless_enumeratePoints (hdims : s.dims.Nodup)
    (hproper : ∀ c ∈ s.constraints, c.form.Proper)
    (hvalues : ∀ c ∈ s.constraints, ∀ v ∈ c.form.vars, v ∈ s.dims ∨ (given v).isSome = true)
    {env : String → Int} (henv : ∀ v n, v ∉ s.dims → given v = some n → env v = n)
    (hfinite : (s.pointsAt env).Finite) (hpoint : (s.pointsAt env).Nonempty) :
    (s.enumeratePoints given).Causeless := by
  have hfix : (s.atParams given).Causeless := by
    refine Attempt.Causeless.foldlM fun out c hc => ?_
    exact (causeless_fixParams (hvalues c hc)).bind fun d _ => Attempt.causeless_liftM _
  refine hfix.bind fun fixed hfixed => (Attempt.causeless_liftM _).bind fun found _ => ?_
  split
  · exact Attempt.causeless_pure _
  · refine (Attempt.causeless_liftM _).bind fun levels hlevels => ?_
    rw [Attempt.liftM_eq_ok] at hlevels
    have hvars := vars_atParams hproper hfixed
    have hproper := proper_atParams hproper hfixed
    -- With the parameters fixed, the constraints still have the same points.
    have hsame : (⟨s.dims, fixed.constraints⟩ : Polyhedron).pointsAt env = s.pointsAt env := by
      ext x
      refine and_congr_right fun hx => ?_
      have hholds : fixed.Holds x ↔ s.Holds x :=
        atParams_holds (fun v n hv hn => (hx v hv).trans (henv v n hv hn)) hfixed
      exact hholds
    rw [← hsame] at hfinite hpoint
    have hnames := (projections_spec hlevels).1
    rw [List.reverse_reverse] at hnames
    have hlevelsProper := proper_projections hlevels hproper
    have hdimsOf : ∀ c ∈ fixed.constraints, ∀ v, c.form.coeff v ≠ 0 → v ∈ s.dims.reverse := by
      intro c hc v hv
      exact List.mem_reverse.mpr (hvars c hc v ((Affine.mem_vars_iff (hproper c hc)).mpr hv))
    obtain ⟨hmem, hordered⟩ :=
      ordered_projections (List.nodup_reverse.mpr hdims) hlevels hdimsOf
    refine causeless_extendPoint ⟨fun level hlevel c hc v hv => .inl ?_, ?_,
      fun level hlevel t ht => @exists_not_recedes ⟨s.dims, fixed.constraints⟩ _ hdims hlevels env
        hfinite hpoint level hlevel t ht⟩
    · rw [hnames, ← List.mem_reverse]
      exact hmem level hlevel c hc v ((Affine.mem_vars_iff (hlevelsProper level hlevel c hc)).mp hv)
    · refine hordered.imp_of_mem fun hearlier _ h c hc hv => ?_
      exact (Affine.mem_vars_iff (hlevelsProper _ hearlier c hc)).mp hv (h c hc)

end Listing

end Polyhedron

end LoopKernel
