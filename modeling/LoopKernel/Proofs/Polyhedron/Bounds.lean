import LoopKernel.Polyhedron.Bounds
import LoopKernel.Proofs.Polyhedron.Basic
import Mathlib.Algebra.Order.Floor.Ring
import Mathlib.Data.Rat.Floor

/-!
# Bounds are exact

The bounds read off the constraints on a variable say the same about integer values of the variable
as the constraints, and rational values stay within them up to rounding.
-/

namespace LoopKernel

namespace DimBounds

variable {name : String}

/-- A lower bound is reached exactly by the integers that satisfy its constraint. -/
theorem lowerFrom_le_iff {a : Int} {rest l : Affine} (ha : 0 < a)
    (h : lowerFrom name a rest = .ok l) (x : String → Int) (n : Int) :
    l.value x ≤ n ↔ 0 ≤ a * n + rest.value x := by
  unfold lowerFrom at h
  split at h
  · next hone =>
    rw [Attempt.liftM_eq_ok] at h
    rw [Affine.value_neg x h, hone]
    omega
  · split at h
    · next hconstant =>
      simp only [Attempt.bind_eq_ok, Attempt.liftM_eq_ok, WordRange.check_eq_ok,
        Attempt.pure_eq_ok] at h
      obtain ⟨_, ⟨_, rfl⟩, rfl⟩ := h
      rw [Affine.value_const, Affine.value_of_isConstant x hconstant, ceilDiv, neg_neg]
      have hdiv := Int.le_ediv_iff_mul_le (a := -n) (b := rest.constant) ha
      constructor
      · intro hn
        have := hdiv.mp (by omega)
        linarith
      · intro hn
        have := hdiv.mpr (by linarith)
        omega
    · cases h

/-- An upper bound is exceeded exactly by the integers that violate its constraint. -/
theorem le_upperFrom_iff {b : Int} {rest u : Affine} (hb : 0 < b)
    (h : upperFrom name b rest = .ok u) (x : String → Int) (n : Int) :
    n ≤ u.value x ↔ 0 ≤ -b * n + rest.value x := by
  unfold upperFrom at h
  split at h
  · next hone =>
    rw [Attempt.pure_eq_ok] at h
    rw [← h, hone]
    omega
  · split at h
    · next hconstant =>
      rw [Attempt.pure_eq_ok] at h
      rw [← h, Affine.value_const, Affine.value_of_isConstant x hconstant,
        Int.le_ediv_iff_mul_le hb]
      constructor <;> intro hn <;> linarith
    · cases h

private theorem coeff_lowerFrom {a : Int} {rest l : Affine} (hrest : rest.coeff name = 0)
    (h : lowerFrom name a rest = .ok l) : l.coeff name = 0 := by
  unfold lowerFrom at h
  split at h
  · rw [Attempt.liftM_eq_ok] at h
    rw [Affine.coeff_neg h, hrest, neg_zero]
  · split at h
    · simp only [Attempt.bind_eq_ok, Attempt.pure_eq_ok] at h
      obtain ⟨_, _, rfl⟩ := h
      rfl
    · cases h

private theorem coeff_upperFrom {b : Int} {rest u : Affine} (hrest : rest.coeff name = 0)
    (h : upperFrom name b rest = .ok u) : u.coeff name = 0 := by
  unfold upperFrom at h
  split at h
  · rw [Attempt.pure_eq_ok] at h
    rw [← h, hrest]
  · split at h
    · rw [Attempt.pure_eq_ok] at h
      rw [← h]
      rfl
    · cases h

/-- What one constraint that mentions a variable adds to its bounds: a lower bound, an upper bound,
or for an equality, once its coefficient is positive, one of each. -/
theorem addFrom_cases {bounds next : DimBounds} {c : Constraint} (hc : c.involves name = true)
    (h : addFrom name bounds c = .ok next) :
    (c.relation = .inequality ∧ 0 < c.form.coeff name ∧
      ∃ l, lowerFrom name (c.form.coeff name) (c.form.without name) = .ok l ∧
        next = ⟨bounds.lower ++ [l], bounds.upper⟩) ∨
    (c.relation = .inequality ∧ c.form.coeff name < 0 ∧
      ∃ u, upperFrom name (-c.form.coeff name) (c.form.without name) = .ok u ∧
        next = ⟨bounds.lower, bounds.upper ++ [u]⟩) ∨
    (c.relation = .equality ∧ ∃ a rest negated l u, 0 < a ∧
      (a = c.form.coeff name ∧ rest = c.form.without name ∨
        a = -c.form.coeff name ∧ (c.form.without name).neg = .ok rest) ∧
      lowerFrom name a rest = .ok l ∧ rest.neg = .ok negated ∧ upperFrom name a negated = .ok u ∧
      next = ⟨bounds.lower ++ [l], bounds.upper ++ [u]⟩) := by
  rw [Constraint.involves_iff] at hc
  simp only [addFrom] at h
  cases hrelation : c.relation with
  | inequality =>
    simp only [hrelation] at h
    split at h
    · next hpos =>
      simp only [Attempt.bind_eq_ok, Attempt.pure_eq_ok] at h
      obtain ⟨l, hl, rfl⟩ := h
      exact .inl ⟨rfl, hpos, l, hl, rfl⟩
    · simp only [Attempt.bind_eq_ok, Attempt.liftM_eq_ok, WordRange.check_eq_ok,
        Attempt.pure_eq_ok] at h
      obtain ⟨_, ⟨_, rfl⟩, u, hu, rfl⟩ := h
      exact .inr (.inl ⟨rfl, by omega, u, hu, rfl⟩)
  | equality =>
    refine .inr (.inr ⟨rfl, ?_⟩)
    simp only [hrelation] at h
    split at h
    · simp only [Attempt.bind_eq_ok, Attempt.liftM_eq_ok, WordRange.check_eq_ok,
        Attempt.pure_eq_ok] at h
      obtain ⟨_, ⟨_, rfl⟩, rest, hrest, _, rfl, l, hl, negated, hn, u, hu, rfl⟩ := h
      exact ⟨_, rest, negated, l, u, by omega, .inr ⟨rfl, hrest⟩, hl, hn, hu, rfl⟩
    · simp only [Attempt.bind_eq_ok, Attempt.liftM_eq_ok, Attempt.pure_eq_ok] at h
      obtain ⟨_, rfl, l, hl, negated, hn, u, hu, rfl⟩ := h
      exact ⟨_, _, negated, l, u, by omega, .inl ⟨rfl, rfl⟩, hl, hn, hu, rfl⟩

/-- Bounds say the same about a variable as some constraints. -/
structure Describes (bounds : DimBounds) (name : String) (constraints : List Constraint) :
    Prop where
  exact : ∀ x (n : Int), (∀ c ∈ constraints, c.HoldsAt x name n) ↔
    (∀ l ∈ bounds.lower, l.value x ≤ n) ∧ ∀ u ∈ bounds.upper, n ≤ u.value x
  rounds : ∀ x (t : Rat), (∀ c ∈ constraints, c.HoldsAt x name t) →
    (∀ l ∈ bounds.lower, l.value x ≤ ⌈t⌉) ∧ ∀ u ∈ bounds.upper, ⌊t⌋ ≤ u.value x
  free : ∀ f, f ∈ bounds.lower ∨ f ∈ bounds.upper → f.coeff name = 0

namespace Describes

/-- Bounds that describe constraints describe them together. -/
theorem append {a b : DimBounds} {cs ds : List Constraint} (ha : a.Describes name cs)
    (hb : b.Describes name ds) :
    (⟨a.lower ++ b.lower, a.upper ++ b.upper⟩ : DimBounds).Describes name (cs ++ ds) where
  exact x n := by
    simp only [List.mem_append, or_imp, forall_and]
    rw [ha.exact, hb.exact]
    tauto
  rounds x t h := by
    simp only [List.mem_append, or_imp, forall_and] at h ⊢
    obtain ⟨hal, hau⟩ := ha.rounds x t h.1
    obtain ⟨hbl, hbu⟩ := hb.rounds x t h.2
    exact ⟨⟨hal, hbl⟩, hau, hbu⟩
  free f hf := by
    simp only [List.mem_append] at hf
    rcases hf with (hf | hf) | hf | hf
    · exact ha.free f (.inl hf)
    · exact hb.free f (.inl hf)
    · exact ha.free f (.inr hf)
    · exact hb.free f (.inr hf)

/-- A lower bound describes an inequality with a positive coefficient. -/
private theorem of_lower {c : Constraint} {l : Affine} (hrelation : c.relation = .inequality)
    (ha : 0 < c.form.coeff name)
    (h : lowerFrom name (c.form.coeff name) (c.form.without name) = .ok l) :
    (⟨[l], []⟩ : DimBounds).Describes name [c] := by
  have hle := lowerFrom_le_iff ha h
  refine ⟨fun x n => ?_, fun x t ht => ?_, fun f hf => ?_⟩
  · simp only [List.mem_singleton, forall_eq, List.not_mem_nil, false_imp_iff, implies_true,
      and_true, Constraint.HoldsAt, hrelation, Relation.HoldsRat, hle]
    exact_mod_cast Iff.rfl
  · simp only [List.mem_singleton, forall_eq, List.not_mem_nil, false_imp_iff, implies_true,
      and_true, Constraint.HoldsAt, hrelation, Relation.HoldsRat, hle] at ht ⊢
    have ha' : (0 : Rat) < c.form.coeff name := by exact_mod_cast ha
    have hceil := Int.le_ceil t
    have : (0 : Rat) ≤ c.form.coeff name * ⌈t⌉ + (c.form.without name).value x := by nlinarith
    exact_mod_cast this
  · simp only [List.mem_singleton, List.not_mem_nil, or_false] at hf
    rw [hf]
    exact coeff_lowerFrom (Affine.coeff_without _ _) h

/-- An upper bound describes an inequality with a negative coefficient. -/
private theorem of_upper {c : Constraint} {u : Affine} (hrelation : c.relation = .inequality)
    (ha : c.form.coeff name < 0)
    (h : upperFrom name (-c.form.coeff name) (c.form.without name) = .ok u) :
    (⟨[], [u]⟩ : DimBounds).Describes name [c] := by
  have hle := le_upperFrom_iff (by omega) h
  refine ⟨fun x n => ?_, fun x t ht => ?_, fun f hf => ?_⟩
  · simp only [List.mem_singleton, forall_eq, List.not_mem_nil, false_imp_iff, implies_true,
      true_and, Constraint.HoldsAt, hrelation, Relation.HoldsRat, hle, neg_neg]
    exact_mod_cast Iff.rfl
  · simp only [List.mem_singleton, forall_eq, List.not_mem_nil, false_imp_iff, implies_true,
      true_and, Constraint.HoldsAt, hrelation, Relation.HoldsRat, hle, neg_neg] at ht ⊢
    have ha' : (c.form.coeff name : Rat) < 0 := by exact_mod_cast ha
    have hfloor := Int.floor_le t
    have : (0 : Rat) ≤ c.form.coeff name * ⌊t⌋ + (c.form.without name).value x := by nlinarith
    exact_mod_cast this
  · simp only [List.mem_singleton, List.not_mem_nil, false_or] at hf
    rw [hf]
    exact coeff_upperFrom (Affine.coeff_without _ _) h

/-- A lower and an upper bound describe an equality. -/
private theorem of_equality {c : Constraint} {a : Int} {rest negated l u : Affine} (ha : 0 < a)
    (hc : ∀ x (t : Rat), c.HoldsAt x name t ↔ a * t + rest.value x = 0)
    (hrest : rest.coeff name = 0) (hl : lowerFrom name a rest = .ok l)
    (hn : rest.neg = .ok negated) (hu : upperFrom name a negated = .ok u) :
    (⟨[l], [u]⟩ : DimBounds).Describes name [c] := by
  have hlower := lowerFrom_le_iff ha hl
  have hupper : ∀ x (n : Int), n ≤ u.value x ↔ 0 ≤ -(a * n + rest.value x) := by
    intro x n
    rw [le_upperFrom_iff ha hu, Affine.value_neg x hn]
    constructor <;> intro h <;> linarith
  refine ⟨fun x n => ?_, fun x t ht => ?_, fun f hf => ?_⟩
  · simp only [List.mem_singleton, forall_eq, hc, hlower, hupper]
    rw [Int.neg_nonneg, ← le_antisymm_iff, eq_comm]
    exact_mod_cast Iff.rfl
  · simp only [List.mem_singleton, forall_eq, hc, hlower, hupper] at ht ⊢
    have ha' : (0 : Rat) < a := by exact_mod_cast ha
    have hceil := Int.le_ceil t
    have hfloor := Int.floor_le t
    have hup : (0 : Rat) ≤ a * ⌈t⌉ + rest.value x := by nlinarith
    have hdown : (a * ⌊t⌋ + rest.value x : Rat) ≤ 0 := by nlinarith
    refine ⟨by exact_mod_cast hup, ?_⟩
    rw [Int.neg_nonneg]
    exact_mod_cast hdown
  · simp only [List.mem_singleton] at hf
    rcases hf with rfl | rfl
    · exact coeff_lowerFrom hrest hl
    · exact coeff_upperFrom (by rw [Affine.coeff_neg hn, hrest, neg_zero]) hu

/-- The bounds of one constraint describe it. -/
theorem of_addFrom {bounds bounds' : DimBounds} {c : Constraint} (hc : c.involves name = true)
    (h : addFrom name bounds c = .ok bounds') :
    ∃ own : DimBounds, own.Describes name [c] ∧
      bounds' = ⟨bounds.lower ++ own.lower, bounds.upper ++ own.upper⟩ := by
  rcases addFrom_cases hc h with ⟨hrelation, ha, l, hl, rfl⟩ | ⟨hrelation, ha, u, hu, rfl⟩ |
    ⟨hrelation, a, rest, negated, l, u, ha, hsign, hl, hn, hu, rfl⟩
  · exact ⟨_, of_lower hrelation ha hl, by simp⟩
  · exact ⟨_, of_upper hrelation ha hu, by simp⟩
  · have hfree := Affine.coeff_without c.form name
    refine ⟨_, of_equality ha (fun x t => ?_) ?_ hl hn hu, rfl⟩
    · rw [Constraint.HoldsAt, hrelation, Relation.HoldsRat]
      obtain ⟨rfl, rfl⟩ | ⟨rfl, hrest⟩ := hsign
      · rfl
      · rw [Affine.value_neg x hrest]
        push_cast
        constructor <;> intro h <;> linarith
    · obtain ⟨-, rfl⟩ | ⟨-, hrest⟩ := hsign
      · exact hfree
      · rw [Affine.coeff_neg hrest, hfree, neg_zero]

end Describes

/-! ## Forms of bounds -/

section Forms

variable {P : Affine → Prop} (hconst : ∀ n, P (.const n))
  (hneg : ∀ f g, P f → f.neg = .ok g → P g)

include hconst hneg

private theorem form_of_lowerFrom {a : Int} {rest l : Affine} (hrest : P rest)
    (h : lowerFrom name a rest = .ok l) : P l := by
  unfold lowerFrom at h
  split at h
  · rw [Attempt.liftM_eq_ok] at h
    exact hneg rest l hrest h
  · split at h
    · simp only [Attempt.bind_eq_ok, Attempt.pure_eq_ok] at h
      obtain ⟨_, -, rfl⟩ := h
      exact hconst _
    · cases h

omit hneg in
private theorem form_of_upperFrom {b : Int} {rest u : Affine} (hrest : P rest)
    (h : upperFrom name b rest = .ok u) : P u := by
  unfold upperFrom at h
  split at h
  · rw [Attempt.pure_eq_ok] at h
    exact h ▸ hrest
  · split at h
    · rw [Attempt.pure_eq_ok] at h
      exact h ▸ hconst _
    · cases h

/-- A property of forms that constants have and negations keep is one of the bounds on a variable
when the rest of the constraint has it. -/
private theorem forms_of_addFrom {bounds bounds' : DimBounds} {c : Constraint}
    (hinvolves : c.involves name = true) (hc : P (c.form.without name))
    (hbounds : ∀ f, f ∈ bounds.lower ∨ f ∈ bounds.upper → P f)
    (h : addFrom name bounds c = .ok bounds') :
    ∀ f, f ∈ bounds'.lower ∨ f ∈ bounds'.upper → P f := by
  rcases addFrom_cases hinvolves h with ⟨-, -, l, hl, rfl⟩ | ⟨-, -, u, hu, rfl⟩ |
    ⟨-, a, rest, negated, l, u, -, hsign, hl, hn, hu, rfl⟩ <;>
    simp only [List.mem_append, List.mem_singleton]
  · rintro f ((hf | rfl) | hf)
    · exact hbounds f (.inl hf)
    · exact form_of_lowerFrom hconst hneg hc hl
    · exact hbounds f (.inr hf)
  · rintro f (hf | hf | rfl)
    · exact hbounds f (.inl hf)
    · exact hbounds f (.inr hf)
    · exact form_of_upperFrom hconst hc hu
  · have hrest : P rest := by
      obtain ⟨-, rfl⟩ | ⟨-, hrest⟩ := hsign
      · exact hc
      · exact hneg _ _ hc hrest
    rintro f ((hf | rfl) | hf | rfl)
    · exact hbounds f (.inl hf)
    · exact form_of_lowerFrom hconst hneg hrest hl
    · exact hbounds f (.inr hf)
    · exact form_of_upperFrom hconst (hneg _ _ hrest hn) hu

end Forms

end DimBounds

namespace Polyhedron

/-- A dimension has the bounds that the constraints on it add one after the other. -/
theorem dimBounds_eq_ok_iff {s : Polyhedron} {name : String} {bounds : DimBounds} :
    s.dimBounds name = .ok bounds ↔ name ∈ s.dims ∧
      (s.constraints.filter fun c => c.involves name).foldlM (DimBounds.addFrom name) ⟨[], []⟩ =
        .ok bounds := by
  rw [dimBounds, ← hasDim_iff]
  cases s.hasDim name <;> simp

/-- The bounds of a dimension describe the constraints that mention it. -/
theorem dimBounds_describes {s : Polyhedron} {name : String} {bounds : DimBounds}
    (h : s.dimBounds name = .ok bounds) :
    bounds.Describes name (s.constraints.filter fun c => c.involves name) := by
  obtain ⟨-, h⟩ := dimBounds_eq_ok_iff.mp h
  apply Attempt.foldlM_induction (P := fun done bounds => bounds.Describes name done) _ _ h
  · exact ⟨by simp, by simp, by simp⟩
  · intro done bounds c next hc hdone hnext
    obtain ⟨own, hown, rfl⟩ := DimBounds.Describes.of_addFrom (List.mem_filter.mp hc).2 hnext
    exact hdone.append hown

/-- A property of forms that constants have and negations keep is one of all bounds of a dimension
when the constraints have it apart from the dimension. -/
theorem forms_of_dimBounds {P : Affine → Prop} (hconst : ∀ n, P (.const n))
    (hneg : ∀ f g, P f → f.neg = .ok g → P g) {s : Polyhedron} {name : String}
    {bounds : DimBounds} (hs : ∀ c ∈ s.constraints, P (c.form.without name))
    (h : s.dimBounds name = .ok bounds) : ∀ f, f ∈ bounds.lower ∨ f ∈ bounds.upper → P f := by
  obtain ⟨-, h⟩ := dimBounds_eq_ok_iff.mp h
  apply Attempt.foldlM_induction (P := fun _ (bounds : DimBounds) =>
    ∀ f, f ∈ bounds.lower ∨ f ∈ bounds.upper → P f) _ _ h
  · simp
  · intro _ bounds c next hc hbounds hnext
    obtain ⟨hmem, hinvolves⟩ := List.mem_filter.mp hc
    exact DimBounds.forms_of_addFrom hconst hneg hinvolves (hs c hmem) hbounds hnext

/-- The constants among lower bounds are lower bounds. -/
private theorem le_of_max?_constants {forms : List Affine} {x : String → Int} {n lo : Int}
    (h : ∀ l ∈ forms, l.value x ≤ n) (hlo : (constants forms).max? = some lo) : lo ≤ n := by
  obtain ⟨l, hl, rfl⟩ := List.mem_map.mp (List.max?_mem hlo)
  obtain ⟨hmem, hconstant⟩ := List.mem_filter.mp hl
  exact Affine.value_of_isConstant x hconstant ▸ h l hmem

/-- The constants among upper bounds are upper bounds. -/
private theorem le_of_min?_constants {forms : List Affine} {x : String → Int} {n hi : Int}
    (h : ∀ u ∈ forms, n ≤ u.value x) (hhi : (constants forms).min? = some hi) : n ≤ hi := by
  obtain ⟨u, hu, rfl⟩ := List.mem_map.mp (List.min?_mem hhi)
  obtain ⟨hmem, hconstant⟩ := List.mem_filter.mp hu
  exact Affine.value_of_isConstant x hconstant ▸ h u hmem

/-- A static size is what lies between a greatest constant lower bound and a least constant upper
bound of what remains when the other variables are projected out. -/
theorem exists_of_staticSize {s : Polyhedron} {name : String} {size : Int}
    (h : s.staticSize name = .ok size) :
    ∃ projected bounds lo hi,
      s.eliminate (s.allVariables.filter fun v => v != name) = .ok projected ∧
      projected.dimBounds name = .ok bounds ∧ (constants bounds.lower).max? = some lo ∧
      (constants bounds.upper).min? = some hi ∧ size = max (hi - lo + 1) 0 := by
  unfold staticSize at h
  split at h
  · simp at h
  · simp only [Attempt.bind_eq_ok, Attempt.liftM_eq_ok] at h
    obtain ⟨projected, hprojected, bounds, hbounds, h⟩ := h
    split at h
    · next lo hi hlo hhi =>
      simp only [Attempt.bind_eq_ok, WordRange.check_eq_ok, Attempt.liftM_eq_ok,
        Attempt.pure_eq_ok] at h
      obtain ⟨_, ⟨-, rfl⟩, _, ⟨-, rfl⟩, rfl⟩ := h
      exact ⟨projected, bounds, lo, hi, hprojected, hbounds, hlo, hhi, rfl⟩
    · simp at h

/-- Two points are less than the size of a dimension apart in it, also for different values of the
parameters. -/
theorem sub_lt_of_staticSize {s : Polyhedron} {name : String} {size : Int}
    (h : s.staticSize name = .ok size) {x y : String → Int} (hx : s.Holds x) (hy : s.Holds y) :
    x name - y name < size := by
  obtain ⟨projected, bounds, lo, hi, hprojected, hbounds, hlo, hhi, rfl⟩ := exists_of_staticSize h
  have hwithin : ∀ z, s.Holds z →
      (∀ l ∈ bounds.lower, l.value z ≤ z name) ∧ ∀ u ∈ bounds.upper, z name ≤ u.value z := by
    intro z hz
    refine ((dimBounds_describes hbounds).exact z (z name)).mp fun c hc => ?_
    rw [Constraint.holdsAt_self]
    exact eliminate_holds_of_holds hprojected hz c (List.mem_filter.mp hc).1
  have hupper := le_of_min?_constants (hwithin x hx).2 hhi
  have hlower := le_of_max?_constants (hwithin y hy).1 hlo
  omega

end Polyhedron

end LoopKernel
