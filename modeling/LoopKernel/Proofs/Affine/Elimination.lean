import LoopKernel.Affine.Elimination
import LoopKernel.Proofs.Affine.Constraint
import Mathlib.Algebra.Order.Field.Basic
import Mathlib.Algebra.Order.Field.Rat
import Mathlib.Algebra.Order.Ring.Cast
import Mathlib.Data.List.GetD
import Mathlib.Tactic.FieldSimp
import Mathlib.Tactic.Linarith
import Mathlib.Tactic.LinearCombination

/-!
# Elimination is projection

What remains after a variable is eliminated holds wherever the variable can take an integer value,
and only where it can take a rational one.
-/

namespace LoopKernel

/-- Whether a rational number is as required. -/
def Relation.HoldsRat : Relation → Rat → Prop
  | .inequality, r => 0 ≤ r
  | .equality, r => r = 0

namespace Constraint

variable {x : String → Int} {name : String}

/-- Whether an assignment satisfies a constraint when one variable has a rational value instead. -/
def HoldsAt (x : String → Int) (name : String) (t : Rat) (c : Constraint) : Prop :=
  c.relation.HoldsRat (c.form.coeff name * t + (c.form.without name).value x)

/-- An integer value of the variable is a rational one. -/
theorem holdsAt_intCast {c : Constraint} (n : Int) :
    c.HoldsAt x name n ↔ c.Holds (Function.update x name n) := by
  have hvalue := Affine.value_without (Function.update x name n) c.form name
  rw [Function.update_self, Affine.value_without_update] at hvalue
  unfold HoldsAt Holds
  rw [hvalue]
  cases c.relation with
  | inequality =>
    simp only [Relation.HoldsRat, Relation.Holds]
    exact_mod_cast Iff.rfl
  | equality =>
    simp only [Relation.HoldsRat, Relation.Holds]
    exact_mod_cast Iff.rfl

/-- An assignment satisfies a constraint with the value that it gives the variable. -/
theorem holdsAt_self {c : Constraint} : c.HoldsAt x name (x name) ↔ c.Holds x := by
  rw [holdsAt_intCast, Function.update_eq_self]

/-- A constraint without the variable holds for any value of it. -/
theorem holdsAt_of_coeff_zero {c : Constraint} (h : c.form.coeff name = 0) (t : Rat) :
    c.HoldsAt x name t ↔ c.Holds x := by
  have hself := @holdsAt_self x name c
  unfold HoldsAt at hself ⊢
  rw [h, Int.cast_zero, zero_mul] at hself ⊢
  exact hself

/-! ## Lists of constraints -/

/-- Where constraints that always hold have a property, a list with one more constraint has it when
the list and the constraint do. -/
theorem forall_pushUnique {Q : Constraint → Prop} (hQ : ∀ c, c.isTautology = true → Q c)
    {out : List Constraint} {c : Constraint} :
    (∀ d ∈ pushUnique out c, Q d) ↔ (∀ d ∈ out, Q d) ∧ Q c := by
  unfold pushUnique
  split
  · next h =>
    rw [Bool.or_eq_true, List.contains_eq_mem, decide_eq_true_eq] at h
    rcases h with h | h
    · simp [hQ c h]
    · constructor
      · intro hall
        exact ⟨hall, hall c h⟩
      · exact fun hall => hall.1
  · simp only [List.mem_append, List.mem_singleton, or_imp, forall_and, forall_eq]

/-- A list with one more constraint holds where the list and the constraint do. -/
theorem holds_pushUnique {out : List Constraint} {c : Constraint} :
    (∀ d ∈ pushUnique out c, d.Holds x) ↔ (∀ d ∈ out, d.Holds x) ∧ c.Holds x :=
  forall_pushUnique fun _ => holds_of_isTautology

/-- A list with one more constraint has no others. -/
theorem mem_of_mem_pushUnique {out : List Constraint} {c d : Constraint}
    (h : d ∈ pushUnique out c) : d ∈ out ∨ d = c := by
  unfold pushUnique at h
  split at h
  · exact .inl h
  · rwa [List.mem_append, List.mem_singleton] at h

/-- Where constraints that always hold have a property, a list with several more constraints has it
when the list and all of them do. -/
theorem forall_foldl_pushUnique {Q : Constraint → Prop} (hQ : ∀ c, c.isTautology = true → Q c)
    {out l : List Constraint} :
    (∀ d ∈ l.foldl pushUnique out, Q d) ↔ (∀ d ∈ out, Q d) ∧ ∀ c ∈ l, Q c := by
  induction l generalizing out with
  | nil => simp
  | cons c rest ih =>
    rw [List.foldl_cons, ih, forall_pushUnique hQ, and_assoc]
    simp

/-- A list with several more constraints has no others. -/
theorem mem_of_mem_foldl_pushUnique {out l : List Constraint} {d : Constraint}
    (h : d ∈ l.foldl pushUnique out) : d ∈ out ∨ d ∈ l := by
  induction l generalizing out with
  | nil => exact .inl h
  | cons c rest ih =>
    rcases ih h with h | h
    · rcases mem_of_mem_pushUnique h with h | rfl
      · exact .inl h
      · exact .inr List.mem_cons_self
    · exact .inr (List.mem_cons_of_mem c h)

section Derived

variable {ι : Type} {derive : ι → Checked Constraint} {l : List ι} {start out : List Constraint}
  (h : l.foldlM (fun out i => do pure (pushUnique out (← derive i))) start = .ok out)

include h

/-- Where constraints that always hold have a property, a list with several derived constraints has
it when the list and all of them do. -/
theorem forall_derived {Q : Constraint → Prop} (hQ : ∀ c, c.isTautology = true → Q c)
    {P : ι → Prop} (hP : ∀ i ∈ l, ∀ d, derive i = .ok d → (Q d ↔ P i)) :
    (∀ d ∈ out, Q d) ↔ (∀ d ∈ start, Q d) ∧ ∀ i ∈ l, P i := by
  apply Attempt.foldlM_induction (P := fun done out =>
    (∀ d ∈ out, Q d) ↔ (∀ d ∈ start, Q d) ∧ ∀ i ∈ done, P i) _ _ h
  · simp
  · intro done out i next hi hdone hnext
    simp only [Attempt.bind_eq_ok, Attempt.pure_eq_ok] at hnext
    obtain ⟨d, hd, rfl⟩ := hnext
    rw [forall_pushUnique hQ, hdone, hP i hi d hd, and_assoc]
    simp only [List.mem_append, List.mem_singleton, or_imp, forall_and, forall_eq]

/-- A list with several derived constraints has no others. -/
theorem mem_of_mem_derived {d : Constraint} (hd : d ∈ out) :
    d ∈ start ∨ ∃ i ∈ l, derive i = .ok d := by
  revert hd
  apply Attempt.foldlM_induction (P := fun done out =>
    d ∈ out → d ∈ start ∨ ∃ i ∈ done, derive i = .ok d) _ _ h
  · exact .inl
  · intro done out i next hi hdone hnext hd
    simp only [Attempt.bind_eq_ok, Attempt.pure_eq_ok] at hnext
    obtain ⟨c, hc, rfl⟩ := hnext
    rcases mem_of_mem_pushUnique hd with hd | rfl
    · rcases hdone hd with hs | ⟨j, hj, hd⟩
      · exact .inl hs
      · exact .inr ⟨j, List.mem_append_left _ hj, hd⟩
    · exact .inr ⟨i, List.mem_append_right _ (List.mem_singleton_self i), hc⟩

end Derived

/-- The pairs of two lists. -/
theorem mem_boundPairs {lowers uppers : List Constraint} {p : Constraint × Constraint} :
    p ∈ boundPairs lowers uppers ↔ p.1 ∈ lowers ∧ p.2 ∈ uppers := by
  unfold boundPairs
  rw [List.mem_flatMap]
  constructor
  · rintro ⟨l, hl, hp⟩
    obtain ⟨u, hu, rfl⟩ := List.mem_map.mp hp
    exact ⟨hl, hu⟩
  · rintro ⟨hl, hu⟩
    exact ⟨p.1, hl, List.mem_map.mpr ⟨p.2, hu, rfl⟩⟩

/-! ## One derived constraint -/

/-- A pivot is an equality with a coefficient of the variable. -/
theorem isPivot_iff {c : Constraint} :
    isPivot name c = true ↔ c.relation = .equality ∧ c.form.coeff name ≠ 0 := by
  rw [isPivot, Bool.and_eq_true, beq_iff_eq, involves_iff]

/-- The form of a pivot is that of an equality or the negation of it, with a positive coefficient.
-/
theorem orientedPivot_cases {pivot : Constraint} {form : Affine} {a : Int}
    (hpivot : isPivot name pivot = true) (h : orientedPivot name pivot = .ok (form, a)) :
    pivot.relation = .equality ∧ 0 < a ∧ form.coeff name = a ∧
      (form = pivot.form ∨ pivot.form.neg = .ok form) := by
  obtain ⟨hequality, hne⟩ := isPivot_iff.mp hpivot
  unfold orientedPivot at h
  split at h
  · simp only [Attempt.bind_eq_ok, WordRange.check_eq_ok, Attempt.pure_eq_ok,
      Prod.mk.injEq] at h
    obtain ⟨negated, hneg, _, ⟨_, rfl⟩, rfl, rfl⟩ := h
    exact ⟨hequality, by omega, Affine.coeff_neg hneg name, .inr hneg⟩
  · rw [Attempt.pure_eq_ok, Prod.mk.injEq] at h
    obtain ⟨rfl, rfl⟩ := h
    exact ⟨hequality, by omega, rfl, .inl rfl⟩

/-- A constraint stays as it is when it does not mention the variable, and otherwise a multiple of
the pivot is taken from a multiple of it. -/
theorem cancel_cases {form : Affine} {a : Int} {c d : Constraint}
    (h : cancel name form a c = .ok d) :
    c.form.coeff name = 0 ∧ d = c ∨
      c.form.coeff name ≠ 0 ∧ ∃ scaled multiple difference, c.form.scale a = .ok scaled ∧
        form.scale (c.form.coeff name) = .ok multiple ∧ scaled.sub multiple = .ok difference ∧
        normalize ⟨c.relation, difference⟩ = .ok d := by
  simp only [cancel] at h
  split at h
  · next hzero => exact .inl ⟨hzero, (Attempt.pure_eq_ok.mp h).symm⟩
  · next hne =>
    simp only [Attempt.bind_eq_ok] at h
    obtain ⟨scaled, hscaled, multiple, hmultiple, difference, hdifference, h⟩ := h
    exact .inr ⟨hne, scaled, multiple, difference, hscaled, hmultiple, hdifference, h⟩

/-- What a lower and an upper bound add up to is the sum of a multiple of each. -/
theorem exists_of_combine {lower upper d : Constraint} (h : combine name lower upper = .ok d) :
    ∃ below above sum, lower.form.scale (-upper.form.coeff name) = .ok below ∧
      upper.form.scale (lower.form.coeff name) = .ok above ∧ below.add above = .ok sum ∧
      geZero sum = .ok d := by
  unfold combine at h
  simp only [Attempt.bind_eq_ok, WordRange.check_eq_ok] at h
  obtain ⟨_, ⟨_, rfl⟩, below, hbelow, above, habove, sum, hsum, h⟩ := h
  exact ⟨below, above, sum, hbelow, habove, hsum, h⟩

/-! ## Course of an elimination -/

/-- Lower bounds on a variable are added to upper ones. -/
theorem mem_boundPairs_filter {constraints : List Constraint} {p : Constraint × Constraint} :
    p ∈ boundPairs (constraints.filter fun c => 0 < c.form.coeff name)
        (constraints.filter fun c => c.form.coeff name < 0) ↔
      (p.1 ∈ constraints ∧ 0 < p.1.form.coeff name) ∧
        p.2 ∈ constraints ∧ p.2.form.coeff name < 0 := by
  simp only [mem_boundPairs, List.mem_filter, decide_eq_true_eq]

/-- Where no equality is found to solve for a variable, all that mention it are inequalities. -/
private theorem relation_of_no_pivot {constraints : List Constraint}
    (h : constraints.findIdx? (isPivot name) = none) :
    ∀ c ∈ constraints, c.form.coeff name ≠ 0 → c.relation = .inequality := by
  intro c hc hne
  have hnot := List.findIdx?_eq_none_iff.mp h c hc
  rw [← Bool.not_eq_true, isPivot_iff] at hnot
  cases hrel : c.relation with
  | inequality => rfl
  | equality => exact absurd ⟨hrel, hne⟩ hnot

section Course

variable {constraints out : List Constraint} (h : eliminate name constraints = .ok out)

include h

/-- Elimination solves an equality for the variable and cancels the variable in the others. Where no
equality mentions the variable, it adds up lower and upper bounds. -/
theorem eliminate_cases :
    (∃ pivot rest form a, (pivot :: rest).Perm constraints ∧ isPivot name pivot = true ∧
      orientedPivot name pivot = .ok (form, a) ∧
      rest.foldlM (fun out c => do pure (pushUnique out (← cancel name form a c))) [] = .ok out) ∨
    (∀ c ∈ constraints, c.form.coeff name ≠ 0 → c.relation = .inequality) ∧
      (boundPairs (constraints.filter fun c => 0 < c.form.coeff name)
        (constraints.filter fun c => c.form.coeff name < 0)).foldlM
          (fun out p => do pure (pushUnique out (← combine name p.1 p.2)))
          ((constraints.filter fun c => c.form.coeff name = 0).foldl pushUnique []) = .ok out := by
  unfold eliminate at h
  split at h
  · next position hfind =>
    obtain ⟨hlt, hpivot, -⟩ := List.findIdx?_eq_some_iff_getElem.mp hfind
    simp only [Attempt.bind_eq_ok] at h
    obtain ⟨⟨form, a⟩, horiented, h⟩ := h
    rw [List.getD_eq_getElem _ _ hlt] at horiented
    exact .inl ⟨_, _, form, a, List.getElem_cons_eraseIdx_perm hlt, hpivot, horiented, h⟩
  · next hfind =>
    simp only at h
    exact .inr ⟨relation_of_no_pivot hfind, h⟩

/-- What remains after an elimination comes from constraints that were there. -/
theorem of_mem_eliminate {d : Constraint} (hd : d ∈ out) :
    (∃ pivot ∈ constraints, ∃ c ∈ constraints, ∃ form a, isPivot name pivot = true ∧
      orientedPivot name pivot = .ok (form, a) ∧ cancel name form a c = .ok d) ∨
    (d ∈ constraints ∧ d.form.coeff name = 0) ∨
    ∃ lower ∈ constraints, ∃ upper ∈ constraints, 0 < lower.form.coeff name ∧
      upper.form.coeff name < 0 ∧ combine name lower upper = .ok d := by
  rcases eliminate_cases h with ⟨pivot, rest, form, a, hperm, hpivot, horiented, hfold⟩ |
    ⟨-, hfold⟩
  · rcases mem_of_mem_derived hfold hd with hstart | ⟨c, hc, hcancel⟩
    · cases hstart
    · exact .inl ⟨pivot, hperm.subset List.mem_cons_self, c,
        hperm.subset (List.mem_cons_of_mem _ hc), form, a, hpivot, horiented, hcancel⟩
  · rcases mem_of_mem_derived hfold hd with hstart | ⟨⟨l, u⟩, hp, hcombine⟩
    · have hothers := mem_of_mem_foldl_pushUnique hstart
      simp only [List.not_mem_nil, List.mem_filter, decide_eq_true_eq, false_or] at hothers
      exact .inr (.inl hothers)
    · obtain ⟨hl, hu⟩ := mem_boundPairs_filter.mp hp
      exact .inr (.inr ⟨l, hl.1, u, hu.1, hl.2, hu.2, hcombine⟩)

end Course

/-! ## Solving for the variable -/

/-- A requirement does not change under a positive factor. -/
private theorem holds_mul_pos {r : Relation} {a : Int} (ha : 0 < a) {n : Int} {q : Rat}
    (h : (n : Rat) = a * q) : r.Holds n ↔ r.HoldsRat q := by
  have ha' : (0 : Rat) < a := by exact_mod_cast ha
  cases r with
  | inequality =>
    simp only [Relation.Holds, Relation.HoldsRat]
    rw [← Int.cast_nonneg_iff (R := Rat), h, mul_nonneg_iff_of_pos_left ha']
  | equality =>
    simp only [Relation.Holds, Relation.HoldsRat]
    rw [← Int.cast_eq_zero (α := Rat), h, mul_eq_zero, or_iff_right ha'.ne']

/-- The form of a pivot has a positive coefficient, and is zero where the pivot holds. -/
private theorem orientedPivot_spec {pivot : Constraint} {form : Affine} {a : Int}
    (hpivot : isPivot name pivot = true) (h : orientedPivot name pivot = .ok (form, a)) :
    0 < a ∧ form.coeff name = a ∧
      ∀ t : Rat, pivot.HoldsAt x name t ↔ a * t + (form.without name).value x = 0 := by
  obtain ⟨hequality, ha, hcoeff, hform⟩ := orientedPivot_cases hpivot h
  refine ⟨ha, hcoeff, fun t => ?_⟩
  rw [HoldsAt, hequality, Relation.HoldsRat, ← hcoeff]
  rcases hform with rfl | hneg
  · rfl
  · have hvalue := Affine.value_neg x hneg
    rw [Affine.value_without x form name, Affine.value_without x pivot.form name,
      Affine.coeff_neg hneg] at hvalue
    have hrest : (form.without name).value x = -(pivot.form.without name).value x := by
      linarith
    rw [hrest, Affine.coeff_neg hneg]
    push_cast
    constructor <;> intro h <;> linarith

/-- A constraint with the variable cancelled holds where it does for the value of the variable that
makes the pivot zero. -/
private theorem cancel_holds {form : Affine} {a : Int} {c d : Constraint} (ha : 0 < a)
    (hcoeff : form.coeff name = a) {t : Rat} (ht : a * t + (form.without name).value x = 0)
    (h : cancel name form a c = .ok d) : d.Holds x ↔ c.HoldsAt x name t := by
  rcases cancel_cases h with
    ⟨hzero, rfl⟩ | ⟨-, scaled, multiple, difference, hscaled, hmultiple, hdifference, hd⟩
  · rw [holdsAt_of_coeff_zero hzero]
  · rw [normalize_holds hd, Holds, Affine.value_sub x hdifference, Affine.value_scale x hscaled,
      Affine.value_scale x hmultiple, Affine.value_without x c.form name,
      Affine.value_without x form name, hcoeff]
    apply holds_mul_pos ha
    push_cast
    linear_combination (-(c.form.coeff name : Rat)) * ht

/-- A lower and an upper bound add up to what holds where the lower one is not above the other. -/
private theorem combine_holds {lower upper d : Constraint}
    (h : combine name lower upper = .ok d) :
    d.Holds x ↔ 0 ≤ -upper.form.coeff name * (lower.form.without name).value x +
      lower.form.coeff name * (upper.form.without name).value x := by
  obtain ⟨below, above, sum, hbelow, habove, hsum, hd⟩ := exists_of_combine h
  rw [geZero_holds hd, Affine.value_add x hsum, Affine.value_scale x hbelow,
    Affine.value_scale x habove, Affine.value_without x lower.form name,
    Affine.value_without x upper.form name]
  ring_nf

/-- Where a linear function of one variable is zero. -/
def root (a r : Rat) : Rat := -r / a

/-- A linear function is zero at its root. -/
theorem mul_root {a r : Rat} (h : a ≠ 0) : a * root a r + r = 0 := by
  unfold root
  field_simp
  ring

/-- A lower bound holds from its root on. -/
private theorem nonneg_iff_root_le {a : Rat} (ha : 0 < a) (r t : Rat) :
    0 ≤ a * t + r ↔ root a r ≤ t := by
  unfold root
  rw [div_le_iff₀ ha]
  constructor <;> intro h <;> linarith

/-- An upper bound holds up to its root. -/
private theorem nonneg_iff_le_root {a : Rat} (ha : a < 0) (r t : Rat) :
    0 ≤ a * t + r ↔ t ≤ root a r := by
  unfold root
  rw [le_div_iff_of_neg ha]
  constructor <;> intro h <;> linarith

/-- The root of a lower bound is not above that of an upper one where the two add up to what is not
negative. -/
theorem root_le_root_iff {a b : Rat} (ha : 0 < a) (hb : b < 0) (r s : Rat) :
    root a r ≤ root b s ↔ 0 ≤ -b * r + a * s := by
  unfold root
  rw [div_le_iff₀ ha, div_mul_eq_mul_div, le_div_iff_of_neg hb]
  constructor <;> intro h <;> linarith

/-- Between numbers that are all at most some others there is a number. -/
private theorem exists_between_lists {lowers uppers : List Rat}
    (h : ∀ l ∈ lowers, ∀ u ∈ uppers, l ≤ u) :
    ∃ t, (∀ l ∈ lowers, l ≤ t) ∧ ∀ u ∈ uppers, t ≤ u := by
  induction lowers with
  | nil =>
    induction uppers with
    | nil => exact ⟨0, by simp, by simp⟩
    | cons u rest ih =>
      obtain ⟨t, -, ht⟩ := ih (by simp)
      refine ⟨min u t, by simp, fun v hv => ?_⟩
      rcases List.mem_cons.mp hv with rfl | hv
      · exact min_le_left _ _
      · exact (min_le_right _ _).trans (ht v hv)
  | cons l rest ih =>
    obtain ⟨t, hl, hu⟩ := ih fun l hl => h l (List.mem_cons_of_mem _ hl)
    refine ⟨max l t, fun m hm => ?_, fun u hu' => ?_⟩
    · rcases List.mem_cons.mp hm with rfl | hm
      · exact le_max_left _ _
      · exact (hl m hm).trans (le_max_right _ _)
    · exact max_le (h l List.mem_cons_self u hu') (hu u hu')

/-- Bounds hold together for some rational number where no root of a lower one is above that of an
upper one, whatever the rests of their forms are worth. -/
theorem exists_holdsRat_iff {constraints : List Constraint} {rest : Constraint → Rat}
    (hrelation : ∀ c ∈ constraints, c.form.coeff name ≠ 0 → c.relation = .inequality) :
    (∃ t : Rat, ∀ c ∈ constraints, c.relation.HoldsRat (c.form.coeff name * t + rest c)) ↔
      (∀ c ∈ constraints, c.form.coeff name = 0 → c.relation.HoldsRat (rest c)) ∧
        ∀ l ∈ constraints, ∀ u ∈ constraints, 0 < l.form.coeff name → u.form.coeff name < 0 →
          root (l.form.coeff name) (rest l) ≤ root (u.form.coeff name) (rest u) := by
  have hfree : ∀ c : Constraint, c.form.coeff name = 0 → ∀ t : Rat,
      (c.relation.HoldsRat (c.form.coeff name * t + rest c) ↔ c.relation.HoldsRat (rest c)) := by
    intro c hz t
    rw [hz, Int.cast_zero, zero_mul, zero_add]
  have hlower : ∀ c ∈ constraints, 0 < c.form.coeff name → ∀ t : Rat,
      (c.relation.HoldsRat (c.form.coeff name * t + rest c) ↔
        root (c.form.coeff name) (rest c) ≤ t) := by
    intro c hc hpos t
    rw [hrelation c hc hpos.ne']
    exact nonneg_iff_root_le (Int.cast_pos.mpr hpos) _ _
  have hupper : ∀ c ∈ constraints, c.form.coeff name < 0 → ∀ t : Rat,
      (c.relation.HoldsRat (c.form.coeff name * t + rest c) ↔
        t ≤ root (c.form.coeff name) (rest c)) := by
    intro c hc hneg t
    rw [hrelation c hc hneg.ne]
    exact nonneg_iff_le_root (Int.cast_lt_zero.mpr hneg) _ _
  constructor
  · rintro ⟨t, ht⟩
    refine ⟨fun c hc hz => (hfree c hz t).mp (ht c hc), ?_⟩
    intro l hl u hu hpos hneg
    exact ((hlower l hl hpos t).mp (ht l hl)).trans ((hupper u hu hneg t).mp (ht u hu))
  · rintro ⟨hzero, hpairs⟩
    -- Between the roots of the lower bounds and those of the upper ones there is a number.
    obtain ⟨t, hlow, hhigh⟩ := @exists_between_lists
      ((constraints.filter fun c => 0 < c.form.coeff name).map fun c =>
        root (c.form.coeff name) (rest c))
      ((constraints.filter fun c => c.form.coeff name < 0).map fun c =>
        root (c.form.coeff name) (rest c)) (by
        simp only [List.mem_map, List.mem_filter, decide_eq_true_eq]
        rintro _ ⟨l, ⟨hl, hpos⟩, rfl⟩ _ ⟨u, ⟨hu, hneg⟩, rfl⟩
        exact hpairs l hl u hu hpos hneg)
    simp only [List.mem_map, List.mem_filter, decide_eq_true_eq] at hlow hhigh
    refine ⟨t, fun c hc => ?_⟩
    rcases lt_trichotomy (c.form.coeff name) 0 with hneg | hz | hpos
    · exact (hupper c hc hneg t).mpr (hhigh _ ⟨c, ⟨hc, hneg⟩, rfl⟩)
    · exact (hfree c hz t).mpr (hzero c hc hz)
    · exact (hlower c hc hpos t).mpr (hlow _ ⟨c, ⟨hc, hpos⟩, rfl⟩)

/-- A lower and an upper bound add up to what holds where the root of the lower one is not above
that of the upper one. -/
private theorem combine_holds_iff_root {lower upper d : Constraint}
    (hlower : 0 < lower.form.coeff name) (hupper : upper.form.coeff name < 0)
    (h : combine name lower upper = .ok d) :
    d.Holds x ↔ root (lower.form.coeff name) ((lower.form.without name).value x) ≤
      root (upper.form.coeff name) ((upper.form.without name).value x) := by
  rw [combine_holds h, root_le_root_iff (Int.cast_pos.mpr hlower) (Int.cast_lt_zero.mpr hupper)]
  exact_mod_cast Iff.rfl

/-- What remains after a variable is eliminated holds exactly where some rational value of the
variable satisfies everything. -/
theorem holds_eliminate {constraints out : List Constraint}
    (h : eliminate name constraints = .ok out) :
    (∀ d ∈ out, d.Holds x) ↔ ∃ t : Rat, ∀ c ∈ constraints, c.HoldsAt x name t := by
  rcases eliminate_cases h with ⟨pivot, rest, form, a, hperm, hpivot, horiented, hfold⟩ |
    ⟨hrelation, hfold⟩
  · obtain ⟨ha, hcoeff, hzero⟩ := orientedPivot_spec (x := x) hpivot horiented
    have hsolved := @mul_root a ((form.without name).value x) (Int.cast_ne_zero.mpr ha.ne')
    have hmem : ∀ c, c ∈ constraints ↔ c = pivot ∨ c ∈ rest := fun c => by
      rw [← hperm.mem_iff, List.mem_cons]
    rw [forall_derived hfold (fun _ => holds_of_isTautology)
      fun c _ d hd => cancel_holds ha hcoeff hsolved hd]
    simp only [List.not_mem_nil, false_imp_iff, implies_true, true_and]
    constructor
    · intro hall
      refine ⟨root a ((form.without name).value x), fun c hc => ?_⟩
      rcases (hmem c).mp hc with rfl | hc
      · exact (hzero _).mpr hsolved
      · exact hall c hc
    · rintro ⟨t, ht⟩ c hc
      -- The pivot determines the value of the variable.
      have hpt := (hzero t).mp (ht _ ((hmem _).mpr (.inl rfl)))
      have hane : (a : Rat) ≠ 0 := by exact_mod_cast ha.ne'
      have htv : t = root a ((form.without name).value x) := mul_left_cancel₀ hane (by linarith)
      rw [← htv]
      exact ht c ((hmem c).mpr (.inr hc))
  · simp only [HoldsAt]
    rw [exists_holdsRat_iff hrelation,
      forall_derived hfold (fun _ => holds_of_isTautology) fun p hp d hd =>
        combine_holds_iff_root (mem_boundPairs_filter.mp hp).1.2
          (mem_boundPairs_filter.mp hp).2.2 hd,
      forall_foldl_pushUnique fun _ => holds_of_isTautology]
    simp only [mem_boundPairs_filter, List.mem_filter, decide_eq_true_eq, List.not_mem_nil,
      false_imp_iff, implies_true, true_and, Prod.forall, and_imp]
    have hfree : ∀ c : Constraint, c.form.coeff name = 0 →
        (c.relation.HoldsRat ((c.form.without name).value x) ↔ c.Holds x) := by
      intro c hz
      rw [← holdsAt_of_coeff_zero hz 0, HoldsAt, mul_zero, zero_add]
    constructor
    · rintro ⟨hothers, hbounds⟩
      exact ⟨fun c hc hz => (hfree c hz).mpr (hothers c hc hz),
        fun l hl u hu hpos hneg => hbounds l u hl hpos hu hneg⟩
    · rintro ⟨hothers, hbounds⟩
      exact ⟨fun c hc hz => (hfree c hz).mp (hothers c hc hz),
        fun l u hl hpos hu hneg => hbounds l hl u hu hpos hneg⟩

/-- An integer value of the variable that satisfies everything satisfies what remains. -/
theorem holds_eliminate_of_holds {constraints out : List Constraint}
    (h : eliminate name constraints = .ok out) (hx : ∀ c ∈ constraints, c.Holds x) :
    ∀ d ∈ out, d.Holds x :=
  (holds_eliminate h).mpr ⟨x name, fun c hc => holdsAt_self.mpr (hx c hc)⟩

/-! ## Forms that remain -/

/-- A property of forms that multiples, sums and normalizing keep is kept by elimination. -/
theorem forms_of_eliminate {P : Affine → Prop}
    (hscale : ∀ f g k, P f → f.scale k = .ok g → P g)
    (hadd : ∀ f g s, P f → P g → f.add g = .ok s → P s)
    (hnormalize : ∀ c d : Constraint, P c.form → c.normalize = .ok d → P d.form)
    {constraints out : List Constraint} (h : eliminate name constraints = .ok out)
    (hconstraints : ∀ c ∈ constraints, P c.form) : ∀ d ∈ out, P d.form := by
  intro d hd
  rcases of_mem_eliminate h hd with ⟨pivot, hpivotMem, c, hc, form, a, hpivot, horiented, hcancel⟩ |
    ⟨hd, -⟩ | ⟨lower, hl, upper, hu, -, -, hcombine⟩
  · have hform : P form := by
      obtain ⟨-, -, -, rfl | hneg⟩ := orientedPivot_cases hpivot horiented
      · exact hconstraints _ hpivotMem
      · exact hscale _ _ _ (hconstraints _ hpivotMem) hneg
    have hc := hconstraints c hc
    rcases cancel_cases hcancel with
      ⟨-, rfl⟩ | ⟨-, scaled, multiple, difference, hscaled, hmultiple, hdifference, hd⟩
    · exact hc
    · unfold Affine.sub at hdifference
      rw [Attempt.bind_eq_ok] at hdifference
      obtain ⟨negative, hnegative, hdifference⟩ := hdifference
      have hmultiple := hscale _ _ _ hform hmultiple
      exact hnormalize _ _ (hadd _ _ _ (hscale _ _ _ hc hscaled)
        (hscale _ _ _ hmultiple hnegative) hdifference) hd
  · exact hconstraints d hd
  · obtain ⟨below, above, sum, hbelow, habove, hsum, hd⟩ := exists_of_combine hcombine
    have hbelow := hscale _ _ _ (hconstraints _ hl) hbelow
    have habove := hscale _ _ _ (hconstraints _ hu) habove
    exact hnormalize _ _ (hadd _ _ _ hbelow habove hsum) hd

/-- Elimination stores no zeros. -/
theorem proper_eliminate {constraints out : List Constraint}
    (h : eliminate name constraints = .ok out) (hproper : ∀ c ∈ constraints, c.form.Proper) :
    ∀ d ∈ out, d.form.Proper :=
  forms_of_eliminate (fun _ _ _ hf => Affine.proper_scale hf)
    (fun _ _ _ hf _ => Affine.proper_add hf) (fun _ _ => proper_normalize) h hproper

/-- Elimination brings no variable in. -/
theorem coeff_eliminate_of_forall {constraints out : List Constraint} {other : String}
    (h : eliminate name constraints = .ok out)
    (hother : ∀ c ∈ constraints, c.form.coeff other = 0) : ∀ d ∈ out, d.form.coeff other = 0 := by
  refine forms_of_eliminate (P := fun f => f.coeff other = 0) ?_ ?_
    (fun _ _ => coeff_normalize) h hother
  · intro f g k hf hg
    rw [Affine.coeff_scale hg, hf, zero_mul]
  · intro f g s hf hg hs
    rw [Affine.coeff_add hs, hf, hg, add_zero]

/-! ## The variable is gone -/

/-- Cancelling a variable removes it. -/
private theorem coeff_cancel {form : Affine} {a : Int} {c d : Constraint}
    (hcoeff : form.coeff name = a) (h : cancel name form a c = .ok d) :
    d.form.coeff name = 0 := by
  rcases cancel_cases h with
    ⟨hzero, rfl⟩ | ⟨-, scaled, multiple, difference, hscaled, hmultiple, hdifference, hd⟩
  · exact hzero
  · apply coeff_normalize _ hd
    rw [Affine.coeff_sub hdifference, Affine.coeff_scale hscaled, Affine.coeff_scale hmultiple,
      hcoeff]
    ring

/-- Adding up a lower and an upper bound removes the variable. -/
private theorem coeff_combine {lower upper d : Constraint}
    (h : combine name lower upper = .ok d) : d.form.coeff name = 0 := by
  obtain ⟨below, above, sum, hbelow, habove, hsum, hd⟩ := exists_of_combine h
  apply coeff_normalize _ hd
  rw [Affine.coeff_add hsum, Affine.coeff_scale hbelow, Affine.coeff_scale habove]
  ring

/-- What remains after a variable is eliminated does not mention it. -/
theorem coeff_eliminate {constraints out : List Constraint}
    (h : eliminate name constraints = .ok out) : ∀ d ∈ out, d.form.coeff name = 0 := by
  intro d hd
  rcases of_mem_eliminate h hd with ⟨pivot, -, c, -, form, a, hpivot, horiented, hcancel⟩ |
    ⟨-, hzero⟩ | ⟨lower, -, upper, -, -, -, hcombine⟩
  · obtain ⟨-, -, hcoeff, -⟩ := orientedPivot_cases hpivot horiented
    exact coeff_cancel hcoeff hcancel
  · exact hzero
  · exact coeff_combine hcombine

/-- Eliminating several variables stores no zeros. -/
theorem proper_eliminateAll {names : List String} {constraints out : List Constraint}
    (h : eliminateAll names constraints = .ok out) (hproper : ∀ c ∈ constraints, c.form.Proper) :
    ∀ d ∈ out, d.form.Proper := by
  apply Attempt.foldlM_induction (P := fun _ out => ∀ d ∈ out, d.form.Proper) hproper _ h
  intro _ _ _ _ _ hdone hnext
  exact proper_eliminate hnext hdone

/-- What remains after several variables are eliminated mentions none of them, and no other variable
comes in. -/
theorem coeff_eliminateAll {names : List String} {constraints out : List Constraint}
    {other : String} (h : eliminateAll names constraints = .ok out)
    (hother : other ∈ names ∨ ∀ c ∈ constraints, c.form.coeff other = 0) :
    ∀ d ∈ out, d.form.coeff other = 0 := by
  have hgone : other ∈ names ∨ (∀ c ∈ constraints, c.form.coeff other = 0) →
      ∀ d ∈ out, d.form.coeff other = 0 := by
    apply Attempt.foldlM_induction (P := fun done out =>
      other ∈ done ∨ (∀ c ∈ constraints, c.form.coeff other = 0) →
        ∀ d ∈ out, d.form.coeff other = 0) _ _ h
    · rintro (hnil | hfree)
      · cases hnil
      · exact hfree
    · intro done out name next _ hdone hnext hor
      by_cases hname : other = name
      · subst hname
        exact coeff_eliminate hnext
      · rw [List.mem_append, List.mem_singleton, or_iff_left hname] at hor
        exact coeff_eliminate_of_forall hnext (hdone hor)
  exact hgone hother

/-- Values that satisfy everything satisfy what remains after several variables are eliminated. -/
theorem holds_eliminateAll_of_holds {names : List String} {constraints out : List Constraint}
    (h : eliminateAll names constraints = .ok out) (hx : ∀ c ∈ constraints, c.Holds x) :
    ∀ d ∈ out, d.Holds x := by
  apply Attempt.foldlM_induction (P := fun _ out => ∀ d ∈ out, d.Holds x) hx _ h
  intro _ _ _ _ _ hdone hnext
  exact holds_eliminate_of_holds hnext hdone

end Constraint

end LoopKernel
