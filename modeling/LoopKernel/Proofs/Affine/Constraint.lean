import LoopKernel.Affine.Constraint
import LoopKernel.Proofs.Affine.Form

/-!
# Solutions of affine constraints

The integer assignments that satisfy a constraint. Normalizing a constraint keeps them, its
negations have all the others, and what counts as a contradiction has none.
-/

namespace LoopKernel.Constraint

/-- Whether an integer assignment satisfies a constraint. -/
def Holds (x : String → Int) (c : Constraint) : Prop := c.relation.Holds (c.form.value x)

instance (x : String → Int) (c : Constraint) : Decidable (c.Holds x) :=
  inferInstanceAs (Decidable (c.relation.Holds _))

/-- Whether a constraint holds depends on the values of its variables alone. -/
theorem holds_congr {x y : String → Int} {c : Constraint} (h : ∀ v ∈ c.form.vars, x v = y v) :
    c.Holds x ↔ c.Holds y := by
  rw [Holds, Holds, Affine.value_congr h]

variable {x : String → Int}

/-- A constraint mentions a variable when its coefficient is not zero. -/
theorem involves_iff {c : Constraint} {name : String} :
    c.involves name = true ↔ c.form.coeff name ≠ 0 := bne_iff_ne

/-- A constraint does not mention a variable when its coefficient is zero. -/
theorem not_involves_iff {c : Constraint} {name : String} :
    ¬c.involves name = true ↔ c.form.coeff name = 0 := by
  rw [involves_iff, not_not]

/-! ## Normalization -/

/-- Turning the sign of an equality gives the form itself or its negation. -/
theorem eq_or_neg_of_orient {f g : Affine} (h : orient f = .ok g) : g = f ∨ f.neg = .ok g := by
  unfold orient at h
  split at h
  · split at h
    · exact .inr h
    · exact .inl (Attempt.pure_eq_ok.mp h).symm
  · exact .inl (Attempt.pure_eq_ok.mp h).symm

/-- A normalized constraint requires the same, of the tightened form or of the reduced one with its
sign turned. -/
theorem normalize_cases {c d : Constraint} (h : c.normalize = .ok d) :
    d.relation = c.relation ∧ ∃ g, c.form.content = .ok g ∧
      (c.relation = .inequality ∧ d.form = tighten c.form g ∨
        c.relation = .equality ∧ orient (reduce c.form g) = .ok d.form) := by
  obtain ⟨relation, f⟩ := c
  unfold normalize at h
  rw [Attempt.bind_eq_ok] at h
  obtain ⟨g, hg, h⟩ := h
  cases relation with
  | inequality =>
    rw [Attempt.pure_eq_ok] at h
    subst h
    exact ⟨rfl, g, hg, .inl ⟨rfl, rfl⟩⟩
  | equality =>
    simp only [Attempt.bind_eq_ok, Attempt.pure_eq_ok] at h
    obtain ⟨oriented, horient, rfl⟩ := h
    exact ⟨rfl, g, hg, .inr ⟨rfl, horient⟩⟩

/-- A property of forms that division by the content and negation keep is kept by normalizing. -/
theorem forms_of_normalize {P : Affine → Prop}
    (hdivide : ∀ f g, P f → f.content = .ok g → P (divideCoeffs f g (f.constant / g)))
    (hneg : ∀ f g, P f → f.neg = .ok g → P g) {c d : Constraint} (hc : P c.form)
    (h : c.normalize = .ok d) : P d.form := by
  obtain ⟨-, g, hg, ⟨-, hd⟩ | ⟨-, hd⟩⟩ := normalize_cases h
  · rw [hd, tighten]
    split
    · exact hdivide _ g hc hg
    · exact hc
  · have hreduce : P (reduce c.form g) := by
      unfold reduce
      split
      · exact hdivide _ g hc hg
      · exact hc
    rcases eq_or_neg_of_orient hd with heq | hneg'
    · exact heq ▸ hreduce
    · exact hneg _ _ hreduce hneg'

/-- A form with its coefficients divided is that fraction of the form, apart from the constant. -/
theorem value_divideCoeffs {f : Affine} {g : Nat} (hg : ∀ e ∈ f.coeffs.entries,
    (g : Int) ∣ e.2) (constant : Int) :
    f.value x = f.constant + g * ((divideCoeffs f g constant).value x - constant) := by
  unfold Affine.value divideCoeffs SortedMap.mapValues
  rw [List.map_map, add_sub_cancel_left, ← List.sum_map_mul_left]
  congr 2
  apply List.map_congr_left
  rintro ⟨name, c⟩ he
  obtain ⟨d, rfl⟩ := hg _ he
  simp only [Function.comp_apply]
  by_cases hz : (g : Int) = 0
  · simp [hz]
  · rw [Int.mul_ediv_cancel_left d hz, mul_assoc]

/-- Rounding the constant of an inequality down keeps its solutions. -/
theorem tighten_holds {f : Affine} {g : Nat} (h : f.content = .ok g) :
    0 ≤ (tighten f g).value x ↔ 0 ≤ f.value x := by
  unfold tighten
  split
  · next hg =>
    have hpos : (0 : Int) < g := by omega
    have hvalue := value_divideCoeffs (x := x) (Affine.content_dvd h) (f.constant / g)
    have hdiv : (divideCoeffs f g (f.constant / g)).value x = f.value x / g := by
      rw [hvalue, Int.add_mul_ediv_left _ _ (by omega)]
      ring
    rw [hdiv, Int.ediv_nonneg_iff_of_pos hpos]
  · rfl

/-- Dividing an equality by a common divisor keeps its solutions. -/
theorem reduce_holds {f : Affine} {g : Nat} (h : f.content = .ok g) :
    (reduce f g).value x = 0 ↔ f.value x = 0 := by
  unfold reduce
  split
  · next hg =>
    obtain ⟨hg, hc⟩ := hg
    have hne : (g : Int) ≠ 0 := by omega
    have hvalue := value_divideCoeffs (x := x) (Affine.content_dvd h) (f.constant / g)
    have hfull : f.value x = g * (divideCoeffs f g (f.constant / g)).value x := by
      have hexact := Int.mul_ediv_cancel' (Int.dvd_of_emod_eq_zero hc)
      rw [hvalue, mul_sub, hexact]
      ring
    rw [hfull, mul_eq_zero, or_iff_right hne]
  · rfl

/-- Turning the sign of an equality keeps its solutions. -/
theorem orient_holds {f g : Affine} (h : orient f = .ok g) : g.value x = 0 ↔ f.value x = 0 := by
  rcases eq_or_neg_of_orient h with rfl | hneg
  · rfl
  · rw [Affine.value_neg x hneg, neg_eq_zero]

/-- Normalizing a constraint keeps its solutions. -/
theorem normalize_holds {c d : Constraint} (h : c.normalize = .ok d) : d.Holds x ↔ c.Holds x := by
  obtain ⟨hsame, g, hg, ⟨hrelation, hd⟩ | ⟨hrelation, hd⟩⟩ := normalize_cases h
  · rw [Holds, Holds, hsame, hrelation, hd]
    exact tighten_holds hg
  · rw [Holds, Holds, hsame, hrelation]
    exact (orient_holds hd).trans (reduce_holds hg)

private theorem coeff_divideCoeffs {f : Affine} {name : String} (h : f.coeff name = 0) (g : Nat)
    (constant : Int) : (divideCoeffs f g constant).coeff name = 0 := by
  unfold Affine.coeff SortedMap.getD at h ⊢
  unfold divideCoeffs
  rw [SortedMap.get?_mapValues]
  cases hget : f.coeffs.get? name with
  | none => rfl
  | some c =>
    rw [hget, Option.getD_some] at h
    simp [h]

/-- Normalizing brings no variable in. -/
theorem coeff_normalize {c d : Constraint} {name : String} (hc : c.form.coeff name = 0)
    (h : c.normalize = .ok d) : d.form.coeff name = 0 := by
  refine forms_of_normalize (P := fun f => f.coeff name = 0)
    (fun f g hf _ => coeff_divideCoeffs hf g _) (fun f g hf hg => ?_) hc h
  rw [Affine.coeff_neg hg, hf, neg_zero]

private theorem vars_divideCoeffs (f : Affine) (g : Nat) (constant : Int) :
    (divideCoeffs f g constant).vars = f.vars := by
  rw [divideCoeffs, Affine.vars, Affine.vars, SortedMap.mapValues, SortedMap.keys, SortedMap.keys,
    List.map_map]
  rfl

/-- Normalizing keeps the variables. -/
theorem vars_normalize {c d : Constraint} (h : c.normalize = .ok d) :
    d.form.vars = c.form.vars := by
  refine forms_of_normalize (P := fun f => f.vars = c.form.vars)
    (fun f g hf _ => (vars_divideCoeffs f g _).trans hf) (fun f g hf hg => ?_) rfl h
  rw [Affine.vars_scale (by decide) hg, hf]

private theorem proper_divideCoeffs {f : Affine} {g : Nat} (hf : f.Proper)
    (h : f.content = .ok g) (constant : Int) : (divideCoeffs f g constant).Proper := by
  intro name hname
  unfold divideCoeffs at hname
  rw [SortedMap.get?_mapValues, Option.map_eq_some_iff] at hname
  obtain ⟨c, hc, hzero⟩ := hname
  have hdvd := Affine.content_dvd h (name, c) (SortedMap.mem_entries.mpr hc)
  have hc0 : c = 0 := Int.eq_zero_of_ediv_eq_zero hdvd hzero
  exact hf name (hc0 ▸ hc)

/-- Normalizing stores no zeros. -/
theorem proper_normalize {c d : Constraint} (hc : c.form.Proper) (h : c.normalize = .ok d) :
    d.form.Proper :=
  forms_of_normalize (fun _ _ hf hg => proper_divideCoeffs hf hg _)
    (fun _ _ hf => Affine.proper_scale hf) hc h

/-! ## Building -/

theorem geZero_holds {f : Affine} {c : Constraint} (h : geZero f = .ok c) :
    c.Holds x ↔ 0 ≤ f.value x := normalize_holds h

/-- A constraint between two forms holds where the first value is at least the second. -/
theorem ge_holds {f g : Affine} {c : Constraint} (h : ge f g = .ok c) :
    c.Holds x ↔ g.value x ≤ f.value x := by
  unfold ge at h
  rw [Attempt.bind_eq_ok] at h
  obtain ⟨difference, hdifference, h⟩ := h
  rw [geZero_holds h, Affine.value_sub x hdifference]
  omega

/-- A strict constraint between two forms holds where the first value is less than the second. -/
theorem lt_holds {f g : Affine} {c : Constraint} (h : lt f g = .ok c) :
    c.Holds x ↔ f.value x < g.value x := by
  unfold lt at h
  simp only [Attempt.bind_eq_ok] at h
  obtain ⟨difference, hdifference, _, hshifted, h⟩ := h
  rw [geZero_holds h, Affine.value_sub x hshifted, Affine.value_sub x hdifference,
    Affine.value_const]
  omega

/-- Replacing a variable is giving it the value of the form that takes its place. -/
theorem substitute_holds {c d : Constraint} {name : String} {value : Affine}
    (h : c.substitute name value = .ok d) :
    d.Holds x ↔ c.Holds (Function.update x name (value.value x)) := by
  unfold substitute at h
  rw [Attempt.bind_eq_ok] at h
  obtain ⟨form, hform, h⟩ := h
  rw [normalize_holds h, Holds, Affine.value_substitute x hform]
  rfl

/-- Replacing a variable keeps the others that the form in its place lacks. -/
theorem mem_vars_substitute {c d : Constraint} {name other : String} {value : Affine}
    (h : c.substitute name value = .ok d) (hother : other ∈ c.form.vars) (hne : other ≠ name)
    (hvalue : other ∉ value.vars) : other ∈ d.form.vars := by
  unfold substitute at h
  rw [Attempt.bind_eq_ok] at h
  obtain ⟨form, hform, h⟩ := h
  rw [vars_normalize h]
  exact Affine.mem_vars_substitute hform hother hne hvalue

/-- A constraint with coefficient zero for a variable does not depend on it. -/
theorem holds_update {c : Constraint} {name : String} (h : c.form.coeff name = 0) (n : Int) :
    c.Holds (Function.update x name n) ↔ c.Holds x := by
  rw [Holds, Affine.value_update x h, Holds]

/-! ## Decisions -/

/-- What always holds does so. -/
theorem holds_of_isTautology {c : Constraint} (h : c.isTautology = true) : c.Holds x := by
  unfold isTautology at h
  rw [Bool.and_eq_true, decide_eq_true_eq] at h
  rw [Holds, Affine.value_of_isConstant x h.1]
  exact h.2

/-- A contradiction has no solutions. -/
theorem not_holds_of_isContradiction {c : Constraint} (h : c.isContradiction = .ok true) :
    ¬c.Holds x := by
  obtain ⟨relation, f⟩ := c
  intro hx
  cases relation with
  | inequality =>
    simp only [isContradiction, Attempt.pure_eq_ok, Bool.and_eq_true, decide_eq_true_eq] at h
    have hvalue := Affine.value_of_isConstant x h.1
    simp only [Holds, Relation.Holds] at hx
    omega
  | equality =>
    simp only [isContradiction, Attempt.bind_eq_ok, Attempt.pure_eq_ok] at h
    obtain ⟨g, hg, h⟩ := h
    simp only [Holds, Relation.Holds] at hx
    split at h
    · next hconstant =>
      rw [Affine.value_of_isConstant x hconstant] at hx
      simp [hx] at h
    · rw [bne_iff_ne] at h
      apply h
      have hvalue := value_divideCoeffs (x := x) (Affine.content_dvd hg) 0
      rw [hx] at hvalue
      apply Int.emod_eq_zero_of_dvd
      rw [← dvd_neg]
      exact ⟨_, (neg_eq_of_add_eq_zero_right hvalue.symm)⟩

/-! ## Negations -/

/-- Whether a constraint is made to say that a form is positive: that it is not negative after one
is taken from it. -/
def Positive (f : Affine) (d : Constraint) : Prop :=
  ∃ shifted, f.sub (.const 1) = .ok shifted ∧ geZero shifted = .ok d

theorem Positive.holds_iff {f : Affine} {d : Constraint} (h : Positive f d) :
    d.Holds x ↔ 0 < f.value x := by
  obtain ⟨shifted, hshifted, hd⟩ := h
  rw [geZero_holds hd, Affine.value_sub x hshifted, Affine.value_const]
  omega

/-- An inequality is negated by a negative form, an equality by a positive or a negative one. -/
theorem negations_cases {c : Constraint} {negated : List Constraint}
    (h : c.negations = .ok negated) :
    ∃ negative, c.form.neg = .ok negative ∧
      ((c.relation = .inequality ∧ ∃ below, negated = [below] ∧ Positive negative below) ∨
        (c.relation = .equality ∧ ∃ above below, negated = [above, below] ∧
          Positive c.form above ∧ Positive negative below)) := by
  unfold negations at h
  cases hrelation : c.relation with
  | inequality =>
    simp only [hrelation, Attempt.bind_eq_ok, Attempt.pure_eq_ok] at h
    obtain ⟨negative, hnegative, less, hless, below, hbelow, rfl⟩ := h
    exact ⟨negative, hnegative, .inl ⟨rfl, below, rfl, less, hless, hbelow⟩⟩
  | equality =>
    simp only [hrelation, Attempt.bind_eq_ok, Attempt.pure_eq_ok] at h
    obtain ⟨more, hmore, above, habove, negative, hnegative, less, hless, below, hbelow, rfl⟩ := h
    exact ⟨negative, hnegative, .inr ⟨rfl, above, below, rfl, ⟨more, hmore, habove⟩,
      ⟨less, hless, hbelow⟩⟩⟩

/-- The negations of a constraint have together the assignments that violate it. -/
theorem negations_holds {c : Constraint} {negated : List Constraint}
    (h : c.negations = .ok negated) : (∃ d ∈ negated, d.Holds x) ↔ ¬c.Holds x := by
  obtain ⟨negative, hnegative, ⟨hrelation, below, rfl, hbelow⟩ |
    ⟨hrelation, above, below, rfl, habove, hbelow⟩⟩ := negations_cases h
  · simp only [List.mem_singleton, exists_eq_left]
    rw [hbelow.holds_iff, Affine.value_neg x hnegative, Holds, hrelation, Relation.Holds]
    omega
  · simp only [List.mem_cons, List.not_mem_nil, or_false, exists_eq_or_imp, exists_eq_left]
    rw [habove.holds_iff, hbelow.holds_iff, Affine.value_neg x hnegative, Holds, hrelation,
      Relation.Holds]
    omega

/-! ## Tests -/

/-- The test of a constraint under an assignment, if every variable has a value. -/
theorem satisfied?_eq_ok {given : String → Option Int}
    (hx : ∀ name n, given name = some n → x name = n) {c : Constraint} {b : Bool}
    (h : c.satisfied? given = .ok (some b)) : b = true ↔ c.Holds x := by
  unfold satisfied? at h
  simp only [Attempt.bind_eq_ok, Attempt.pure_eq_ok, Option.map_eq_some_iff] at h
  obtain ⟨_, heval, n, rfl, rfl⟩ := h
  rw [decide_eq_true_eq, Affine.eval_eq_ok x hx heval, Holds]

/-- The test has an answer when every variable has a value. -/
theorem satisfied?_isSome {given : String → Option Int} {c : Constraint} {r : Option Bool}
    (hvars : ∀ name ∈ c.form.vars, (given name).isSome) (h : c.satisfied? given = .ok r) :
    r.isSome := by
  unfold satisfied? at h
  simp only [Attempt.bind_eq_ok, Attempt.pure_eq_ok] at h
  obtain ⟨value, heval, rfl⟩ := h
  rw [Option.isSome_map]
  exact Affine.eval_isSome hvars heval

end LoopKernel.Constraint
