import LoopKernel.Affine.Form
import LoopKernel.Proofs.Polynomial.Value
import Mathlib.Algebra.GCDMonoid.Nat

/-!
# Values of affine forms

The value of an affine form where every variable has an integer value. Each operation on forms is
the same operation on values.
-/

namespace LoopKernel.Affine

/-- The constant and the coefficients times the values of their variables. -/
def value (x : String → Int) (f : Affine) : Int :=
  f.constant + (f.coeffs.entries.map fun e => e.2 * x e.1).sum

variable (x : String → Int)

/-- The value depends on the values of the variables alone. -/
theorem value_congr {x y : String → Int} {f : Affine} (h : ∀ v ∈ f.vars, x v = y v) :
    value x f = value y f := by
  unfold value
  congr 2
  apply List.map_congr_left
  intro e he
  rw [h e.1 (List.mem_map_of_mem he)]

/-- A constant form. -/
@[simp] theorem value_const (c : Int) : value x (const c) = c := add_zero c

/-- A constant form has no variables. -/
theorem value_of_isConstant {f : Affine} (h : f.isConstant = true) : value x f = f.constant := by
  unfold value
  rw [List.isEmpty_iff.mp h]
  exact add_zero _

/-- One coefficient set in a form. -/
private theorem value_insert (coeffs : SortedMap String Int) (name : String) (c constant : Int) :
    value x ⟨coeffs.insert name c, constant⟩ =
      c * x name + value x ⟨coeffs.erase name, constant⟩ := by
  unfold value
  rw [((SortedMap.perm_entries_insert coeffs name c).map _).sum_eq, List.map_cons, List.sum_cons]
  ring

/-- A form is one of its terms and the rest. -/
theorem value_without (f : Affine) (name : String) :
    value x f = f.coeff name * x name + value x (f.without name) := by
  unfold coeff SortedMap.getD without
  cases h : f.coeffs.get? name with
  | none => rw [SortedMap.erase_of_get?_none h, Option.getD_none, zero_mul, zero_add]
  | some c =>
    unfold value
    rw [((SortedMap.perm_entries_erase h).map _).sum_eq, List.map_cons, List.sum_cons,
      Option.getD_some]
    ring

/-- A multiple of a variable. -/
@[simp] theorem value_term (name : String) (c : Int) : value x (term name c) = c * x name := by
  unfold term
  split
  · next hc => rw [value_const, hc, zero_mul]
  · rw [value_insert, SortedMap.erase_of_get?_none (SortedMap.get?_empty name)]
    exact add_zero _

/-- A variable. -/
@[simp] theorem value_var (name : String) : value x (var name) = x name := by
  rw [var, value_term, one_mul]

/-- Multiples. -/
theorem value_scale {f g : Affine} {k : Int} (h : f.scale k = .ok g) :
    value x g = value x f * k := by
  unfold scale scaleCoeffs at h
  split at h
  · next hk =>
    rw [Attempt.pure_eq_ok] at h
    rw [← h, value_const, hk, mul_zero]
  · simp only [Attempt.bind_eq_ok, WordRange.check_eq_ok, Attempt.pure_eq_ok] at h
    obtain ⟨coeffs, hcoeffs, _, ⟨_, rfl⟩, rfl⟩ := h
    split at hcoeffs
    · rw [Attempt.pure_eq_ok] at hcoeffs
      subst hcoeffs
      unfold value SortedMap.mapValues
      rw [List.map_map, add_mul, ← List.sum_map_mul_right]
      congr 2
      apply List.map_congr_left
      rintro ⟨name, c⟩ _
      simp only [Function.comp_apply]
      ring
    · cases hcoeffs

/-- Negations. -/
theorem value_neg {f g : Affine} (h : f.neg = .ok g) : value x g = -value x f := by
  rw [value_scale x h]
  ring

/-- Adding a multiple of a variable. -/
private theorem value_addTerm {coeffs next : SortedMap String Int} {name : String} {c : Int}
    (h : addTerm coeffs name c = .ok next) (constant : Int) :
    value x ⟨next, constant⟩ = value x ⟨coeffs, constant⟩ + c * x name := by
  unfold addTerm at h
  simp only [Attempt.bind_eq_ok, WordRange.check_eq_ok, Attempt.pure_eq_ok] at h
  obtain ⟨_, ⟨_, rfl⟩, h⟩ := h
  have hsplit := value_without x ⟨coeffs, constant⟩ name
  simp only [coeff, without] at hsplit
  split at h
  · next hz =>
    have hcancel : coeffs.getD name 0 = -c := by omega
    rw [← h, hsplit, hcancel]
    ring
  · rw [← h, value_insert, hsplit]
    ring

/-- Sums. -/
theorem value_add {f g s : Affine} (h : f.add g = .ok s) :
    value x s = value x f + value x g := by
  unfold add at h
  simp only [Attempt.bind_eq_ok, WordRange.check_eq_ok, Attempt.pure_eq_ok] at h
  obtain ⟨coeffs, hcoeffs, _, ⟨_, rfl⟩, rfl⟩ := h
  have hsum : ∀ constant, value x ⟨coeffs, constant⟩ =
      value x ⟨f.coeffs, constant⟩ + (g.coeffs.entries.map fun e => e.2 * x e.1).sum := by
    intro constant
    apply Attempt.foldlM_induction (P := fun done coeffs => value x ⟨coeffs, constant⟩ =
      value x ⟨f.coeffs, constant⟩ + (done.map fun e => e.2 * x e.1).sum) _ _ hcoeffs
    · simp
    · rintro done coeffs ⟨name, c⟩ next _ hdone hnext
      rw [value_addTerm x hnext, hdone, List.map_append, List.sum_append, List.map_singleton,
        List.sum_singleton, add_assoc]
  rw [hsum]
  unfold value
  ring

/-- Differences. -/
theorem value_sub {f g d : Affine} (h : f.sub g = .ok d) :
    value x d = value x f - value x g := by
  unfold sub at h
  rw [Attempt.bind_eq_ok] at h
  obtain ⟨negated, hneg, h⟩ := h
  rw [value_add x h, value_scale x hneg]
  ring

/-- A form without a variable does not depend on it. -/
theorem value_without_update (f : Affine) (name : String) (n : Int) :
    value (Function.update x name n) (f.without name) = value x (f.without name) := by
  unfold value without
  congr 2
  apply List.map_congr_left
  rintro ⟨other, c⟩ he
  have hget := SortedMap.mem_entries.mp he
  rw [SortedMap.get?_erase] at hget
  have hne : other ≠ name := by
    rintro rfl
    simp at hget
  rw [Function.update_of_ne hne]

/-- A form with coefficient zero for a variable does not depend on it. -/
theorem value_update {f : Affine} {name : String} (h : f.coeff name = 0) (n : Int) :
    value (Function.update x name n) f = value x f := by
  rw [value_without (Function.update x name n) f name, value_without x f name, h,
    value_without_update]
  ring

/-- Replacing a variable is giving it the value of the form that takes its place. -/
theorem value_substitute {f value' g : Affine} {name : String}
    (h : f.substitute name value' = .ok g) :
    value x g = value (Function.update x name (value x value')) f := by
  unfold substitute at h
  split at h
  · next hz =>
    rw [Attempt.pure_eq_ok] at h
    rw [← h, value_update x hz]
  · rw [Attempt.bind_eq_ok] at h
    obtain ⟨scaled, hscaled, h⟩ := h
    rw [value_add x h, value_scale x hscaled,
      value_without (Function.update x name (value x value')) f name, Function.update_self,
      value_without_update]
    ring

/-- The polynomial of a form has the value of the form. -/
theorem value_toPolynomial {f : Affine} {p : Polynomial} (h : f.toPolynomial = .ok p) :
    p.value (fun name => x name) = value x f := by
  unfold toPolynomial at h
  unfold value
  rw [Int.cast_add]
  apply Attempt.foldlM_induction (P := fun done (p : Polynomial) =>
    p.value (fun name => x name) =
      f.constant + ((done.map fun e => e.2 * x e.1).sum : Int)) _ _ h
  · simp
  · rintro done p ⟨name, c⟩ next _ hdone hnext
    simp only [Attempt.bind_eq_ok] at hnext
    obtain ⟨scaled, hscaled, hnext⟩ := hnext
    rw [Polynomial.value_add _ hnext, Polynomial.value_scale _ hscaled, Polynomial.value_var,
      hdone, List.map_append, List.sum_append, List.map_singleton, List.sum_singleton,
      Int.cast_add, Int.cast_mul]
    ring

/-! ## Coefficients -/

/-- A coefficient is the growth of the form along its variable. -/
theorem coeff_eq_value (f : Affine) (name : String) :
    f.coeff name = f.value (Function.update 0 name 1) - f.value 0 := by
  rw [value_without (Function.update 0 name 1) f name, value_without 0 f name,
    value_without_update, Function.update_self, Pi.zero_apply]
  ring

/-- A form without a variable has coefficient zero for it. -/
theorem coeff_without (f : Affine) (name : String) : (f.without name).coeff name = 0 := by
  unfold coeff without SortedMap.getD
  rw [SortedMap.get?_erase, if_pos rfl, Option.getD_none]

theorem coeff_const (c : Int) (name : String) : (const c).coeff name = 0 := rfl

theorem coeff_scale {f g : Affine} {k : Int} (h : f.scale k = .ok g) (name : String) :
    g.coeff name = f.coeff name * k := by
  rw [coeff_eq_value, value_scale _ h, value_scale _ h, coeff_eq_value f]
  ring

theorem coeff_neg {f g : Affine} (h : f.neg = .ok g) (name : String) :
    g.coeff name = -f.coeff name := by
  rw [coeff_scale h]
  ring

theorem coeff_add {f g s : Affine} (h : f.add g = .ok s) (name : String) :
    s.coeff name = f.coeff name + g.coeff name := by
  rw [coeff_eq_value, value_add _ h, value_add _ h, coeff_eq_value f, coeff_eq_value g]
  ring

theorem coeff_sub {f g d : Affine} (h : f.sub g = .ok d) (name : String) :
    d.coeff name = f.coeff name - g.coeff name := by
  rw [coeff_eq_value, value_sub _ h, value_sub _ h, coeff_eq_value f, coeff_eq_value g]
  ring

theorem coeff_without_of_ne (f : Affine) {name other : String} (h : other ≠ name) :
    (f.without name).coeff other = f.coeff other := by
  unfold coeff without SortedMap.getD
  rw [SortedMap.get?_erase, if_neg h]

/-- A variable that is replaced by a constant is gone, and none comes in. -/
theorem coeff_substitute_const {f g : Affine} {name other : String} {n : Int}
    (h : f.substitute name (const n) = .ok g) (hother : other = name ∨ f.coeff other = 0) :
    g.coeff other = 0 := by
  unfold substitute at h
  split at h
  · next hz =>
    rw [Attempt.pure_eq_ok] at h
    rcases hother with rfl | hother
    · rw [← h, hz]
    · rw [← h, hother]
  · rw [Attempt.bind_eq_ok] at h
    obtain ⟨scaled, hscaled, h⟩ := h
    have hfree : (f.without name).coeff other = 0 := by
      by_cases hname : other = name
      · rw [hname, coeff_without]
      · rw [coeff_without_of_ne f hname]
        exact hother.resolve_left hname
    rw [coeff_add h, coeff_scale hscaled, hfree, coeff_const, zero_mul, add_zero]

/-! ## Evaluation -/

private theorem evalTerms_eq_ok {given : String → Option Int}
    (hx : ∀ name n, given name = some n → x name = n) {total r : Int}
    {terms : List (String × Int)} (h : evalTerms given total terms = .ok (some r)) :
    r = total + (terms.map fun e => e.2 * x e.1).sum := by
  induction terms generalizing total with
  | nil =>
    rw [evalTerms, Attempt.pure_eq_ok, Option.some.injEq] at h
    rw [← h, List.map_nil, List.sum_nil, add_zero]
  | cons term rest ih =>
    obtain ⟨name, c⟩ := term
    unfold evalTerms at h
    split at h
    · rw [Attempt.pure_eq_ok] at h
      cases h
    · next n hn =>
      simp only [Attempt.bind_eq_ok, WordRange.check_eq_ok] at h
      obtain ⟨_, ⟨_, rfl⟩, _, ⟨_, rfl⟩, h⟩ := h
      rw [ih h, List.map_cons, List.sum_cons, hx name n hn]
      ring

/-- Evaluation gives the value. -/
theorem eval_eq_ok {given : String → Option Int}
    (hx : ∀ name n, given name = some n → x name = n) {f : Affine} {r : Int}
    (h : f.eval given = .ok (some r)) : r = value x f := evalTerms_eq_ok x hx h

/-- There is a value when every variable has one. -/
theorem eval_isSome {given : String → Option Int} {f : Affine} {r : Option Int}
    (hvars : ∀ name ∈ f.vars, (given name).isSome) (h : f.eval given = .ok r) : r.isSome := by
  have general : ∀ (terms : List (String × Int)) (total : Int) (r : Option Int),
      (∀ name ∈ terms.map Prod.fst, (given name).isSome) →
      evalTerms given total terms = .ok r → r.isSome := by
    intro terms
    induction terms with
    | nil =>
      intro total r _ h
      rw [evalTerms, Attempt.pure_eq_ok] at h
      rw [← h, Option.isSome_some]
    | cons term rest ih =>
      obtain ⟨name, c⟩ := term
      intro total r hgiven h
      rw [List.map_cons, List.forall_mem_cons] at hgiven
      unfold evalTerms at h
      split at h
      · next hnone =>
        rw [hnone] at hgiven
        simp at hgiven
      · simp only [Attempt.bind_eq_ok] at h
        obtain ⟨product, _, total', _, h⟩ := h
        exact ih total' r hgiven.2 h
  exact general f.coeffs.entries f.constant r hvars h

/-! ## Variables that stay -/

private theorem vars_scaleCoeffs {coeffs scaled : SortedMap String Int} {k : Int}
    (h : scaleCoeffs coeffs k = .ok scaled) : scaled.keys = coeffs.keys := by
  unfold scaleCoeffs at h
  split at h
  · rw [Attempt.pure_eq_ok] at h
    rw [← h, SortedMap.mapValues, SortedMap.keys, SortedMap.keys, List.map_map]
    rfl
  · simp at h

/-- A multiple has the variables of the form. -/
theorem vars_scale {f g : Affine} {k : Int} (hk : k ≠ 0) (h : f.scale k = .ok g) :
    g.vars = f.vars := by
  rw [scale, if_neg hk] at h
  simp only [Attempt.bind_eq_ok, Attempt.pure_eq_ok] at h
  obtain ⟨coeffs, hcoeffs, _, -, rfl⟩ := h
  exact vars_scaleCoeffs hcoeffs

/-- A multiple has no other variables than the form. -/
theorem of_mem_vars_scale {f g : Affine} {k : Int} {name : String} (h : f.scale k = .ok g)
    (hname : name ∈ g.vars) : name ∈ f.vars := by
  by_cases hk : k = 0
  · rw [scale, if_pos hk, Attempt.pure_eq_ok] at h
    rw [← h] at hname
    cases hname
  · exact vars_scale hk h ▸ hname

/-- A constant form is one in which no variable occurs. -/
theorem isConstant_iff {f : Affine} : f.isConstant = true ↔ f.vars = [] :=
  List.isEmpty_iff.trans List.map_eq_nil_iff.symm

/-- Whether a form is constant depends on its variables alone. -/
theorem isConstant_congr {f g : Affine} (h : g.vars = f.vars) : g.isConstant = f.isConstant := by
  rw [Bool.eq_iff_iff, isConstant_iff, isConstant_iff, h]

/-- A negation is constant where the form is. -/
theorem isConstant_neg {f g : Affine} (h : f.neg = .ok g) : g.isConstant = f.isConstant :=
  isConstant_congr (vars_scale (by decide) h)

/-- A variable occurs in a multiple of itself alone. -/
theorem of_mem_vars_term {name other : String} {c : Int} (h : other ∈ (term name c).vars) :
    other = name := by
  unfold term at h
  split at h
  · cases h
  · rw [vars, SortedMap.mem_keys, SortedMap.contains_insert, Bool.or_eq_true, beq_iff_eq] at h
    exact h.resolve_right (by simp)

/-- Which variables a sum has: those of both forms, without ones that may cancel. -/
theorem mem_vars_add {f g s : Affine} {name : String} (h : f.add g = .ok s) :
    (name ∈ s.vars → name ∈ f.vars ∨ name ∈ g.vars) ∧
      (name ∈ f.vars → name ∉ g.vars → name ∈ s.vars) := by
  unfold add at h
  simp only [Attempt.bind_eq_ok, Attempt.pure_eq_ok] at h
  obtain ⟨coeffs, hcoeffs, _, -, rfl⟩ := h
  unfold vars
  rw [SortedMap.keys.eq_1 g.coeffs]
  apply Attempt.foldlM_induction (P := fun done (coeffs : SortedMap String Int) =>
    (name ∈ coeffs.keys → name ∈ f.coeffs.keys ∨ name ∈ done.map Prod.fst) ∧
      (name ∈ f.coeffs.keys → name ∉ done.map Prod.fst → name ∈ coeffs.keys)) _ _ hcoeffs
  · simp
  · rintro done coeffs ⟨other, c⟩ next - ⟨hsub, hkeep⟩ hnext
    unfold addTerm at hnext
    simp only [Attempt.bind_eq_ok, Attempt.pure_eq_ok] at hnext
    obtain ⟨total, -, rfl⟩ := hnext
    simp only [SortedMap.mem_keys, List.map_append, List.mem_append, List.map_singleton,
      List.mem_singleton] at hsub hkeep ⊢
    split
    · simp only [SortedMap.contains_erase, Bool.and_eq_true, bne_iff_ne]
      tauto
    · simp only [SortedMap.contains_insert, Bool.or_eq_true, beq_iff_eq]
      tauto

/-- Replacing a variable keeps the others that the form in its place lacks. -/
theorem mem_vars_substitute {f value g : Affine} {name other : String}
    (h : f.substitute name value = .ok g) (hother : other ∈ f.vars) (hne : other ≠ name)
    (hvalue : other ∉ value.vars) : other ∈ g.vars := by
  unfold substitute at h
  split at h
  · rw [Attempt.pure_eq_ok] at h
    exact h ▸ hother
  · next hcoeff =>
    rw [Attempt.bind_eq_ok] at h
    obtain ⟨scaled, hscaled, h⟩ := h
    rw [← vars_scale hcoeff hscaled] at hvalue
    refine (mem_vars_add h).2 ?_ hvalue
    rw [vars, SortedMap.mem_keys] at hother ⊢
    rw [without, SortedMap.contains_erase, hother, Bool.and_true, bne_iff_ne]
    exact hne

/-! ## Forms without stored zeros -/

/-- Whether no coefficient is stored that is zero. -/
def Proper (f : Affine) : Prop := ∀ name, f.coeffs.get? name ≠ some 0

/-- A form stores no zeros exactly if none of its entries is one. -/
theorem proper_iff {f : Affine} : f.Proper ↔ ∀ e ∈ f.coeffs.entries, e.2 ≠ 0 := by
  constructor
  · rintro hf ⟨name, c⟩ he rfl
    exact hf name (SortedMap.mem_entries.mp he)
  · intro h name hname
    exact h (name, 0) (SortedMap.mem_entries.mpr hname) rfl

instance (f : Affine) : Decidable f.Proper := decidable_of_iff _ proper_iff.symm

/-- A variable that is not listed has no coefficient. -/
theorem coeff_of_not_mem_vars {f : Affine} {name : String} (h : name ∉ f.vars) :
    f.coeff name = 0 := by
  rw [vars, SortedMap.mem_keys, SortedMap.contains_iff, not_exists] at h
  rw [coeff, SortedMap.getD, Option.eq_none_iff_forall_ne_some.mpr h]
  rfl

/-- The variables of a form without stored zeros are those with a coefficient. -/
theorem mem_vars_iff {f : Affine} (hf : f.Proper) {name : String} :
    name ∈ f.vars ↔ f.coeff name ≠ 0 := by
  rw [vars, SortedMap.mem_keys, SortedMap.contains_iff, coeff, SortedMap.getD]
  have hname := hf name
  cases h : f.coeffs.get? name with
  | none => simp
  | some c =>
    rw [h] at hname
    simpa using hname

/-- A form without stored zeros that has no coefficient is constant. -/
theorem isConstant_of_coeff {f : Affine} (hf : f.Proper) (h : ∀ name, f.coeff name = 0) :
    f.isConstant = true := by
  rw [isConstant_iff, List.eq_nil_iff_forall_not_mem]
  intro name hname
  exact (mem_vars_iff hf).mp hname (h name)

theorem proper_const (c : Int) : (const c).Proper := fun _ h => by cases h

theorem proper_term (name : String) (c : Int) : (term name c).Proper := by
  unfold term
  split
  · exact proper_const 0
  · next hc =>
    intro other h
    rw [SortedMap.get?_insert] at h
    split at h
    · exact hc (Option.some.inj h)
    · rw [SortedMap.get?_empty] at h
      cases h

theorem proper_var (name : String) : (var name).Proper := proper_term name 1

theorem proper_without {f : Affine} (hf : f.Proper) (name : String) : (f.without name).Proper := by
  intro other h
  unfold without at h
  rw [SortedMap.get?_erase] at h
  split at h
  · cases h
  · exact hf other h

theorem proper_scale {f g : Affine} {k : Int} (hf : f.Proper) (h : f.scale k = .ok g) :
    g.Proper := by
  unfold scale scaleCoeffs at h
  split at h
  · rw [Attempt.pure_eq_ok] at h
    exact h ▸ proper_const 0
  · next hk =>
    simp only [Attempt.bind_eq_ok, Attempt.pure_eq_ok] at h
    obtain ⟨coeffs, hcoeffs, _, -, rfl⟩ := h
    split at hcoeffs
    · rw [Attempt.pure_eq_ok] at hcoeffs
      subst hcoeffs
      intro name hname
      rw [SortedMap.get?_mapValues, Option.map_eq_some_iff] at hname
      obtain ⟨c, hc, hzero⟩ := hname
      rcases mul_eq_zero.mp hzero with rfl | hk'
      · exact hf name hc
      · exact hk hk'
    · cases hcoeffs

theorem proper_add {f g s : Affine} (hf : f.Proper) (h : f.add g = .ok s) : s.Proper := by
  unfold add at h
  simp only [Attempt.bind_eq_ok, Attempt.pure_eq_ok] at h
  obtain ⟨coeffs, hcoeffs, _, -, rfl⟩ := h
  apply Attempt.foldlM_induction
    (P := fun _ (coeffs : SortedMap String Int) => ∀ name, coeffs.get? name ≠ some 0) hf _ hcoeffs
  rintro _ coeffs ⟨name, c⟩ next _ hcoeffs hnext other
  unfold addTerm at hnext
  simp only [Attempt.bind_eq_ok, Attempt.pure_eq_ok] at hnext
  obtain ⟨total, -, rfl⟩ := hnext
  split
  · rw [SortedMap.get?_erase]
    split
    · simp
    · exact hcoeffs other
  · next htotal =>
    rw [SortedMap.get?_insert]
    split
    · simpa using htotal
    · exact hcoeffs other

theorem proper_substitute {f value g : Affine} {name : String} (hf : f.Proper)
    (h : f.substitute name value = .ok g) : g.Proper := by
  unfold substitute at h
  split at h
  · rw [Attempt.pure_eq_ok] at h
    exact h ▸ hf
  · rw [Attempt.bind_eq_ok] at h
    obtain ⟨scaled, -, h⟩ := h
    exact proper_add (proper_without hf name) h

/-! ## The common divisor of the coefficients -/

/-- The content of a form divides every coefficient. -/
theorem content_dvd {f : Affine} {g : Nat} (h : f.content = .ok g) :
    ∀ e ∈ f.coeffs.entries, (g : Int) ∣ e.2 := by
  unfold content SortedMap.values at h
  have hall : ∀ c ∈ f.coeffs.entries.map Prod.snd, (g : Int) ∣ c := by
    apply Attempt.foldlM_induction (P := fun done (g : Nat) => ∀ c ∈ done, (g : Int) ∣ c) _ _ h
    · simp
    · intro done g c next _ hdone hnext
      simp only [Attempt.bind_eq_ok, Attempt.pure_eq_ok] at hnext
      obtain ⟨_, _, rfl⟩ := hnext
      intro d hd
      rcases List.mem_append.mp hd with hd | hd
      · exact (Int.natCast_dvd_natCast.mpr (Nat.gcd_dvd_left g c.natAbs)).trans (hdone d hd)
      · rw [List.mem_singleton.mp hd]
        exact Int.natCast_dvd.mpr (Nat.gcd_dvd_right g c.natAbs)
  intro e he
  exact hall e.2 (List.mem_map_of_mem he)

end LoopKernel.Affine
