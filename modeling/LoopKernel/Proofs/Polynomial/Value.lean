import LoopKernel.Polynomial.Basic
import LoopKernel.Proofs.Checked
import LoopKernel.Proofs.Number.Fraction
import LoopKernel.Proofs.SortedMap
import Mathlib.Algebra.BigOperators.Ring.List
import Mathlib.Algebra.Order.Ring.Rat
import Mathlib.Tactic.Ring

/-!
# Values of polynomials

The value of a polynomial where every variable has a rational value. Each operation on polynomials
is the same operation on values.
-/

namespace LoopKernel

namespace Monomial

instance : Std.LawfulEqCmp compareFactors where
  eq_of_compare {a b} h := by
    obtain ⟨hname, hexponent⟩ := Ordering.then_eq_eq.mp h
    exact Prod.ext (Std.LawfulEqOrd.eq_of_compare hname) (Std.LawfulEqOrd.eq_of_compare hexponent)

instance : Std.LawfulEqOrd Monomial where
  compare_self {a} := @Std.ReflCmp.compare_self _ (List.compareLex compareFactors) _ a.entries
  eq_of_compare {a b} h := SortedMap.ext
    (@Std.LawfulEqCmp.eq_of_compare _ (List.compareLex compareFactors) _ a.entries b.entries h)

/-- The product of the powers. -/
def value (env : String → Rat) (a : Monomial) : Rat :=
  (a.entries.map fun e => env e.1 ^ e.2).prod

variable (env : String → Rat)

/-- The empty product. -/
@[simp] theorem value_one : value env one = 1 := rfl

/-- A single power set in a monomial. -/
theorem value_insert (a : Monomial) (name : String) (exponent : Nat) :
    value env (a.insert name exponent) = env name ^ exponent * value env (a.erase name) := by
  unfold value
  rw [((SortedMap.perm_entries_insert a name exponent).map _).prod_eq, List.map_cons,
    List.prod_cons]

/-- A monomial is the power of one variable times the rest. -/
theorem value_erase (a : Monomial) (name : String) :
    value env a = env name ^ a.getD name 0 * value env (a.erase name) := by
  unfold SortedMap.getD
  cases h : a.get? name with
  | none => rw [SortedMap.erase_of_get?_none h, Option.getD_none, pow_zero, one_mul]
  | some exponent =>
    unfold value
    rw [((SortedMap.perm_entries_erase h).map _).prod_eq, List.map_cons, List.prod_cons,
      Option.getD_some]

/-- A variable. -/
@[simp] theorem value_var (name : String) : value env (var name) = env name := by
  unfold var
  rw [value_insert, pow_one, SortedMap.erase_of_get?_none (SortedMap.get?_empty name)]
  exact mul_one _

/-- Products of monomials. -/
theorem value_mul {a b c : Monomial} (h : a.mul b = .ok c) :
    value env c = value env a * value env b := by
  unfold mul at h
  apply Attempt.foldlM_induction (P := fun done (m : Monomial) =>
    value env m = value env a * (done.map fun e => env e.1 ^ e.2).prod) _ _ h
  · simp
  · rintro done m ⟨name, exponent⟩ next _ hdone hstep
    simp only [Attempt.bind_eq_ok, checkUnsigned_eq_ok, Attempt.pure_eq_ok] at hstep
    obtain ⟨_, ⟨_, rfl⟩, rfl⟩ := hstep
    rw [value_insert, pow_add, List.map_append, List.prod_append, ← mul_assoc, ← hdone,
      value_erase env m name]
    simp only [List.map_cons, List.map_nil, List.prod_cons, List.prod_nil]
    ring

end Monomial

namespace Polynomial

/-- The sum of the coefficients times the values of their monomials. -/
def value (env : String → Rat) (p : Polynomial) : Rat :=
  (p.terms.entries.map fun e => e.2 * e.1.value env).sum

variable (env : String → Rat)

/-- The zero polynomial. -/
@[simp] theorem value_zero : value env zero = 0 := rfl

/-- One term set in a polynomial. -/
private theorem value_insert (terms : SortedMap Monomial Rat) (monomial : Monomial) (c : Rat) :
    value env ⟨terms.insert monomial c⟩ =
      c * monomial.value env + value env ⟨terms.erase monomial⟩ := by
  unfold value
  rw [((SortedMap.perm_entries_insert terms monomial c).map _).sum_eq, List.map_cons,
    List.sum_cons]

/-- A polynomial is one of its terms and the rest. -/
private theorem value_erase (p : Polynomial) (monomial : Monomial) :
    value env p = p.terms.getD monomial 0 * monomial.value env +
      value env ⟨p.terms.erase monomial⟩ := by
  unfold SortedMap.getD
  cases h : p.terms.get? monomial with
  | none => rw [SortedMap.erase_of_get?_none h, Option.getD_none, zero_mul, zero_add]
  | some c =>
    unfold value
    rw [((SortedMap.perm_entries_erase h).map _).sum_eq, List.map_cons, List.sum_cons,
      Option.getD_some]

/-- Adding a term. -/
theorem value_addTerm {p q : Polynomial} {monomial : Monomial} {c : Rat}
    (h : p.addTerm monomial c = .ok q) :
    value env q = value env p + c * monomial.value env := by
  unfold addTerm at h
  split at h
  · next hc =>
    rw [Attempt.pure_eq_ok] at h
    rw [← h, hc, zero_mul, add_zero]
  · rw [Attempt.bind_eq_ok] at h
    obtain ⟨total, htotal, h⟩ := h
    have hsum := Fraction.add_eq_ok htotal
    have hp := value_erase env p monomial
    split at h
    · next hz =>
      rw [Attempt.pure_eq_ok] at h
      have hcancel : p.terms.getD monomial 0 = -c := by
        rw [hz] at hsum
        exact eq_neg_of_add_eq_zero_left hsum.symm
      rw [← h, hp, hcancel]
      ring
    · rw [Attempt.pure_eq_ok] at h
      rw [← h, value_insert, hp, hsum]
      ring

/-- A constant. -/
@[simp] theorem value_constant (c : Rat) : value env (constant c) = c := by
  unfold constant
  split
  · next hc => rw [hc, value_zero]
  · rw [value_insert, Monomial.value_one, mul_one,
      SortedMap.erase_of_get?_none (SortedMap.get?_empty _)]
    exact add_zero c

/-- An integer constant. -/
@[simp] theorem value_ofInt (n : Int) : value env (ofInt n) = n := value_constant env n

/-- A variable. -/
@[simp] theorem value_var (name : String) : value env (var name) = env name := by
  unfold var
  rw [value_insert, Monomial.value_var, one_mul,
    SortedMap.erase_of_get?_none (SortedMap.get?_empty _)]
  exact add_zero _

/-- Adding terms one after the other. -/
private theorem value_foldlM_addTerm {ι : Type} {step : Polynomial → ι → Checked Polynomial}
    {w : ι → Rat} {l : List ι}
    (hstep : ∀ p i q, i ∈ l → step p i = .ok q → value env q = value env p + w i)
    {p q : Polynomial} (h : l.foldlM step p = .ok q) :
    value env q = value env p + (l.map w).sum := by
  apply Attempt.foldlM_induction
    (P := fun done q => value env q = value env p + (done.map w).sum) _ _ h
  · simp
  · intro done p i q hi hdone hq
    rw [hstep p i q hi hq, hdone, List.map_append, List.sum_append, List.map_singleton,
      List.sum_singleton, add_assoc]

/-- Multiples. -/
theorem value_scale {p q : Polynomial} {factor : Rat} (h : p.scale factor = .ok q) :
    value env q = value env p * factor := by
  unfold scale at h
  rw [value_foldlM_addTerm env (w := fun e => e.2 * e.1.value env * factor) _ h, value_zero,
    zero_add, List.sum_map_mul_right, value]
  rintro p ⟨monomial, c⟩ q _ hq
  simp only [Attempt.bind_eq_ok] at hq
  obtain ⟨product, hproduct, hq⟩ := hq
  rw [value_addTerm env hq, Fraction.mul_eq_ok hproduct]
  ring

/-- Sums. -/
theorem value_add {p q r : Polynomial} (h : p.add q = .ok r) :
    value env r = value env p + value env q := by
  unfold add at h
  rw [value_foldlM_addTerm env (w := fun e => e.2 * e.1.value env) _ h]
  · rfl
  · rintro p ⟨monomial, c⟩ q _ hq
    exact value_addTerm env hq

/-- Differences. -/
theorem value_sub {p q r : Polynomial} (h : p.sub q = .ok r) :
    value env r = value env p - value env q := by
  unfold sub at h
  rw [Attempt.bind_eq_ok] at h
  obtain ⟨negated, hneg, h⟩ := h
  rw [value_add env h, value_scale env hneg]
  ring

/-- Products with one term. -/
private theorem value_addScaledTerms {out q r : Polynomial} {monomial : Monomial} {c : Rat}
    (h : out.addScaledTerms q monomial c = .ok r) :
    value env r = value env out + c * monomial.value env * value env q := by
  unfold addScaledTerms at h
  rw [value_foldlM_addTerm env
    (w := fun e => c * monomial.value env * (e.2 * e.1.value env)) _ h, List.sum_map_mul_left]
  · rfl
  · rintro p ⟨monomial', c'⟩ q _ hq
    simp only [Attempt.bind_eq_ok] at hq
    obtain ⟨m, hm, product, hproduct, hq⟩ := hq
    rw [value_addTerm env hq, Fraction.mul_eq_ok hproduct, Monomial.value_mul env hm]
    ring

/-- Products. -/
theorem value_mul {p q r : Polynomial} (h : p.mul q = .ok r) :
    value env r = value env p * value env q := by
  unfold mul at h
  rw [value_foldlM_addTerm env (w := fun e => e.2 * e.1.value env * value env q) _ h, value_zero,
    zero_add, List.sum_map_mul_right]
  · rfl
  · rintro p ⟨monomial, c⟩ r _ hr
    exact value_addScaledTerms env hr

/-- Powers. -/
theorem value_pow {p q : Polynomial} {k : Nat} (h : p.pow k = .ok q) :
    value env q = value env p ^ k := by
  induction k generalizing q with
  | zero =>
    rw [pow, Attempt.pure_eq_ok] at h
    rw [← h, value_ofInt, pow_zero, Int.cast_one]
  | succ k ih =>
    rw [pow, Attempt.bind_eq_ok] at h
    obtain ⟨power, hpower, h⟩ := h
    rw [value_mul env h, ih hpower, pow_succ]

/-! ## Evaluation -/

private theorem mulPower_eq_ok {value : Int} {term r : Rat} {n : Nat}
    (h : mulPower value term n = .ok r) : r = term * (value : Rat) ^ n := by
  induction n generalizing term with
  | zero =>
    rw [mulPower, Attempt.pure_eq_ok] at h
    rw [h, pow_zero, mul_one]
  | succ n ih =>
    rw [mulPower, Attempt.bind_eq_ok] at h
    obtain ⟨next, hnext, h⟩ := h
    rw [ih h, Fraction.mul_eq_ok hnext]
    ring

/-- A factor needs a value for its variable, with whose power the term goes on. -/
theorem evalTerm_cons_eq_ok {given : String → Option Int} {c r : Rat} {name : String}
    {exponent : Nat} {rest : List (String × Nat)} :
    evalTerm given c ((name, exponent) :: rest) = .ok r ↔
      ∃ n term, given name = some n ∧ mulPower n c exponent = .ok term ∧
        evalTerm given term rest = .ok r := by
  rw [evalTerm]
  cases given name <;> simp [Attempt.bind_eq_ok]

private theorem evalTerm_eq_ok {given : String → Option Int}
    (henv : ∀ name n, given name = some n → env name = n) {c r : Rat}
    {factors : List (String × Nat)} (h : evalTerm given c factors = .ok r) :
    r = c * (factors.map fun e => env e.1 ^ e.2).prod := by
  induction factors generalizing c with
  | nil =>
    rw [evalTerm, Attempt.pure_eq_ok] at h
    rw [h, List.map_nil, List.prod_nil, mul_one]
  | cons factor rest ih =>
    obtain ⟨n, term, hn, hterm, h⟩ := evalTerm_cons_eq_ok.mp h
    rw [ih h, mulPower_eq_ok hterm, List.map_cons, List.prod_cons, henv factor.1 n hn]
    ring

/-- Evaluation gives the value. -/
theorem eval_eq_ok {given : String → Option Int}
    (henv : ∀ name n, given name = some n → env name = n) {p : Polynomial} {r : Rat}
    (h : p.eval given = .ok r) : r = value env p := by
  unfold eval at h
  apply Attempt.foldlM_induction
    (P := fun done total => total = (done.map fun e => e.2 * e.1.value env).sum) _ _ h
  · rfl
  · rintro done total ⟨monomial, c⟩ next _ hdone hnext
    simp only [Attempt.bind_eq_ok, Attempt.liftM_eq_ok] at hnext
    obtain ⟨term, hterm, hnext⟩ := hnext
    rw [Fraction.add_eq_ok hnext, hdone, evalTerm_eq_ok env henv hterm, List.map_append,
      List.sum_append, List.map_singleton, List.sum_singleton]
    rfl

end Polynomial

end LoopKernel
