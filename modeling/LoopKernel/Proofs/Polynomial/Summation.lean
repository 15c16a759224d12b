import LoopKernel.Proofs.Polynomial.PowerSum

/-!
# Definite sums are exact

A polynomial is the sum of its coefficients in one variable times the powers of that variable. Its
sum over a range of the variable has the value of the sum over the integers of the range. Where the
bounds are the wrong way round, it is the sum over the integers between them, counted negatively.
-/

namespace LoopKernel

/-- A monomial without a variable does not depend on it. -/
theorem Monomial.value_erase_update (env : String → Rat) (a : Monomial) (name : String) (x : Rat) :
    value (Function.update env name x) (a.erase name) = value env (a.erase name) := by
  unfold value
  congr 1
  apply List.map_congr_left
  rintro ⟨other, exponent⟩ he
  have hget := SortedMap.mem_entries.mp he
  rw [SortedMap.get?_erase] at hget
  have hne : other ≠ name := by
    rintro rfl
    simp at hget
  rw [Function.update_of_ne hne]

namespace Polynomial

variable (env : String → Rat)

/-! ## Coefficients in one variable -/

/-- The sum of `c_k * x ^ k` over a list of coefficients, from power `k` on. -/
def powersValue (x : Rat) : Nat → List Polynomial → Rat
  | _, [] => 0
  | k, c :: rest => value env c * x ^ k + powersValue x (k + 1) rest

/-- A term added to the coefficient of a power. -/
theorem powersValue_addToPower {monomial : Monomial} {c : Rat} {x : Rat} {j k : Nat}
    {l r : List Polynomial} (h : addToPower monomial c k l = .ok r) :
    powersValue env x j r = powersValue env x j l + c * monomial.value env * x ^ (j + k) := by
  induction k, l using addToPower.induct generalizing j r with
  | case1 =>
    simp only [addToPower, Attempt.bind_eq_ok, Attempt.pure_eq_ok] at h
    obtain ⟨p, hp, rfl⟩ := h
    simp only [powersValue, value_addTerm env hp, value_zero]
    ring
  | case2 p rest =>
    simp only [addToPower, Attempt.bind_eq_ok, Attempt.pure_eq_ok] at h
    obtain ⟨q, hq, rfl⟩ := h
    simp only [powersValue, value_addTerm env hq]
    ring
  | case3 k ih =>
    simp only [addToPower, Attempt.bind_eq_ok, Attempt.pure_eq_ok] at h
    obtain ⟨rest', hrest, rfl⟩ := h
    simp only [powersValue, ih hrest, value_zero, Nat.succ_eq_add_one]
    ring
  | case4 k p rest ih =>
    simp only [addToPower, Attempt.bind_eq_ok, Attempt.pure_eq_ok] at h
    obtain ⟨rest', hrest, rfl⟩ := h
    simp only [powersValue, ih hrest, Nat.succ_eq_add_one]
    ring

/-- A polynomial is the sum of its coefficients in a variable times the powers of the variable. -/
theorem powersValue_coefficientsIn {p : Polynomial} {name : String} {cs : List Polynomial}
    (h : p.coefficientsIn name = .ok cs) (x : Rat) :
    powersValue env x 0 cs = value (Function.update env name x) p := by
  unfold coefficientsIn at h
  have hsum : powersValue env x 0 cs = (p.terms.entries.map fun e =>
      e.2 * Monomial.value env (e.1.erase name) * x ^ e.1.getD name 0).sum := by
    apply Attempt.foldlM_induction (P := fun done cs => powersValue env x 0 cs =
      (done.map fun e => e.2 * Monomial.value env (e.1.erase name) * x ^ e.1.getD name 0).sum) _ _ h
    · rfl
    · rintro done cs ⟨monomial, c⟩ next _ hdone hnext
      rw [powersValue_addToPower env hnext, hdone, List.map_append, List.sum_append,
        List.map_singleton, List.sum_singleton, Nat.zero_add]
  rw [hsum, value]
  congr 1
  apply List.map_congr_left
  rintro ⟨monomial, c⟩ _
  simp only
  rw [Monomial.value_erase (Function.update env name x) monomial name,
    Monomial.value_erase_update, Function.update_self]
  ring

/-! ## Power sums -/

/-- A list of terms with binomial and Bernoulli coefficients. -/
private theorem value_addBernoulliTerms {k j : Nat} {n out r : Polynomial} {numbers : Nat → Rat}
    {l : List Nat} (hl : l = List.range' j l.length)
    (h : addBernoulliTerms k n out j (l.map numbers) = .ok r) :
    value env r = value env out +
      (l.map fun i => (k + 1).choose i * numbers i * value env n ^ (k + 1 - i)).sum := by
  induction l generalizing j out with
  | nil =>
    rw [List.map_nil, addBernoulliTerms, Attempt.pure_eq_ok] at h
    rw [h, List.map_nil, List.sum_nil, add_zero]
  | cons i rest ih =>
    rw [List.length_cons, List.range'_succ, List.cons.injEq] at hl
    obtain ⟨rfl, hrest⟩ := hl
    simp only [List.map_cons, addBernoulliTerms, Attempt.bind_eq_ok] at h
    obtain ⟨weight, hweight, c, hc, h⟩ := h
    have hvalue : c = (k + 1).choose i * numbers i := by
      rw [Fraction.mul_eq_ok hc, binomial64_eq_ok hweight, Int.cast_natCast]
    rw [List.map_cons, List.sum_cons, ← hvalue]
    split at h
    · next hz => rw [ih hrest h, hz, zero_mul, zero_add]
    · simp only [Attempt.bind_eq_ok] at h
      obtain ⟨power, hpower, term, hterm, next, hnext, h⟩ := h
      rw [ih hrest h, value_add env hnext, value_scale env hterm, value_pow env hpower]
      ring

private theorem eval_bernoulli (k : Nat) (n : Rat) :
    (Polynomial.bernoulli (k + 1)).eval n =
      ∑ i ∈ Finset.range (k + 1), ((k + 1).choose i : Rat) * bernoulli i * n ^ (k + 1 - i) +
        bernoulli (k + 1) := by
  rw [Polynomial.bernoulli, Polynomial.eval_finsetSum, Finset.sum_range_succ]
  simp only [Polynomial.eval_monomial, Nat.choose_self, Nat.cast_one, Nat.sub_self, pow_zero,
    mul_one]
  congr 1
  apply Finset.sum_congr rfl
  intro i _
  ring

private theorem sum_bernoulli'_terms (k : Nat) (n : Rat) :
    ∑ i ∈ Finset.range (k + 1), ((k + 1).choose i : Rat) * bernoulli' i * n ^ (k + 1 - i) =
      (Polynomial.bernoulli (k + 1)).eval n - bernoulli (k + 1) +
        if k = 0 then 0 else (k + 1) * n ^ k := by
  have hnumber : ∀ i, bernoulli' i = bernoulli i + if i = 1 then 1 else 0 := by
    intro i
    split
    · next hi =>
      rw [hi, bernoulli'_one, bernoulli_one]
      norm_num
    · next hi => rw [bernoulli_eq_bernoulli'_of_ne_one hi, add_zero]
  rw [eval_bernoulli, add_sub_cancel_right]
  simp only [hnumber, mul_add, add_mul, Finset.sum_add_distrib]
  congr 1
  simp only [mul_ite, ite_mul, mul_one, mul_zero, zero_mul, Finset.sum_ite_eq', Finset.mem_range,
    Nat.choose_one_right, Nat.add_sub_cancel]
  cases k with
  | zero => simp
  | succ k =>
    simp only [Nat.lt_add_left_iff_pos, Nat.succ_pos, if_true, Nat.succ_ne_zero, if_false]
    push_cast
    ring

/-- A power sum has the value of the sum of powers. -/
theorem value_powerSum {k : Nat} {n r : Polynomial} (h : powerSum k n = .ok r) :
    value env r = powersUpTo k (value env n) := by
  unfold powerSum at h
  simp only [Attempt.bind_eq_ok] at h
  obtain ⟨numbers, hnumbers, total, htotal, inverse, hinverse, out, hout, h⟩ := h
  rw [bernoulliPlus_eq_ok hnumbers] at htotal
  have hsum := value_addBernoulliTerms env
    (by rw [List.length_range, List.range_eq_range']) htotal
  rw [value_zero, zero_add, sum_map_range, sum_bernoulli'_terms] at hsum
  obtain ⟨-, hinv⟩ := Fraction.make_eq_ok hinverse
  have hscaled : value env out = value env total / (k + 1) := by
    rw [value_scale env hout, hinv, Rat.divInt_eq_div]
    push_cast
    ring
  have hne : (k : Rat) + 1 ≠ 0 := by positivity
  have hnext := Polynomial.bernoulli_eval_one_add (k + 1) (value env n)
  rw [Nat.add_sub_cancel] at hnext
  rw [powersUpTo, add_comm (value env n) 1, hnext]
  split at h
  · next hk =>
    rw [value_add env h, hscaled, hsum, value_ofInt]
    subst k
    simp
    ring
  · next hk =>
    rw [Attempt.pure_eq_ok] at h
    rw [← h, hscaled, hsum, if_neg hk]
    push_cast
    ring

/-! ## Sums over a range -/

/-- The sum of `c_k` times the `k`-th powers up to `n` over a list of coefficients, from power `k`
on. -/
noncomputable def powersSum (n : Rat) : Nat → List Polynomial → Rat
  | _, [] => 0
  | k, c :: rest => value env c * powersUpTo k n + powersSum n (k + 1) rest

/-- The values at the integers of a range add up to a difference of two sums of powers. -/
theorem sum_powersValue {k : Nat} {cs : List Polynomial} {lo hi : Int} (h : lo ≤ hi + 1) :
    ∑ x ∈ Finset.Icc lo hi, powersValue env x k cs =
      powersSum env hi k cs - powersSum env (lo - 1) k cs := by
  induction cs generalizing k with
  | nil => simp [powersValue, powersSum]
  | cons c rest ih =>
    simp only [powersValue, powersSum]
    rw [Finset.sum_add_distrib, ← Finset.mul_sum, sum_powers k h, ih]
    ring

/-- The sums of the terms of a polynomial, power by power. -/
private theorem value_addRangeSums {below upper out r : Polynomial} {k : Nat}
    {cs : List Polynomial} (h : addRangeSums below upper out k cs = .ok r) :
    value env r = value env out +
      (powersSum env (value env upper) k cs - powersSum env (value env below) k cs) := by
  induction cs generalizing k out with
  | nil =>
    rw [addRangeSums, Attempt.pure_eq_ok] at h
    rw [h]
    simp [powersSum]
  | cons c rest ih =>
    unfold addRangeSums at h
    simp only [powersSum]
    split at h
    · next hz =>
      have hc : value env c = 0 := by
        unfold value
        rw [List.isEmpty_iff.mp hz]
        rfl
      rw [ih h, hc]
      ring
    · simp only [Attempt.bind_eq_ok] at h
      obtain ⟨high, hhigh, low, hlow, range, hsub, product, hproduct, next, hnext, h⟩ := h
      rw [ih h, value_add env hnext, value_mul env hproduct, value_sub env hsub,
        value_powerSum env hhigh, value_powerSum env hlow]
      ring

section SumOver

variable {p lower upper r : Polynomial} {name : String} {lo hi : Int}
  (hlower : value env lower = lo) (hupper : value env upper = hi)

include hlower hupper

/-- The sum of a polynomial over a range is a difference of two sums of powers, whichever bound is
larger. -/
private theorem value_sumOver_eq_sub (h : p.sumOver name lower upper = .ok r) :
    ∃ cs, p.coefficientsIn name = .ok cs ∧
      value env r = powersSum env hi 0 cs - powersSum env (lo - 1) 0 cs := by
  unfold sumOver at h
  simp only [Attempt.bind_eq_ok] at h
  obtain ⟨below, hbelow, cs, hcs, h⟩ := h
  refine ⟨cs, hcs, ?_⟩
  rw [value_addRangeSums env h, value_sub env hbelow, hlower, hupper, value_zero, value_ofInt,
    zero_add, Int.cast_one]

/-- The sum of a polynomial over a range has the value of the sum over the integers of the range,
as long as the range does not end before the integer in front of it. -/
theorem value_sumOver (hrange : lo ≤ hi + 1) (h : p.sumOver name lower upper = .ok r) :
    value env r = ∑ x ∈ Finset.Icc lo hi, value (Function.update env name (x : Rat)) p := by
  obtain ⟨cs, hcs, hr⟩ := value_sumOver_eq_sub env hlower hupper h
  rw [hr, ← sum_powersValue env hrange]
  apply Finset.sum_congr rfl
  intro x _
  exact powersValue_coefficientsIn env hcs x

/-- Over a range that ends earlier, the sum has the value of the sum over the integers that are left
out, counted negatively. -/
theorem value_sumOver_backward (hrange : hi + 1 ≤ lo) (h : p.sumOver name lower upper = .ok r) :
    value env r =
      -∑ x ∈ Finset.Icc (hi + 1) (lo - 1), value (Function.update env name (x : Rat)) p := by
  obtain ⟨cs, hcs, hr⟩ := value_sumOver_eq_sub env hlower hupper h
  have hsum : ∑ x ∈ Finset.Icc (hi + 1) (lo - 1), powersValue env x 0 cs =
      powersSum env (lo - 1) 0 cs - powersSum env hi 0 cs := by
    rw [sum_powersValue env (by omega)]
    push_cast
    rw [add_sub_cancel_right]
  simp only [← powersValue_coefficientsIn env hcs]
  rw [hr, hsum, neg_sub]

end SumOver

end Polynomial

end LoopKernel
