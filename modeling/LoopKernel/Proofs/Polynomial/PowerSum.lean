import LoopKernel.Polynomial.Summation
import LoopKernel.Proofs.Polynomial.Value
import Mathlib.Data.Int.SuccPred
import Mathlib.NumberTheory.BernoulliPolynomials

/-!
# Sums of powers

The Bernoulli numbers that are computed are those of Bernoulli, and a power sum in closed form is
the difference of two values of a Bernoulli polynomial. It grows by `n ^ k` from `n - 1` to `n`.
-/

namespace LoopKernel

/-- Binomial coefficients are exact. -/
theorem binomial64_eq_ok {n k : Nat} {c : Int} (h : binomial64 n k = .ok c) : c = n.choose k := by
  induction k generalizing c with
  | zero =>
    rw [binomial64, Attempt.pure_eq_ok] at h
    rw [← h, Nat.choose_zero_right, Nat.cast_one]
  | succ k ih =>
    simp only [binomial64, Attempt.bind_eq_ok, WordRange.check_eq_ok, Attempt.pure_eq_ok] at h
    obtain ⟨r, hr, _, ⟨_, rfl⟩, rfl⟩ := h
    rw [ih hr]
    have hstep : (n.choose k : Int) * (n - k) = n.choose (k + 1) * (k + 1) := by
      by_cases hk : k ≤ n
      · have := Nat.choose_succ_right_eq n k
        rw [← Nat.cast_sub hk]
        exact_mod_cast this.symm
      · rw [Nat.choose_eq_zero_of_lt (by omega), Nat.choose_eq_zero_of_lt (by omega)]
        simp
    rw [hstep]
    exact Int.mul_ediv_cancel _ (by omega)

/-- Weighted sums of Bernoulli numbers. -/
theorem weightedBernoulli_eq_ok {m j : Nat} {numbers : Nat → Rat} {l : List Nat} {total r : Rat}
    (hl : l = List.range' j l.length)
    (h : weightedBernoulli m j (l.map numbers) total = .ok r) :
    r = total + (l.map fun i => (m + 1).choose i * numbers i).sum := by
  induction l generalizing j total with
  | nil =>
    rw [List.map_nil, weightedBernoulli, Attempt.pure_eq_ok] at h
    rw [h, List.map_nil, List.sum_nil, add_zero]
  | cons i rest ih =>
    rw [List.length_cons, List.range'_succ, List.cons.injEq] at hl
    obtain ⟨rfl, hrest⟩ := hl
    simp only [List.map_cons, weightedBernoulli, Attempt.bind_eq_ok] at h
    obtain ⟨weight, hweight, term, hterm, next, hnext, h⟩ := h
    rw [ih hrest h, Fraction.add_eq_ok hnext, Fraction.mul_eq_ok hterm,
      binomial64_eq_ok hweight, List.map_cons, List.sum_cons]
    push_cast
    ring

/-- The sum over a list of indices. -/
theorem sum_map_range (f : Nat → Rat) (n : Nat) :
    ((List.range n).map f).sum = ∑ i ∈ Finset.range n, f i := by
  induction n with
  | zero => rfl
  | succ n ih =>
    rw [List.range_succ, List.map_append, List.sum_append, ih, Finset.sum_range_succ]
    simp

/-- The numbers computed are the Bernoulli numbers. -/
theorem bernoulliMinus_eq_ok {n : Nat} {numbers : List Rat} (h : bernoulliMinus n = .ok numbers) :
    numbers = (List.range (n + 1)).map bernoulli := by
  induction n generalizing numbers with
  | zero =>
    rw [bernoulliMinus, Attempt.pure_eq_ok] at h
    rw [← h]
    simp
  | succ n ih =>
    simp only [bernoulliMinus, Attempt.bind_eq_ok, Attempt.pure_eq_ok] at h
    obtain ⟨earlier, hearlier, total, htotal, negated, hnegated, quotient, hquotient, rfl⟩ := h
    rw [ih hearlier] at htotal ⊢
    have hsum := weightedBernoulli_eq_ok (by rw [List.length_range, List.range_eq_range']) htotal
    rw [zero_add, sum_map_range] at hsum
    have hzero := sum_bernoulli (n + 2)
    rw [Finset.sum_range_succ, if_neg (by omega), Nat.choose_succ_self_right] at hzero
    have hne : ((n : Rat) + 2) ≠ 0 := by positivity
    have hlast : -(∑ i ∈ Finset.range (n + 1), ((n + 1 + 1).choose i : Rat) * bernoulli i) /
        (((n : Int) + 2 : Int) : Rat) = bernoulli (n + 1) := by
      push_cast at hzero ⊢
      rw [div_eq_iff hne]
      linarith
    have hrange : List.range (n + 1 + 1) = List.range (n + 1) ++ [n + 1] := List.range_succ
    rw [hrange, List.map_append, List.map_singleton, Fraction.div_eq_ok hquotient,
      Fraction.neg_eq_ok hnegated, hsum, ← hlast]
    norm_cast

/-- The numbers with the other sign at index one. -/
theorem bernoulliPlus_eq_ok {n : Nat} {numbers : List Rat} (h : bernoulliPlus n = .ok numbers) :
    numbers = (List.range (n + 1)).map bernoulli' := by
  unfold bernoulliPlus at h
  rw [Attempt.bind_eq_ok] at h
  obtain ⟨minus, hminus, h⟩ := h
  rw [bernoulliMinus_eq_ok hminus] at h
  cases n with
  | zero =>
    simp only [Nat.zero_add, List.range_one, List.map_singleton, Attempt.pure_eq_ok] at h
    rw [← h]
    simp
  | succ n =>
    rw [List.range_eq_range', List.range'_succ, List.range'_succ] at h ⊢
    simp only [List.map_cons, Attempt.pure_eq_ok] at h
    rw [← h, List.map_cons, List.map_cons, bernoulli_zero, bernoulli'_zero, Nat.zero_add,
      bernoulli'_one]
    have hhalf : mkRat 1 2 = 1 / 2 := Rat.mkRat_eq_div 1 2
    rw [hhalf]
    congr 2
    apply List.map_congr_left
    intro i hi
    rw [List.mem_range'] at hi
    exact bernoulli_eq_bernoulli'_of_ne_one (by omega)

/-- The sum of the `k`-th powers of the numbers from zero to `n`, extended to all rationals. -/
noncomputable def powersUpTo (k : Nat) (n : Rat) : Rat :=
  ((Polynomial.bernoulli (k + 1)).eval (n + 1) - bernoulli (k + 1)) / (k + 1)

/-- The power sum grows by one power. -/
theorem powersUpTo_sub (k : Nat) (n : Rat) : powersUpTo k n - powersUpTo k (n - 1) = n ^ k := by
  have hne : (k : Rat) + 1 ≠ 0 := by positivity
  have hstep := Polynomial.bernoulli_eval_one_add (k + 1) n
  unfold powersUpTo
  rw [sub_add_cancel, add_comm n 1, hstep, Nat.add_sub_cancel]
  push_cast
  field_simp
  ring

/-- Powers of consecutive integers add up to a difference of power sums. -/
theorem sum_powers (k : Nat) {lo hi : Int} (h : lo ≤ hi + 1) :
    ∑ x ∈ Finset.Icc lo hi, (x : Rat) ^ k = powersUpTo k hi - powersUpTo k (lo - 1) := by
  have general : ∀ count : Nat, ∑ x ∈ Finset.Icc lo (lo + count - 1), (x : Rat) ^ k =
      powersUpTo k (lo + count - 1 : Int) - powersUpTo k (lo - 1) := by
    intro count
    induction count with
    | zero => simp
    | succ count ih =>
      have hlast : lo + (count + 1 : Nat) - 1 = lo + count - 1 + 1 := by omega
      rw [hlast, ← Finset.insert_Icc_right_eq_Icc_add_one (by omega), Finset.sum_insert (by simp),
        ih]
      have hstep := powersUpTo_sub k ((lo + count - 1 + 1 : Int) : Rat)
      push_cast at hstep ⊢
      rw [add_sub_cancel_right] at hstep
      linarith
  have hcount := general (hi + 1 - lo).toNat
  have hhi : lo + ((hi + 1 - lo).toNat : Int) - 1 = hi := by omega
  rwa [hhi] at hcount

end LoopKernel
