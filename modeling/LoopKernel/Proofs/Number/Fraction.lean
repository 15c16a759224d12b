import LoopKernel.Proofs.Checked
import LoopKernel.Number.Fraction
import Mathlib.Algebra.Order.Ring.Int
import Mathlib.Data.Rat.Defs
import Mathlib.Order.Compare
import Mathlib.Tactic.Ring

/-!
# Fractions are exact

Operations on fractions that do not overflow have the results of rational arithmetic, and the order
is that of the rational numbers. The parts of every fraction that is built have negations within the
words, so negations never overflow.
-/

namespace LoopKernel.Fraction

variable {p q r : Rat} {num den n m : Int}

/-! ## Lowest terms -/

/-- Whether an integer and its negation are words. -/
def Negatable (n : Int) : Prop := n.natAbs < 2 ^ 127

instance (n : Int) : Decidable (Negatable n) := inferInstanceAs (Decidable (_ < _))

theorem negatable_iff :
    Negatable n ↔ WordRange.signed128.Holds n ∧ n ≠ WordRange.signed128.least := by
  simp only [Negatable, WordRange.Holds, WordRange.signed128]
  omega

theorem checkNegatable_eq_ok_iff : checkNegatable n = .ok m ↔ Negatable n ∧ n = m := by
  unfold checkNegatable
  rw [negatable_iff]
  split
  · next h => simp [h]
  · next h => simp [WordRange.check_eq_ok, h]

theorem eq_iff_parts : p = q ↔ p.num = q.num ∧ p.den = q.den :=
  ⟨fun h => h ▸ ⟨rfl, rfl⟩, fun h => Rat.ext h.1 h.2⟩

/-- Lowest terms are in the proportion of the parts. -/
theorem reducedNum_mul (h : den ≠ 0) :
    reducedNum num den * den = num * reducedDen num den := by
  have hdivisor : (divisor num den : Int) ≠ 0 := by
    rw [divisor_eq_gcd h]
    exact Int.natCast_ne_zero.mpr (Int.gcd_ne_zero_right h)
  have hnum : reducedNum num den * divisor num den = sign den * num :=
    Int.tdiv_mul_cancel (divisor_eq_gcd h num ▸ (Int.gcd_dvd_left num den).mul_left _)
  have hden : reducedDen num den * divisor num den = sign den * den :=
    Int.tdiv_mul_cancel (divisor_eq_gcd h num ▸ (Int.gcd_dvd_right num den).mul_left _)
  apply mul_right_cancel₀ hdivisor
  calc
    reducedNum num den * den * divisor num den = sign den * num * den := by rw [← hnum]; ring
    _ = num * reducedDen num den * divisor num den := by rw [mul_assoc num, hden]; ring

/-- Lowest terms do not change the value. -/
theorem reduce_eq_divInt (h : den ≠ 0) : reduce num den h = Rat.divInt num den := by
  have hpos := reducedDen_pos h num
  rw [reduce, Rat.mk_eq_divInt, Int.natAbs_of_nonneg hpos.le,
    Rat.divInt_eq_divInt_iff hpos.ne' h, reducedNum_mul h]

/-- A fraction is made of a numerator and a denominator that have negations, unless the denominator
is zero. -/
theorem make_eq_ok_iff :
    make num den = .ok r ↔ Negatable num ∧ Negatable den ∧ den ≠ 0 ∧ r = Rat.divInt num den := by
  unfold make
  simp only [Attempt.bind_eq_ok, checkNegatable_eq_ok_iff, and_assoc, exists_and_left,
    exists_eq_left']
  refine and_congr_right fun _ => and_congr_right fun _ => ?_
  split
  · next h => simp [h]
  · next h => rw [Attempt.pure_eq_ok, reduce_eq_divInt h, and_iff_right h, eq_comm]

/-- What comes after a check goes on with the integer that was checked. -/
theorem check_bind_eq_ok {α : Type} {a : α} {next : Int → Checked α} :
    (check128 n >>= next) = .ok a ↔ WordRange.signed128.Holds n ∧ next n = .ok a := by
  simp only [Attempt.bind_eq_ok, WordRange.check_eq_ok, and_assoc, exists_and_left,
    exists_eq_left']

/-- The parts of a fraction are those it is made of, in lowest terms. -/
theorem make_eq_ok_iff_parts : make num den = .ok r ↔ Negatable num ∧ Negatable den ∧ den ≠ 0 ∧
    r.num = reducedNum num den ∧ (r.den : Int) = reducedDen num den := by
  rw [make_eq_ok_iff]
  refine and_congr_right fun _ => and_congr_right fun _ => and_congr_right fun hden => ?_
  rw [← reduce_eq_divInt hden, eq_iff_parts]
  refine and_congr_right fun _ => ?_
  rw [reduce, ← Int.natCast_inj, Int.natAbs_of_nonneg (reducedDen_pos hden num).le]

/-- Checks of the parts before a fraction is made change nothing. -/
theorem check_make_eq_ok : (do
    let num ← check128 num
    let den ← check128 den
    make num den) = .ok r ↔ make num den = .ok r := by
  rw [check_bind_eq_ok, check_bind_eq_ok]
  refine ⟨fun h => h.2.2, fun h => ?_⟩
  obtain ⟨hnum, hden, -⟩ := make_eq_ok_iff.mp h
  exact ⟨(negatable_iff.mp hnum).1, (negatable_iff.mp hden).1, h⟩

/-! ## Operations -/

/-- A sum needs both numerators over the common denominator, their sum and that denominator. -/
theorem add_eq_ok_iff : add p q = .ok r ↔
    WordRange.signed128.Holds (p.num * q.den) ∧ WordRange.signed128.Holds (q.num * p.den) ∧
      Negatable (p.num * q.den + q.num * p.den) ∧ Negatable (p.den * q.den) ∧ r = p + q := by
  have hp : (p.den : Int) ≠ 0 := Int.natCast_ne_zero.mpr p.den_nz
  have hq : (q.den : Int) ≠ 0 := Int.natCast_ne_zero.mpr q.den_nz
  have hvalue : Rat.divInt (p.num * q.den + q.num * p.den) (p.den * q.den) = p + q := by
    rw [← Rat.divInt_add_divInt _ _ hp hq, Rat.num_divInt_den, Rat.num_divInt_den]
  rw [add, check_bind_eq_ok, check_bind_eq_ok, check_make_eq_ok, make_eq_ok_iff, hvalue,
    and_iff_right (mul_ne_zero hp hq)]

/-- A product needs the products of the numerators and of the denominators. -/
theorem mul_eq_ok_iff : mul p q = .ok r ↔
    Negatable (p.num * q.num) ∧ Negatable (p.den * q.den) ∧ r = p * q := by
  have hden : (p.den * q.den : Int) ≠ 0 :=
    mul_ne_zero (Int.natCast_ne_zero.mpr p.den_nz) (Int.natCast_ne_zero.mpr q.den_nz)
  have hvalue : Rat.divInt (p.num * q.num) (p.den * q.den) = p * q := by
    rw [← Rat.divInt_mul_divInt, Rat.num_divInt_den, Rat.num_divInt_den]
  rw [mul, check_make_eq_ok, make_eq_ok_iff, hvalue, and_iff_right hden]

/-- A quotient needs the products across, and a divisor that is not zero. -/
theorem div_eq_ok_iff : div p q = .ok r ↔
    Negatable (p.num * q.den) ∧ Negatable (p.den * q.num) ∧ q ≠ 0 ∧ r = p / q := by
  have hden : (p.den * q.num : Int) ≠ 0 ↔ q ≠ 0 := by
    rw [mul_ne_zero_iff, and_iff_right (Int.natCast_ne_zero.mpr p.den_nz), Rat.num_ne_zero]
  have hvalue : Rat.divInt (p.num * q.den) (p.den * q.num) = p / q := by
    rw [← Rat.divInt_div_divInt, Rat.num_divInt_den, Rat.num_divInt_den]
  rw [div, check_make_eq_ok, make_eq_ok_iff, hvalue, hden]

/-- A negation needs that of the numerator. -/
theorem neg_eq_ok_iff : neg p = .ok r ↔ WordRange.signed128.Holds (-p.num) ∧ r = -p := by
  rw [neg, check_bind_eq_ok, Attempt.pure_eq_ok, eq_comm (a := r)]

/-- A difference needs the negation of the second fraction, and its sum with the first one. -/
theorem sub_eq_ok_iff : sub p q = .ok r ↔ WordRange.signed128.Holds (-q.num) ∧
    WordRange.signed128.Holds (p.num * q.den) ∧ WordRange.signed128.Holds (-q.num * p.den) ∧
      Negatable (p.num * q.den - q.num * p.den) ∧ Negatable (p.den * q.den) ∧ r = p - q := by
  unfold sub
  simp only [Attempt.bind_eq_ok, neg_eq_ok_iff, and_assoc, exists_and_left, exists_eq_left,
    add_eq_ok_iff, Rat.neg_num, Rat.neg_den, neg_mul, ← sub_eq_add_neg]

/-- The order needs the products across. -/
theorem order_eq_ok_iff {o : Ordering} : order p q = .ok o ↔
    WordRange.signed128.Holds (p.num * q.den) ∧ WordRange.signed128.Holds (q.num * p.den) ∧
      compare (p.num * q.den) (q.num * p.den) = o := by
  rw [order, check_bind_eq_ok, check_bind_eq_ok, Attempt.pure_eq_ok]

theorem make_eq_ok (h : make num den = .ok r) : den ≠ 0 ∧ r = Rat.divInt num den :=
  (make_eq_ok_iff.mp h).2.2

theorem add_eq_ok (h : add p q = .ok r) : r = p + q := (add_eq_ok_iff.mp h).2.2.2.2

theorem mul_eq_ok (h : mul p q = .ok r) : r = p * q := (mul_eq_ok_iff.mp h).2.2

theorem neg_eq_ok (h : neg p = .ok r) : r = -p := (neg_eq_ok_iff.mp h).2

theorem div_eq_ok (h : div p q = .ok r) : r = p / q := (div_eq_ok_iff.mp h).2.2.2

/-! ## Fractions that are built -/

/-- The fractions that come from integers by operations that do not overflow. -/
inductive Built : Rat → Prop
  | make {num den : Int} {r : Rat} (h : make num den = .ok r) : Built r
  | integer {n : Int} (h : WordRange.signed64.Holds n) : Built n
  | add {p q r : Rat} (hp : Built p) (hq : Built q) (h : add p q = .ok r) : Built r
  | sub {p q r : Rat} (hp : Built p) (hq : Built q) (h : sub p q = .ok r) : Built r
  | mul {p q r : Rat} (hp : Built p) (hq : Built q) (h : mul p q = .ok r) : Built r
  | div {p q r : Rat} (hp : Built p) (hq : Built q) (h : div p q = .ok r) : Built r
  | neg {p r : Rat} (hp : Built p) (h : neg p = .ok r) : Built r

/-- Lowest terms are no greater than the parts. -/
theorem natAbs_reducedNum_le (num den : Int) : (reducedNum num den).natAbs ≤ num.natAbs := by
  rw [reducedNum, Int.natAbs_tdiv, natAbs_sign_mul]
  exact Nat.div_le_self _ _

theorem natAbs_reducedDen_le (num den : Int) : (reducedDen num den).natAbs ≤ den.natAbs := by
  rw [reducedDen, Int.natAbs_tdiv, natAbs_sign_mul]
  exact Nat.div_le_self _ _

/-- The parts of a fraction that is made have negations. -/
theorem negatable_of_make (h : make num den = .ok r) : Negatable r.num ∧ Negatable r.den := by
  obtain ⟨hnum, hden, -, hrnum, hrden⟩ := make_eq_ok_iff_parts.mp h
  rw [hrnum, hrden]
  exact ⟨(natAbs_reducedNum_le num den).trans_lt hnum, (natAbs_reducedDen_le num den).trans_lt hden⟩

theorem negatable_of_add (h : add p q = .ok r) : Negatable r.num ∧ Negatable r.den := by
  rw [add, check_bind_eq_ok, check_bind_eq_ok, check_make_eq_ok] at h
  exact negatable_of_make h.2.2

/-- The parts of every fraction that is built have negations. -/
theorem Built.negatable (hp : Built p) : Negatable p.num ∧ Negatable p.den := by
  induction hp with
  | make h => exact negatable_of_make h
  | @integer n h =>
    rw [Rat.num_intCast, Rat.den_intCast]
    simp only [WordRange.Holds, WordRange.signed64] at h
    exact ⟨by unfold Negatable; omega, by decide⟩
  | add _ _ h _ _ => exact negatable_of_add h
  | sub _ _ h _ _ =>
    rw [Fraction.sub, Attempt.bind_eq_ok] at h
    obtain ⟨_, _, h⟩ := h
    exact negatable_of_add h
  | mul _ _ h _ _ =>
    rw [Fraction.mul, check_make_eq_ok] at h
    exact negatable_of_make h
  | div _ _ h _ _ =>
    rw [Fraction.div, check_make_eq_ok] at h
    exact negatable_of_make h
  | neg _ h ih =>
    rw [(neg_eq_ok_iff.mp h).2, Rat.neg_num, Rat.neg_den, Negatable, Int.natAbs_neg]
    exact ih

/-- What holds of two fractions: they are in lowest terms and equal if their values are, operations
on them are exact, and what does not overflow. -/
structure Exact (p q : Rat) : Prop where
  lowest : 0 < p.den ∧ p.num.natAbs.Coprime p.den
  eq_iff : p.num = q.num ∧ p.den = q.den ↔ p.num * q.den = q.num * p.den
  add : ∀ r, add p q = .ok r ↔
    WordRange.signed128.Holds (p.num * q.den) ∧ WordRange.signed128.Holds (q.num * p.den) ∧
      Negatable (p.num * q.den + q.num * p.den) ∧ Negatable (p.den * q.den) ∧ r = p + q
  sub : ∀ r, sub p q = .ok r ↔
    WordRange.signed128.Holds (p.num * q.den) ∧ WordRange.signed128.Holds (-q.num * p.den) ∧
      Negatable (p.num * q.den - q.num * p.den) ∧ Negatable (p.den * q.den) ∧ r = p - q
  mul : ∀ r, mul p q = .ok r ↔
    Negatable (p.num * q.num) ∧ Negatable (p.den * q.den) ∧ r = p * q
  div : ∀ r, div p q = .ok r ↔
    Negatable (p.num * q.den) ∧ Negatable (p.den * q.num) ∧ q ≠ 0 ∧ r = p / q
  neg : neg p = .ok (-p)
  order : ∀ o, order p q = .ok o ↔
    WordRange.signed128.Holds (p.num * q.den) ∧ WordRange.signed128.Holds (q.num * p.den) ∧
      (o = .lt ∧ p < q ∨ o = .eq ∧ p = q ∨ o = .gt ∧ q < p)

/-- A comparison of the products across is one of the values. -/
theorem compare_mul_den {o : Ordering} : compare (p.num * q.den) (q.num * p.den) = o ↔
    o = .lt ∧ p < q ∨ o = .eq ∧ p = q ∨ o = .gt ∧ q < p := by
  rw [Rat.lt_iff, Rat.lt_iff, Rat.eq_iff_mul_eq_mul]
  cases o with
  | lt => simp [compare_lt_iff_lt]
  | eq => simp
  | gt => simp [compare_gt_iff_gt]

/-- Lowest terms have a positive denominator, no common divisor and the proportion of the parts. A
fraction is made of its parts in lowest terms. Fractions that are built are in lowest terms, two of
them are equal exactly if their values are, and operations on them have the results of rational
arithmetic unless they overflow. Negation does not overflow. -/
theorem exact_of_built (hp : Built p) (hq : Built q) :
    (∀ num den, den ≠ 0 → 0 < reducedDen num den ∧
      (reducedNum num den).natAbs.Coprime (reducedDen num den).natAbs ∧
        reducedNum num den * den = num * reducedDen num den) ∧
    (∀ num den r, make num den = .ok r ↔ Negatable num ∧ Negatable den ∧ den ≠ 0 ∧
      r.num = reducedNum num den ∧ (r.den : Int) = reducedDen num den) ∧
    Exact p q := by
  refine ⟨fun num den h => ⟨reducedDen_pos h num, coprime_reducedNum_reducedDen h num,
    reducedNum_mul h⟩, fun num den r => make_eq_ok_iff_parts, ?_⟩
  have hneg : ∀ {p : Rat}, Built p → WordRange.signed128.Holds (-p.num) := by
    intro p hp
    have hnum := hp.negatable.1
    rw [Negatable, ← Int.natAbs_neg] at hnum
    exact (negatable_iff.mp hnum).1
  exact {
    lowest := ⟨p.den_pos, p.reduced⟩
    eq_iff := eq_iff_parts.symm.trans Rat.eq_iff_mul_eq_mul
    add := fun r => add_eq_ok_iff
    sub := fun r => sub_eq_ok_iff.trans (and_iff_right (hneg hq))
    mul := fun r => mul_eq_ok_iff
    div := fun r => div_eq_ok_iff
    neg := neg_eq_ok_iff.mpr ⟨hneg hp, rfl⟩
    order := fun o => by rw [order_eq_ok_iff, compare_mul_den] }

/-- `-6 / -8` and `1 / -6`. -/
theorem exact_of_built_quarters :
    make (-6) (-8) = .ok (3 / 4) ∧ make 1 (-6) = .ok (-1 / 6) ∧
      add (3 / 4) (-1 / 6) = .ok (7 / 12) ∧ order (3 / 4) (-1 / 6) = .ok .gt := by
  have hp : make (-6) (-8) = .ok (3 / 4) := by decide +kernel
  have hq : make 1 (-6) = .ok (-1 / 6) := by decide +kernel
  obtain ⟨-, -, h⟩ := exact_of_built (.make hp) (.make hq)
  exact ⟨hp, hq, (h.add _).mpr (by decide +kernel), (h.order _).mpr (by decide +kernel)⟩

end LoopKernel.Fraction
