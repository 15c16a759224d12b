import LoopKernel.Checked

/-!
# Fractions in machine words

Exact fractions whose numerator and denominator fit in signed 128-bit words. The values are rational
numbers; each operation computes the unreduced fraction first and fails when a part of it leaves
the word, also where the reduced result would fit.
Spec guidance: `SPEC_FULL.md` §12.
-/

namespace LoopKernel.Fraction

/-- Check against the words that have a negation: all but the least one. -/
def checkNegatable (n : Int) : Checked Int :=
  if n = WordRange.signed128.least then .error .overflow else check128 n

/-- The greatest common divisor, by Euclid's algorithm. -/
def euclid (a b : Nat) : Nat :=
  if b = 0 then a else euclid b (a % b)
termination_by b
decreasing_by exact Nat.mod_lt _ (Nat.pos_of_ne_zero ‹_›)

theorem euclid_eq_gcd (a b : Nat) : euclid a b = a.gcd b := by
  induction a, b using euclid.induct with
  | case1 a => rw [euclid, if_pos rfl, Nat.gcd_zero_right]
  | case2 a b hb ih => rw [euclid, if_neg hb, ih, Nat.gcd_comm b, ← Nat.gcd_rec, Nat.gcd_comm]

/-- What the parts of a fraction are divided by. -/
def divisor (num den : Int) : Nat := max (euclid num.natAbs den.natAbs) 1

/-- One with the sign of a denominator. -/
def sign (den : Int) : Int := if den < 0 then -1 else 1

/-- The numerator in lowest terms, with the sign of the fraction. -/
def reducedNum (num den : Int) : Int := (sign den * num).tdiv (divisor num den)

/-- The denominator in lowest terms. -/
def reducedDen (num den : Int) : Int := (sign den * den).tdiv (divisor num den)

theorem divisor_eq_gcd {den : Int} (h : den ≠ 0) (num : Int) : divisor num den = num.gcd den := by
  have hpos : 0 < num.gcd den := Int.gcd_pos_of_ne_zero_right num h
  rw [divisor, euclid_eq_gcd]
  exact Nat.max_eq_left hpos

theorem sign_mul_self (den : Int) : sign den * den = den.natAbs := by
  unfold sign
  split <;> omega

theorem natAbs_sign_mul (den n : Int) : (sign den * n).natAbs = n.natAbs := by
  unfold sign
  split <;> omega

theorem reducedDen_eq {den : Int} (h : den ≠ 0) (num : Int) :
    reducedDen num den = (den.natAbs / num.gcd den : Nat) := by
  rw [reducedDen, sign_mul_self, divisor_eq_gcd h]
  exact Int.ofNat_tdiv _ _

/-- The denominator in lowest terms is positive. -/
theorem reducedDen_pos {den : Int} (h : den ≠ 0) (num : Int) : 0 < reducedDen num den := by
  rw [reducedDen_eq h]
  exact Int.natCast_pos.mpr (Nat.div_gcd_pos_of_pos_right _ (Int.natAbs_pos.mpr h))

/-- The parts in lowest terms have no common divisor. -/
theorem coprime_reducedNum_reducedDen {den : Int} (h : den ≠ 0) (num : Int) :
    (reducedNum num den).natAbs.Coprime (reducedDen num den).natAbs := by
  rw [reducedDen_eq h, Int.natAbs_natCast, reducedNum, Int.natAbs_tdiv, natAbs_sign_mul,
    divisor_eq_gcd h]
  exact Nat.coprime_div_gcd_div_gcd (Int.gcd_pos_of_ne_zero_right num h)

/-- The fraction of two integers in lowest terms. -/
def reduce (num den : Int) (h : den ≠ 0) : Rat where
  num := reducedNum num den
  den := (reducedDen num den).natAbs
  den_nz := Int.natAbs_ne_zero.mpr (Int.ne_of_gt (reducedDen_pos h num))
  reduced := coprime_reducedNum_reducedDen h num

/-- `num / den` in lowest terms. There is no such fraction when `den` is zero. -/
def make (num den : Int) : Checked Rat := do
  let num ← checkNegatable num
  let den ← checkNegatable den
  if h : den = 0 then .error .overflow else pure (reduce num den h)

/-- The sum over the product of the denominators, reduced. -/
def add (p q : Rat) : Checked Rat := do
  let left ← check128 (p.num * q.den)
  let right ← check128 (q.num * p.den)
  let num ← check128 (left + right)
  let den ← check128 (p.den * q.den)
  make num den

/-- The negation. -/
def neg (p : Rat) : Checked Rat := do
  let _ ← check128 (-p.num)
  pure (-p)

/-- The difference, as the sum with the negation. -/
def sub (p q : Rat) : Checked Rat := do
  add p (← neg q)

/-- The product, reduced. -/
def mul (p q : Rat) : Checked Rat := do
  let num ← check128 (p.num * q.num)
  let den ← check128 (p.den * q.den)
  make num den

/-- The quotient, reduced. There is none by zero. -/
def div (p q : Rat) : Checked Rat := do
  let num ← check128 (p.num * q.den)
  let den ← check128 (p.den * q.num)
  make num den

/-- Order of two fractions, by cross multiplication. -/
def order (p q : Rat) : Checked Ordering := do
  let left ← check128 (p.num * q.den)
  let right ← check128 (q.num * p.den)
  pure (compare left right)

/-- The value as a signed 64-bit integer, if it is one. -/
def toInt64? (p : Rat) : Option Int :=
  if p.den = 1 then WordRange.signed64.fit? p.num else none

/-- Decimal text: `n`, or `n/d` when the denominator is not one. -/
def text (p : Rat) : String :=
  if p.den = 1 then toString p.num else toString p.num ++ "/" ++ toString p.den

end LoopKernel.Fraction
