import LoopKernel.Polynomial.Basic

/-!
# Definite sums of polynomials

The sum of a polynomial over an integer range of one of its variables is a polynomial in the bounds
(Faulhaber's formula), with the Bernoulli numbers as coefficients.
Spec guidance: `SPEC_FULL.md` §12.
-/

namespace LoopKernel

/-- Binomial coefficient by successive exact divisions in signed 64-bit words (`binomial`). -/
def binomial64 (n : Nat) : Nat → Checked Int
  | 0 => pure 1
  | k + 1 => do
    let r ← binomial64 n k
    pure ((← check64 (r * ((n : Int) - k))) / (k + 1))

/-- The sum of `binomial (m + 1) j * b_j` over a list of Bernoulli numbers from index `j` on. -/
def weightedBernoulli (m : Nat) : Nat → List Rat → Rat → Checked Rat
  | _, [], total => pure total
  | j, b :: rest, total => do
    let weight ← binomial64 (m + 1) j
    let term ← Fraction.mul weight b
    weightedBernoulli m (j + 1) rest (← Fraction.add total term)

/-- The Bernoulli numbers up to index `n`, with value `-1/2` at index one. -/
def bernoulliMinus : Nat → Checked (List Rat)
  | 0 => pure [1]
  | n + 1 => do
    let earlier ← bernoulliMinus n
    let total ← weightedBernoulli (n + 1) 0 earlier 0
    pure (earlier ++ [← Fraction.div (← Fraction.neg total) ((n : Int) + 2)])

/-- The Bernoulli numbers up to index `n`, with value `1/2` at index one (`bernoulli_plus`). -/
def bernoulliPlus (n : Nat) : Checked (List Rat) := do
  match ← bernoulliMinus n with
  | b₀ :: _ :: rest => pure (b₀ :: mkRat 1 2 :: rest)
  | numbers => pure numbers

namespace Polynomial

/-- The sum of `binomial (k + 1) j * b_j * n ^ (k + 1 - j)` from index `j` on, added to a running
total. -/
def addBernoulliTerms (k : Nat) (n out : Polynomial) : Nat → List Rat → Checked Polynomial
  | _, [] => pure out
  | j, b :: rest => do
    let coefficient ← Fraction.mul (← binomial64 (k + 1) j) b
    if coefficient = 0 then addBernoulliTerms k n out (j + 1) rest
    else
      let term ← (← n.pow (k + 1 - j)).scale coefficient
      addBernoulliTerms k n (← out.add term) (j + 1) rest

/-- The sum of `x ^ k` for `x` from zero to `n`, as a polynomial in `n` (`power_sum`). -/
def powerSum (k : Nat) (n : Polynomial) : Checked Polynomial := do
  let total ← addBernoulliTerms k n zero 0 (← bernoulliPlus k)
  let out ← total.scale (← Fraction.make 1 (k + 1))
  if k = 0 then out.add (ofInt 1) else pure out

/-- The sum over a range of `c_k * x ^ k` for a list of coefficients from power `k` on, added to a
running total. -/
def addRangeSums (below upper out : Polynomial) : Nat → List Polynomial → Checked Polynomial
  | _, [] => pure out
  | k, c :: rest =>
    if c.isZero then addRangeSums below upper out (k + 1) rest
    else do
      let range ← (← powerSum k upper).sub (← powerSum k below)
      addRangeSums below upper (← out.add (← c.mul range)) (k + 1) rest

/-- The sum of the polynomial for a variable from `lower` to `upper` (`sum_over`). -/
def sumOver (p : Polynomial) (name : String) (lower upper : Polynomial) : Checked Polynomial := do
  let below ← lower.sub (ofInt 1)
  addRangeSums below upper zero 0 (← p.coefficientsIn name)

end Polynomial

end LoopKernel
