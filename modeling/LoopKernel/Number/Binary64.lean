/-!
# Double precision numbers

Double precision floating-point numbers as a sign and the sixty-three bits below it. Rounding a
ratio of natural numbers and reading the bits back are exact integer arithmetic, so both can be
reasoned about. There is no undefined number: no text and no ratio denotes one.
-/

namespace LoopKernel

/-- A double precision number. `magnitude` is the exponent field followed by the fraction field. -/
structure Binary64 where
  negative : Bool
  magnitude : Nat
deriving DecidableEq, Repr

namespace Binary64

/-- Number of fractions of a significand: they have 52 bits. -/
def fractions : Nat := 1 <<< 52

/-- Magnitude of infinity: all exponent bits set. -/
def infiniteMagnitude : Nat := 2047 * fractions

/-- Positive zero. -/
def zero : Binary64 := ⟨false, 0⟩

instance : Inhabited Binary64 := ⟨zero⟩

/-- Whether the number is finite. -/
def isFinite (x : Binary64) : Bool := x.magnitude < infiniteMagnitude

/-- The number with the other sign. -/
def neg (x : Binary64) : Binary64 := { x with negative := !x.negative }

/-- Whether the number is below zero; a negative zero is not. -/
def isNegative (x : Binary64) : Bool := x.negative && x.magnitude != 0

/-- Significand and binary exponent of a finite magnitude: its value is `c * 2 ^ q`. -/
def decode (magnitude : Nat) : Nat × Int :=
  let exponent : Nat := magnitude / fractions
  let fraction : Nat := magnitude % fractions
  if exponent = 0 then (fraction, -1074) else (fractions + fraction, (exponent : Int) - 1075)

/-- `num / den` rounded to the nearest integer, a half to the even neighbour. -/
def roundHalfEven (num den : Nat) : Nat :=
  let quotient := num / den
  let twice := 2 * (num % den)
  if twice < den then quotient
  else if den < twice then quotient + 1
  else quotient + quotient % 2

/-- `num / den * 2 ^ (-shift)` as a fraction of natural numbers. -/
def scaled (num den : Nat) (shift : Int) : Nat × Nat :=
  if 0 ≤ shift then (num, den <<< shift.toNat) else (num <<< (-shift).toNat, den)

/-- Exponent at which `num / den` has a 53-bit significand, bounded below by that of the least
positive number. -/
def exponentOf (num den : Nat) : Int :=
  let guess := (num.log2 : Int) - den.log2 - 53
  let (n, d) := scaled num den guess
  max (if n / d < 2 * fractions then guess else guess + 1) (-1074)

/-- Magnitude nearest to `num / den`, a half to the even neighbour, infinite when too large. -/
def magnitudeOfRatio (num den : Nat) : Nat :=
  if num = 0 then 0
  else
    let exponent := exponentOf num den
    let (n, d) := scaled num den exponent
    min infiniteMagnitude ((exponent + 1074).toNat * fractions + roundHalfEven n d)

/-- Number of decimal digits of a natural number; zero has one. -/
def digitCount (n : Nat) : Nat := (Nat.toDigits 10 n).length

/-- Magnitude nearest to `digits * 10 ^ exponent`. Far outside the range no power is computed. -/
def magnitudeOfDecimal (digits : Nat) (exponent : Int) : Nat :=
  let top := (digitCount digits : Int) + exponent
  if digits = 0 ∨ top < -330 then 0
  else if 320 < top then infiniteMagnitude
  else if 0 ≤ exponent then magnitudeOfRatio (digits * Nat.pow 10 exponent.toNat) 1
  else magnitudeOfRatio digits (Nat.pow 10 (-exponent).toNat)

/-- The number nearest to `digits * 10 ^ exponent`, with a sign. -/
def ofDecimal (negative : Bool) (digits : Nat) (exponent : Int) : Binary64 :=
  ⟨negative, magnitudeOfDecimal digits exponent⟩

/-- The number nearest to an integer. -/
def ofInt (n : Int) : Binary64 := ⟨n < 0, magnitudeOfRatio n.natAbs 1⟩

/-- The quotient of a finite number and a finite nonzero one, rounded to nearest. -/
def div (x y : Binary64) : Binary64 :=
  let (c, q) := decode x.magnitude
  let (d, r) := decode y.magnitude
  let (n, m) := scaled c d (r - q)
  ⟨x.negative != y.negative, magnitudeOfRatio n m⟩

end Binary64

end LoopKernel
