import LoopKernel.Number.Binary64

/-!
# Shortest decimal text

The text of a finite double precision number has the fewest decimal digits that read back as the
same number, and of the candidates with that many digits the nearest one. A format says which
decimal exponents are written positionally, how the other ones are written, and where an exact tie
between two candidates goes.
-/

namespace LoopKernel

/-- How a number is written: the least decimal exponent without an exponent part, whether an
exponent that is not negative has a plus sign, and the tie rule. -/
structure DecimalFormat where
  leastPositional : Int
  plusSign : Bool
  tieToEven : Bool
deriving DecidableEq, Repr

namespace DecimalFormat

/-- Numbers in program text and listings: positional from `1e-4`, ties upward. -/
def listing : DecimalFormat := ⟨-4, false, false⟩

/-- Numbers in data exchange text: positional from `1e-5`, exponents with their sign, ties to the
even digit. -/
def exchange : DecimalFormat := ⟨-5, true, true⟩

/-- Greatest decimal exponent without an exponent part. -/
def greatestPositional : Int := 15

end DecimalFormat

namespace Binary64

/-- The point of the grid `10 ^ exponent` nearest to `magnitude` among those that read back as it,
if there is one. -/
def gridPoint? (format : DecimalFormat) (magnitude : Nat) (exponent : Int) : Option Nat :=
  let (c, q) := decode magnitude
  let (a, b) := scaled 1 1 (2 - q)
  let (unit, parts) :=
    if 0 ≤ exponent then (Nat.pow 10 exponent.toNat, 1) else (1, Nat.pow 10 (-exponent).toNat)
  let value := 4 * c * a * parts
  let grid := b * unit
  let closeBelow := magnitude % fractions = 0 ∧ fractions < magnitude
  let low := (4 * c - if closeBelow then 1 else 2) * a * parts
  let high := (4 * c + 2) * a * parts
  let below := value / grid
  let holds (n : Nat) : Bool :=
    if c % 2 = 0 then low ≤ n * grid && n * grid ≤ high else low < n * grid && n * grid < high
  let belowGap := value - below * grid
  let aboveGap := (below + 1) * grid - value
  match holds below, holds (below + 1) with
  | true, false => some below
  | false, true => some (below + 1)
  | false, false => none
  | true, true =>
    if belowGap < aboveGap then some below
    else if aboveGap < belowGap then some (below + 1)
    else if format.tieToEven && below % 2 == 0 then some below
    else some (below + 1)

/-- Search the grids from `10 ^ exponent` downward for the coarsest with a point that reads back. -/
def shortestFrom (format : DecimalFormat) (magnitude : Nat) : Nat → Int → Nat × Int
  | 0, exponent => (0, exponent)
  | fuel + 1, exponent =>
    match gridPoint? format magnitude exponent with
    | some n => (n, exponent)
    | none => shortestFrom format magnitude fuel (exponent - 1)

/-- Digits and exponent of the shortest decimal of a positive finite magnitude. Doubles reach from
`10 ^ 309` down to a few times `10 ^ (-324)`, so every one is met within 640 grids. -/
def shortest (format : DecimalFormat) (magnitude : Nat) : Nat × Int :=
  shortestFrom format magnitude 640 309

/-- Digits with a decimal point, where the last digit stands for `10 ^ exponent`. -/
def positional (digits : String) (exponent : Int) : String :=
  let zeros (n : Nat) : String := "".pushn '0' n
  if 0 ≤ exponent then digits ++ zeros exponent.toNat ++ ".0"
  else
    let places := (-exponent).toNat
    if places < digits.length then
      String.ofList (digits.toList.take (digits.length - places)) ++ "." ++
        String.ofList (digits.toList.drop (digits.length - places))
    else "0." ++ zeros (places - digits.length) ++ digits

/-- Digits with one before the decimal point and an exponent part. -/
def scientific (format : DecimalFormat) (digits : String) (exponent : Int) : String :=
  let tail := String.ofList (digits.toList.drop 1)
  let point := if tail.isEmpty then "" else "." ++ tail
  let sign := if format.plusSign && decide (0 ≤ exponent) then "+" else ""
  String.ofList (digits.toList.take 1) ++ point ++ "e" ++ sign ++ toString exponent

/-- Text of a finite magnitude. -/
def magnitudeText (format : DecimalFormat) (magnitude : Nat) : String :=
  if magnitude = 0 then "0.0"
  else
    let (n, exponent) := shortest format magnitude
    let digits := toString n
    let leading := exponent + digits.length - 1
    if format.leastPositional ≤ leading ∧ leading ≤ DecimalFormat.greatestPositional then
      positional digits exponent
    else scientific format digits leading

/-- Text of a number in listings; infinity is `inf`. -/
def text (x : Binary64) : String :=
  let sign := if x.negative then "-" else ""
  if x.isFinite then sign ++ magnitudeText .listing x.magnitude else sign ++ "inf"

end Binary64

end LoopKernel
