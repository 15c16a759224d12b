import LoopKernel.Polynomial.Basic

/-!
# Affine forms

Integer linear combinations of named variables plus a constant, with coefficients in signed 64-bit
words. Forms built by the operations below store no zero coefficient.
Spec guidance: `SPEC_FULL.md` §12 (`AffineExpr`).
-/

namespace LoopKernel

/-- An affine form (`AffineExpr`): coefficients by variable name, and a constant. -/
structure Affine where
  coeffs : SortedMap String Int
  constant : Int
deriving DecidableEq

namespace Affine

/-- A constant form. -/
def const (c : Int) : Affine := ⟨∅, c⟩

instance : Inhabited Affine := ⟨const 0⟩

/-- A multiple of one variable. -/
def term (name : String) (coefficient : Int) : Affine :=
  if coefficient = 0 then const 0 else ⟨(∅ : SortedMap String Int).insert name coefficient, 0⟩

/-- A single variable. -/
def var (name : String) : Affine := term name 1

/-- The coefficient of a variable, zero when it does not occur. -/
def coeff (f : Affine) (name : String) : Int := f.coeffs.getD name 0

/-- Whether no variable occurs. -/
def isConstant (f : Affine) : Bool := f.coeffs.isEmpty

/-- The variables that occur, ascending. -/
def vars (f : Affine) : List String := f.coeffs.keys

/-- Every value of a map multiplied by an integer. -/
def scaleCoeffs (coeffs : SortedMap String Int) (k : Int) : Checked (SortedMap String Int) :=
  if coeffs.entries.all fun e => WordRange.signed64.Holds (e.2 * k) then
    pure (coeffs.mapValues fun _ c => c * k)
  else .overflow

/-- The form multiplied by an integer. -/
def scale (f : Affine) (k : Int) : Checked Affine :=
  if k = 0 then pure (const 0)
  else do
    let coeffs ← scaleCoeffs f.coeffs k
    pure ⟨coeffs, ← check64 (f.constant * k)⟩

/-- Add a multiple of one variable; a coefficient that becomes zero is dropped. -/
def addTerm (coeffs : SortedMap String Int) (name : String) (c : Int) :
    Checked (SortedMap String Int) := do
  let total ← check64 (coeffs.getD name 0 + c)
  pure (if total = 0 then coeffs.erase name else coeffs.insert name total)

/-- The sum. -/
def add (f g : Affine) : Checked Affine := do
  let coeffs ← g.coeffs.entries.foldlM (fun coeffs e => addTerm coeffs e.1 e.2) f.coeffs
  pure ⟨coeffs, ← check64 (f.constant + g.constant)⟩

/-- The difference. -/
def sub (f g : Affine) : Checked Affine := do
  f.add (← g.scale (-1))

/-- The negation. -/
def neg (f : Affine) : Checked Affine := f.scale (-1)

/-- The form with the term of one variable dropped. -/
def without (f : Affine) (name : String) : Affine := ⟨f.coeffs.erase name, f.constant⟩

/-- Replace a variable by a form. -/
def substitute (f : Affine) (name : String) (value : Affine) : Checked Affine :=
  if f.coeff name = 0 then pure f
  else do (f.without name).add (← value.scale (f.coeff name))

/-- Replace a variable by another one. -/
def rename (f : Affine) (old new : String) : Checked Affine := f.substitute old (var new)

/-- Sum of a list of terms under an assignment, on top of a running total. There is no value when
a variable has none. -/
def evalTerms (env : String → Option Int) (total : Int) :
    List (String × Int) → Checked (Option Int)
  | [] => pure (some total)
  | (name, c) :: rest =>
    match env name with
    | none => pure none
    | some value => do
      let product ← check64 (c * value)
      evalTerms env (← check64 (total + product)) rest

/-- The value under an assignment, if every variable has one. -/
def eval (env : String → Option Int) (f : Affine) : Checked (Option Int) :=
  evalTerms env f.constant f.coeffs.entries

/-- The form as a polynomial (`to_qpoly`). -/
def toPolynomial (f : Affine) : Checked Polynomial :=
  f.coeffs.entries.foldlM
    (fun p (name, c) => do p.add (← (Polynomial.var name).scale c))
    (Polynomial.ofInt f.constant)

/-- The absolute value, which the least word does not have. -/
def magnitude (n : Int) : Checked Int := check64 n.natAbs

/-- The greatest common divisor of the coefficients, zero for a constant. -/
def content (f : Affine) : Checked Nat :=
  f.coeffs.values.foldlM
    (fun g c => do
      let _ ← magnitude c
      pure (Nat.gcd g c.natAbs))
    0

/-- Text of a multiple of a variable without its sign. -/
def termText (name : String) (c : Int) : Checked String := do
  let size ← magnitude c
  pure (if size = 1 then name else toString size ++ "*" ++ name)

/-- Text of the terms after the first, each with its sign. -/
def laterTermsText : List (String × Int) → Checked String
  | [] => pure ""
  | (name, c) :: rest => do
    let text ← termText name c
    pure ((if c < 0 then " - " else " + ") ++ text ++ (← laterTermsText rest))

/-- Text of the constant after at least one term. -/
def constantText (c : Int) : Checked String :=
  if 0 < c then pure (" + " ++ toString c)
  else if c < 0 then do pure (" - " ++ toString (← check64 (-c)))
  else pure ""

/-- Text of the form: terms by name, then the constant. -/
def text (f : Affine) : Checked String :=
  match f.coeffs.entries with
  | [] => pure (toString f.constant)
  | (name, c) :: rest => do
    let first ← termText name c
    let later ← laterTermsText rest
    pure ((if c < 0 then "-" else "") ++ first ++ later ++ (← constantText f.constant))

end Affine

end LoopKernel
