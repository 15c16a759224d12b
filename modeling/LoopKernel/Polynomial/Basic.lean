import LoopKernel.NameSet
import LoopKernel.Number.Fraction

/-!
# Polynomials with rational coefficients

Polynomials in named variables, as maps from monomials to nonzero coefficients. Closed-form counts
are polynomials in the size parameters of a kernel.
Spec guidance: `SPEC_FULL.md` §12 (`QPolynomial`).
-/

namespace LoopKernel

/-- A product of powers of variables: exponents, all positive, by name. -/
abbrev Monomial := SortedMap String Nat

namespace Monomial

/-- Order of two factors: by name, then by exponent. -/
def compareFactors : String × Nat → String × Nat → Ordering :=
  compareLex (compareOn Prod.fst) (compareOn Prod.snd)

/-- Order of monomials: the lists of their factors, lexicographically. -/
instance : Ord Monomial where
  compare a b := List.compareLex compareFactors a.entries b.entries

instance : Std.TransCmp compareFactors :=
  inferInstanceAs (Std.TransCmp (compareLex (compareOn Prod.fst) (compareOn Prod.snd)))

instance : Std.TransOrd Monomial where
  eq_swap {a b} :=
    @Std.OrientedCmp.eq_swap _ (List.compareLex compareFactors) _ a.entries b.entries
  isLE_trans {a b c} :=
    @Std.TransCmp.isLE_trans _ (List.compareLex compareFactors) _ a.entries b.entries c.entries

/-- The empty product. -/
def one : Monomial := ∅

/-- A single variable. -/
def var (name : String) : Monomial := (∅ : Monomial).insert name 1

/-- The product; exponents stay below `2 ^ 32`. -/
def mul (a b : Monomial) : Checked Monomial :=
  b.entries.foldlM
    (fun out (name, exponent) => do
      pure (out.insert name (← checkUnsigned 32 (out.getD name 0 + exponent))))
    a

/-- The sum of the exponents, which stays below `2 ^ 32`. -/
def degree (a : Monomial) : Checked Nat := checkUnsigned 32 (a.values.foldl (· + ·) 0)

end Monomial

/-- A polynomial: nonzero coefficients by monomial. -/
structure Polynomial where
  terms : SortedMap Monomial Rat
deriving DecidableEq

/-- A variable of a polynomial has no value. -/
structure MissingParameter where
  name : String
deriving DecidableEq, Repr

namespace MissingParameter

/-- The wording of the error. -/
def message (e : MissingParameter) : String :=
  "no value given for parameter '" ++ e.name ++ "'"

end MissingParameter

namespace Polynomial

/-- The zero polynomial, which has no terms. -/
def zero : Polynomial := ⟨∅⟩

instance : Inhabited Polynomial := ⟨zero⟩

/-- Add one term; a term that becomes zero is dropped. -/
def addTerm (p : Polynomial) (monomial : Monomial) (coefficient : Rat) : Checked Polynomial :=
  if coefficient = 0 then pure p
  else do
    let total ← Fraction.add (p.terms.getD monomial 0) coefficient
    if total = 0 then pure ⟨p.terms.erase monomial⟩ else pure ⟨p.terms.insert monomial total⟩

/-- A constant. -/
def constant (value : Rat) : Polynomial :=
  if value = 0 then zero else ⟨(∅ : SortedMap Monomial Rat).insert .one value⟩

/-- An integer constant. -/
def ofInt (value : Int) : Polynomial := constant value

/-- A single variable. -/
def var (name : String) : Polynomial := ⟨(∅ : SortedMap Monomial Rat).insert (.var name) 1⟩

/-- Whether there are no terms. -/
def isZero (p : Polynomial) : Bool := p.terms.isEmpty

/-- The value of a polynomial without variables (`as_constant`). -/
def constant? (p : Polynomial) : Option Rat :=
  match p.terms.size with
  | 0 => some 0
  | 1 => p.terms.get? .one
  | _ => none

/-- All variables that occur. -/
def vars (p : Polynomial) : NameSet :=
  p.terms.keys.foldl (fun names monomial => names.addAll monomial.keys) ∅

/-- Multiply every coefficient by a factor. -/
def scale (p : Polynomial) (factor : Rat) : Checked Polynomial :=
  p.terms.entries.foldlM
    (fun out (monomial, coefficient) => do
      out.addTerm monomial (← Fraction.mul coefficient factor))
    zero

/-- The sum. -/
def add (p q : Polynomial) : Checked Polynomial :=
  q.terms.entries.foldlM (fun out (monomial, coefficient) => out.addTerm monomial coefficient) p

/-- The difference. -/
def sub (p q : Polynomial) : Checked Polynomial := do
  p.add (← q.scale (-1))

/-- The product of a polynomial by one term, added to a running total. -/
def addScaledTerms (out q : Polynomial) (monomial : Monomial) (coefficient : Rat) :
    Checked Polynomial :=
  q.terms.entries.foldlM
    (fun out (monomial', coefficient') => do
      out.addTerm (← monomial.mul monomial') (← Fraction.mul coefficient coefficient'))
    out

/-- The product. -/
def mul (p q : Polynomial) : Checked Polynomial :=
  p.terms.entries.foldlM
    (fun out (monomial, coefficient) => out.addScaledTerms q monomial coefficient) zero

/-- A power, by repeated multiplication. -/
def pow (p : Polynomial) : Nat → Checked Polynomial
  | 0 => pure (ofInt 1)
  | k + 1 => do (← p.pow k).mul p

/-- Add a term to the coefficient of the `k`-th power, with zeros for the missing powers. -/
def addToPower (monomial : Monomial) (coefficient : Rat) :
    Nat → List Polynomial → Checked (List Polynomial)
  | 0, [] => do pure [← zero.addTerm monomial coefficient]
  | 0, p :: rest => do pure ((← p.addTerm monomial coefficient) :: rest)
  | k + 1, [] => do pure (zero :: (← addToPower monomial coefficient k []))
  | k + 1, p :: rest => do pure (p :: (← addToPower monomial coefficient k rest))

/-- Coefficients by powers of one variable (`coefficients_in`): the polynomial is the sum of
`c_k * var ^ k`. -/
def coefficientsIn (p : Polynomial) (name : String) : Checked (List Polynomial) :=
  p.terms.entries.foldlM
    (fun out (monomial, coefficient) =>
      addToPower (monomial.erase name) coefficient (monomial.getD name 0) out)
    []

/-- The sum of `c_k * value ^ k` over a list of coefficients, from power `k` on, added to a running
total. -/
def addPowers (value : Polynomial) (out : Polynomial) :
    Nat → List Polynomial → Checked Polynomial
  | _, [] => pure out
  | k, c :: rest => do
    addPowers value (← out.add (← c.mul (← value.pow k))) (k + 1) rest

/-- Replace a variable by a polynomial. -/
def substitute (p : Polynomial) (name : String) (value : Polynomial) : Checked Polynomial := do
  addPowers value zero 0 (← p.coefficientsIn name)

/-- A term multiplied `n` times by an integer. -/
def mulPower (value : Int) (term : Rat) : Nat → Checked Rat
  | 0 => pure term
  | n + 1 => do mulPower value (← Fraction.mul term value) n

/-- A coefficient times the values of the factors of its monomial. -/
def evalTerm (env : String → Option Int) (coefficient : Rat) :
    List (String × Nat) → Attempt MissingParameter Rat
  | [] => pure coefficient
  | (name, exponent) :: rest =>
    match env name with
    | none => .fail ⟨name⟩
    | some value => do
      let term ← mulPower value coefficient exponent
      evalTerm env term rest

/-- The value where each variable has the integer value that `env` gives it. -/
def eval (env : String → Option Int) (p : Polynomial) : Attempt MissingParameter Rat :=
  p.terms.entries.foldlM
    (fun total (monomial, coefficient) => do
      let term ← evalTerm env coefficient monomial.entries
      Fraction.add total term)
    0

/-! ## Text -/

/-- Text of a monomial: factors separated by `*`, exponents other than one after `^`. -/
def monomialText (monomial : Monomial) : String :=
  "*".intercalate (monomial.entries.map fun (name, exponent) =>
    if exponent = 1 then name else name ++ "^" ++ toString exponent)

/-- Text of a term without its sign. -/
def termText (monomial : Monomial) (coefficient : Rat) : String :=
  let magnitude := if coefficient < 0 then -coefficient else coefficient
  if monomial.isEmpty then Fraction.text magnitude
  else if magnitude = 1 then monomialText monomial
  else Fraction.text magnitude ++ "*" ++ monomialText monomial

/-- Terms paired with their degrees. Degrees matter only where there are two terms to order. -/
def withDegrees (terms : List (Monomial × Rat)) : Checked (List (Nat × Monomial × Rat)) :=
  match terms with
  | [term] => pure [(0, term)]
  | terms => terms.mapM fun term => do pure (← term.1.degree, term)

/-- Text of a list of terms, with signs between them. -/
def termsText : List (Monomial × Rat) → String
  | [] => "0"
  | (monomial, coefficient) :: rest =>
    (if coefficient < 0 then "-" else "") ++ termText monomial coefficient ++
      String.join (rest.map fun (monomial, coefficient) =>
        (if coefficient < 0 then " - " else " + ") ++ termText monomial coefficient)

/-- Text of a polynomial: terms of higher degree first, equal degrees in monomial order. -/
def text (p : Polynomial) : Checked String := do
  let terms ← withDegrees p.terms.entries
  pure (termsText ((terms.mergeSort fun a b => b.1 ≤ a.1).map Prod.snd))

end Polynomial

end LoopKernel
