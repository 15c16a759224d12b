import LoopKernel.Affine.Form
import LoopKernel.Expr.Basic

/-!
# Integer values and affine forms of expressions

The value of an expression under an integer environment, and its affine form where it has one. Sums,
products and powers that leave signed 64-bit words have no value; an overflowing division fails.
Spec guidance: `SPEC_FULL.md` §§4.4/11.
-/

namespace LoopKernel.Expr

/-- A power, if signed 64-bit words hold it. The least word is a sixty-third power, so a base of
absolute value two or more has no power beyond that. -/
def power64? (base : Int) (exponent : Nat) : Option Int :=
  if base.natAbs ≤ 1 then some (base.pow (if exponent = 0 then 0 else 2 - exponent % 2))
  else if exponent < 64 then WordRange.signed64.fit? (base.pow exponent)
  else none

/-- The value of an operation on two values. The remainder is never negative, and the quotient of a
floor division goes with it; an exact quotient exists only without remainder. -/
def applyBinary (op : BinaryOp) (a b : Int) : Checked (Option Int) :=
  match op with
  | .power => pure (power64? a b.toNat)
  | op =>
    if b = 0 then pure none
    else do
      let quotient ← check64 (a / b)
      match op with
      | .remainder => pure (some (a % b))
      | .quotient => pure (if a % b = 0 then some quotient else none)
      | _ => pure (some quotient)

/-- Whether a value can be the right operand. -/
def acceptsRight (op : BinaryOp) (b : Int) : Bool :=
  match op with
  | .power => WordRange.unsigned32.Holds b
  | .floorDiv | .remainder => b != 0
  | .quotient => true

mutual

/-- The integer value, if every leaf has one and every step stays in range (`eval_int`). The right
operand of a division or power comes first: an unfit one decides before the left operand is looked
at. -/
def evalInt (env : String → Option Int) : Expr → Checked (Option Int)
  | .int n => pure (some n)
  | .var name => pure (env name)
  | .sum terms => evalSum env 0 terms
  | .product factors => evalProduct env 1 factors
  | .binary op a b =>
    match op with
    | .quotient => do
      let some x ← a.evalInt env | pure none
      let some y ← b.evalInt env | pure none
      applyBinary .quotient x y
    | op => do
      let some y ← b.evalInt env | pure none
      if acceptsRight op y then
        let some x ← a.evalInt env | pure none
        applyBinary op x y
      else pure none
  | _ => pure none

/-- The value of a sum, on top of a running total. -/
def evalSum (env : String → Option Int) (total : Int) : List Expr → Checked (Option Int)
  | [] => pure (some total)
  | e :: rest => do
    let some n ← e.evalInt env | pure none
    let some total := WordRange.signed64.fit? (total + n) | pure none
    evalSum env total rest

/-- The value of a product, on top of a running one. -/
def evalProduct (env : String → Option Int) (total : Int) : List Expr → Checked (Option Int)
  | [] => pure (some total)
  | e :: rest => do
    let some n ← e.evalInt env | pure none
    let some total := WordRange.signed64.fit? (total * n) | pure none
    evalProduct env total rest

end

/-- The product of two affine forms, if one of them is constant. -/
def mulAffine? (f g : Affine) : Checked (Option Affine) :=
  if f.isConstant then do pure (some (← g.scale f.constant))
  else if g.isConstant then do pure (some (← f.scale g.constant))
  else pure none

mutual

/-- The affine form of an expression, if it is built from integers and variables by sums and by
products with at most one factor that is not constant (`to_affine`). -/
def toAffine? : Expr → Checked (Option Affine)
  | .int n => pure (some (.const n))
  | .var name => pure (some (.var name))
  | .sum terms => sumToAffine? (.const 0) terms
  | .product factors => productToAffine? (.const 1) factors
  | _ => pure none

/-- The affine form of a sum, on top of a running total. -/
def sumToAffine? (total : Affine) : List Expr → Checked (Option Affine)
  | [] => pure (some total)
  | e :: rest => do
    let some f ← e.toAffine? | pure none
    sumToAffine? (← total.add f) rest

/-- The affine form of a product, on top of a running one. -/
def productToAffine? (total : Affine) : List Expr → Checked (Option Affine)
  | [] => pure (some total)
  | e :: rest => do
    let some f ← e.toAffine? | pure none
    let some total ← mulAffine? total f | pure none
    productToAffine? total rest

end

end LoopKernel.Expr
