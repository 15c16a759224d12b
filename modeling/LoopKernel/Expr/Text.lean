import LoopKernel.Expr.Basic
import LoopKernel.Number.Decimal

/-!
# Text of expressions

Expressions are written with the parentheses that the precedence of the operators asks for. A
negated term of a sum is written with a minus sign.
Spec guidance: `SPEC_FULL.md` §11.
-/

namespace LoopKernel.Expr

/-- Whether a list of factors is the negation of one expression (`is_negation`). -/
def isNegation : List Expr → Bool
  | [.int (-1), _] => true
  | _ => false

/-- How tightly an expression holds together, from sums at one to atoms at five. -/
def precedence : Expr → Nat
  | .sum _ => 1
  | .product factors => if isNegation factors then 3 else 2
  | .binary .power _ _ => 4
  | .binary _ _ _ => 2
  | .int n => if n < 0 then 3 else 5
  | .float x => if x.isNegative then 3 else 5
  | _ => 5

/-- The text of an expression where a given precedence is needed. -/
def enclose (e : Expr) (needed : Nat) (text : String) : String :=
  if e.precedence < needed then "(" ++ text ++ ")" else text

/-- An operator between its operands, with the precedences that these need. -/
structure Operator where
  symbol : String
  left : Nat
  right : Nat

/-- How an operation is written. -/
def operator : BinaryOp → Operator
  | .quotient => ⟨" / ", 2, 3⟩
  | .floorDiv => ⟨" // ", 2, 3⟩
  | .remainder => ⟨" % ", 2, 3⟩
  | .power => ⟨"**", 5, 5⟩

/-- The indices of a reduction: one alone, else a list in parentheses. -/
def bindersText (binders : List Binder) : String :=
  match binders with
  | [b] => b.text
  | _ => "(" ++ ", ".intercalate (binders.map Binder.text) ++ ")"

mutual

/-- The text of an expression. -/
def text : Expr → Checked String
  | .int n => pure (toString n)
  | .float x => pure x.text
  | .var name => pure name
  | .tagged name tag => pure (name ++ "$" ++ tag)
  | .subscript aggregate index => do
    pure (aggregate ++ "[" ++ ", ".intercalate (← texts 0 index) ++ "]")
  | .sum [] => pure ""
  | .sum (e :: rest) => do
    let first := enclose e 1 (← e.text)
    pure (first ++ String.join (← laterTermTexts rest))
  | .product [.int (-1), e] => do pure ("-" ++ enclose e 3 (← e.text))
  | .product factors => do pure ("*".intercalate (← texts 2 factors))
  | .binary op a b => do
    let left := enclose a (operator op).left (← a.text)
    let right := enclose b (operator op).right (← b.text)
    pure (left ++ (operator op).symbol ++ right)
  | .call function args => do
    pure (function ++ "(" ++ ", ".intercalate (← texts 0 args) ++ ")")
  | .reduction op binders body => do
    pure (op.kind.name ++ "(" ++ bindersText binders ++ ", " ++ (← body.text) ++ ")")

/-- The texts of several expressions where a given precedence is needed. -/
def texts (needed : Nat) : List Expr → Checked (List String)
  | [] => pure []
  | e :: rest => do
    let here := enclose e needed (← e.text)
    pure (here :: (← texts needed rest))

/-- The texts of the terms after the first one, each with its sign. -/
def laterTermTexts : List Expr → Checked (List String)
  | [] => pure []
  | .product [.int (-1), e] :: rest => do
    let here := " - " ++ enclose e 2 (← e.text)
    pure (here :: (← laterTermTexts rest))
  | .int n :: rest => do
    let here ← if n < 0 then do pure (" - " ++ toString (← check64 (-n)))
      else pure (" + " ++ toString n)
    pure (here :: (← laterTermTexts rest))
  | e :: rest => do
    let here := " + " ++ enclose e 2 (← e.text)
    pure (here :: (← laterTermTexts rest))

end

end LoopKernel.Expr
