import LoopKernel.Dtype
import LoopKernel.NameSet
import LoopKernel.Number.Binary64

/-!
# Instruction expressions

Expression trees of instructions. A difference is a sum with a negated term, and a negation is a
product with the factor `-1`, so the operations counted are those that were written.
Spec guidance: `SPEC_FULL.md` §§3/11.
-/

namespace LoopKernel

/-- The operations that reductions fold with. -/
inductive ReductionKind where
  | sum
  | product
  | max
  | min
deriving DecidableEq, Repr

namespace ReductionKind

/-- The name of an operation. -/
def name : ReductionKind → String
  | .sum => "sum"
  | .product => "product"
  | .max => "max"
  | .min => "min"

/-- The operation of a name. -/
def ofName? : String → Option ReductionKind
  | "sum" => some .sum
  | "product" => some .product
  | "max" => some .max
  | "min" => some .min
  | _ => none

end ReductionKind

/-- An associative, commutative operation on elements of a type. -/
structure ReductionOp where
  kind : ReductionKind
  dtype : Dtype
deriving DecidableEq, Repr

/-- A loop index bound by a reduction. Each mark asks for a copy of the index. -/
structure Binder where
  name : String
  marks : Nat
deriving DecidableEq, Repr

namespace Binder

/-- The binder of a text: a name after any number of `@` marks. -/
def ofText (text : String) : Binder :=
  let marks := (text.toList.takeWhile (· == '@')).length
  ⟨String.ofList (text.toList.drop marks), marks⟩

/-- The text of a binder. -/
def text (b : Binder) : String := "".pushn '@' b.marks ++ b.name

/-- Whether a copy of the index is asked for. -/
def isMarked (b : Binder) : Bool := b.marks != 0

end Binder

/-- The operations with two operands that are not flattened. -/
inductive BinaryOp where
  | quotient
  | floorDiv
  | remainder
  | power
deriving DecidableEq, Repr

/-- An expression. -/
inductive Expr where
  | int (n : Int)
  | float (x : Binary64)
  | var (name : String)
  /-- A name with a tag, which costs nothing in operation counts. -/
  | tagged (name tag : String)
  | subscript (aggregate : String) (index : List Expr)
  | sum (terms : List Expr)
  | product (factors : List Expr)
  | binary (op : BinaryOp) (left right : Expr)
  | call (function : String) (args : List Expr)
  | reduction (op : ReductionOp) (binders : List Binder) (body : Expr)

namespace Expr

instance : Inhabited Expr := ⟨.int 0⟩

/-! ## Building -/

/-- The negation: of a literal in place, else a product with `-1`. -/
def negate : Expr → Checked Expr
  | .int n => do pure (.int (← check64 (-n)))
  | .float x => pure (.float x.neg)
  | e => pure (.product [.int (-1), e])

/-- The sum; a sum on the left takes one more term. -/
def add : Expr → Expr → Expr
  | .sum terms, e => .sum (terms ++ [e])
  | l, e => .sum [l, e]

/-- The difference, as a sum with the negated right side. -/
def sub (l r : Expr) : Checked Expr := do pure (add l (← negate r))

/-- The product; a product on the left takes one more factor. -/
def mul : Expr → Expr → Expr
  | .product factors, e => .product (factors ++ [e])
  | l, e => .product [l, e]

/-! ## Views -/

/-- The direct subexpressions, in order. -/
def children : Expr → List Expr
  | .int _ | .float _ | .var _ | .tagged _ _ => []
  | .subscript _ index => index
  | .sum es | .product es => es
  | .binary _ a b => [a, b]
  | .call _ args => args
  | .reduction _ _ body => [body]

mutual

/-- Whether a reduction occurs in an expression (`contains_reduction`). -/
def containsReduction : Expr → Bool
  | .int _ | .float _ | .var _ | .tagged _ _ => false
  | .subscript _ index => anyContainsReduction index
  | .sum es | .product es => anyContainsReduction es
  | .binary _ a b => a.containsReduction || b.containsReduction
  | .call _ args => anyContainsReduction args
  | .reduction _ _ _ => true

/-- Whether a reduction occurs in one of several expressions. -/
def anyContainsReduction : List Expr → Bool
  | [] => false
  | e :: rest => e.containsReduction || anyContainsReduction rest

end

mutual

/-- Free names, those of subscripted arrays included. A reduction binds its indices; the names of
called functions are not counted. -/
def dependencies : Expr → NameSet
  | .int _ | .float _ => ∅
  | .var name | .tagged name _ => NameSet.ofList [name]
  | .subscript aggregate index => (dependenciesOfAll index).add aggregate
  | .sum es | .product es => dependenciesOfAll es
  | .binary _ a b => a.dependencies.union b.dependencies
  | .call _ args => dependenciesOfAll args
  | .reduction _ binders body =>
    body.dependencies.diff (NameSet.ofList (binders.map Binder.name))

/-- The free names of several expressions together. -/
def dependenciesOfAll : List Expr → NameSet
  | [] => ∅
  | e :: rest => e.dependencies.union (dependenciesOfAll rest)

end

mutual

/-- Array accesses with their indices (`array_accesses`), outer ones before those in the indices. -/
def arrayAccesses : Expr → List (String × List Expr)
  | .int _ | .float _ | .var _ | .tagged _ _ => []
  | .subscript aggregate index => (aggregate, index) :: arrayAccessesOfAll index
  | .sum es | .product es => arrayAccessesOfAll es
  | .binary _ a b => a.arrayAccesses ++ b.arrayAccesses
  | .call _ args => arrayAccessesOfAll args
  | .reduction _ _ body => body.arrayAccesses

/-- The array accesses of several expressions, in order. -/
def arrayAccessesOfAll : List Expr → List (String × List Expr)
  | [] => []
  | e :: rest => e.arrayAccesses ++ arrayAccessesOfAll rest

end

/-! ## Substitution -/

mutual

/-- Replace free variables. Indices bound by a reduction are not replaced inside it. -/
def substitute (values : SortedMap String Expr) : Expr → Expr
  | .var name => values.getD name (.var name)
  | .subscript aggregate index => .subscript aggregate (substituteAll values index)
  | .sum es => .sum (substituteAll values es)
  | .product es => .product (substituteAll values es)
  | .binary op a b => .binary op (a.substitute values) (b.substitute values)
  | .call function args => .call function (substituteAll values args)
  | .reduction op binders body =>
    .reduction op binders (body.substitute (binders.foldl (fun m b => m.erase b.name) values))
  | e => e

/-- Replace free variables in several expressions. -/
def substituteAll (values : SortedMap String Expr) : List Expr → List Expr
  | [] => []
  | e :: rest => e.substitute values :: substituteAll values rest

end

variable {m : Type → Type} [Monad m]

mutual

/-- Replace every reduction, after those in its body, by what an action gives; everything else stays
(`rewrite_reductions`). -/
def mapReductionsM (action : ReductionOp → List Binder → Expr → m Expr) : Expr → m Expr
  | .int n => pure (.int n)
  | .float x => pure (.float x)
  | .var name => pure (.var name)
  | .tagged name tag => pure (.tagged name tag)
  | .subscript aggregate index => do
    pure (.subscript aggregate (← mapReductionsAllM action index))
  | .sum es => do pure (.sum (← mapReductionsAllM action es))
  | .product es => do pure (.product (← mapReductionsAllM action es))
  | .binary op a b => do
    let a ← a.mapReductionsM action
    pure (.binary op a (← b.mapReductionsM action))
  | .call function args => do pure (.call function (← mapReductionsAllM action args))
  | .reduction op binders body => do action op binders (← body.mapReductionsM action)

/-- Replace the reductions of several expressions, in order. -/
def mapReductionsAllM (action : ReductionOp → List Binder → Expr → m Expr) :
    List Expr → m (List Expr)
  | [] => pure []
  | e :: rest => do
    let e ← e.mapReductionsM action
    pure (e :: (← mapReductionsAllM action rest))

end

end Expr

namespace ReductionOp

/-- The value that leaves the other operand as it is (`neutral_element`). For `max` and `min` this
is an infinity, or the end of the integer range. -/
def neutral (op : ReductionOp) : Expr :=
  match op.kind, op.dtype.isFloat with
  | .sum, _ => .int 0
  | .product, _ => .int 1
  | .max, true => .product [.int (-1), .var "INFINITY"]
  | .min, true => .var "INFINITY"
  | .max, false => .int op.dtype.integers.least
  | .min, false => .int op.dtype.integers.greatest

/-- The operation on two operands, as an expression. -/
def apply (op : ReductionOp) (accumulator value : Expr) : Expr :=
  match op.kind with
  | .sum => .sum [accumulator, value]
  | .product => .product [accumulator, value]
  | .max | .min => .call op.kind.name [accumulator, value]

end ReductionOp

end LoopKernel
