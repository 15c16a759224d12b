import LoopKernel.Expr.Basic
import LoopKernel.IndexTag
import LoopKernel.Source.Span

/-!
# Trees of kernel sources

A kernel source is a list of statements. Every part has its place in the source.
Spec guidance: `SPEC_FULL.md` §11.
-/

namespace LoopKernel.Source

/-- A name with its place. -/
structure Ident where
  name : String
  span : Span
deriving DecidableEq, Repr

/-- An operator between two operands. -/
inductive Operator where
  | add
  | sub
  | mul
  | div
  | floorDiv
  | mod
  | pow
deriving DecidableEq, Repr

/-- An index bound by a reduction, and whether a copy of it is asked for. -/
structure BoundIndex where
  index : Ident
  marked : Bool
deriving DecidableEq, Repr

/-- An expression as it is written (`ExprNode`). Parentheses leave no trace. -/
inductive Term where
  | int (span : Span) (n : Int)
  | float (span : Span) (x : Binary64)
  | var (span : Span) (name : String)
  | tagged (span : Span) (name tag : String)
  | subscript (span : Span) (aggregate : Ident) (index : List Term)
  | neg (span : Span) (operand : Term)
  | binary (span : Span) (op : Operator) (left right : Term)
  | call (span : Span) (function : Ident) (args : List Term)
  /-- A reduction. One of `max` or `min` over a name that is no loop index is a call. -/
  | reduce (span : Span) (op : ReductionKind) (opSpan : Span) (indices : List BoundIndex)
      (body : Term)

/-- The place of an expression. -/
def Term.span : Term → Span
  | .int span _ | .float span _ | .var span _ | .tagged span _ _ | .subscript span _ _
  | .neg span _ | .binary span _ _ _ | .call span _ _ | .reduce span _ _ _ _ => span

instance : Inhabited Term := ⟨.int ⟨0, 0⟩ 0⟩

/-- A comparison. -/
inductive Comparison where
  | lt
  | le
  | gt
  | ge
  | eq
deriving DecidableEq, Repr

/-- A chain of comparisons, each between neighbours. -/
structure Chain where
  first : Term
  rest : List (Comparison × Term)
  span : Span

/-- The value of a setting. -/
inductive SettingValue where
  | int (n : Nat)
  | size (bytes : Nat)
  | word (name : String)
deriving DecidableEq, Repr

/-- What an argument statement declares. -/
inductive ArgumentForm where
  | global (shape : List Term)
  | image (shape : List Term)
  | scalar (approximately : Nat) (span : Span)

/-- A tag given to a loop index. -/
structure TagEntry where
  iname : Ident
  tag : IndexTag
  span : Span
deriving DecidableEq, Repr

/-- An instruction statement (`InsnStmt`). -/
structure InsnStatement where
  id : Option Ident
  assignee : Term
  expression : Term
  deps : List Ident
  inames : List Ident

/-- What a statement says. -/
inductive StatementBody where
  | kernel (name : Ident)
  | set (name : Ident) (value : SettingValue) (valueSpan : Span)
  | domain (dims : List Ident) (chains : List Chain)
  | arg (form : ArgumentForm) (dtype name : Ident)
  | temp (dtype name : Ident) (shape : List Term)
  | tag (entries : List TagEntry)
  | insn (statement : InsnStatement)

/-- A statement with its place. -/
structure Statement where
  body : StatementBody
  span : Span

/-- A kernel source (`KernelSource`). -/
structure File where
  statements : List Statement
  span : Span

end LoopKernel.Source
