import LoopKernel.Source.Lexer
import LoopKernel.Source.Parsing
import LoopKernel.Source.Tree

/-!
# The grammar of kernel sources

One statement stands on a line. In expressions `**` binds tightest and to the right, then the unary
minus, then the products, then the sums; both of these group to the left.
Spec guidance: `SPEC_FULL.md` §11.
-/

namespace LoopKernel.Source

open LoopKernel.Source.Parser

/-- A name. -/
def ident : Parser Ident := take fun t span =>
  match t with
  | .ident name => some ⟨name, span⟩
  | _ => none

/-- A comma. -/
def comma : Parser Span := symbol .comma

/-! ## Expressions -/

/-- A number. -/
def number : Parser Term := take fun t span =>
  match t with
  | .int n => some (.int span n)
  | .float x => some (.float span x)
  | _ => none

/-- A loop index of a reduction, possibly marked. -/
def boundIndex : Parser BoundIndex := do
  let mark ← optional (symbol .at)
  pure ⟨← ident, mark.isSome⟩

/-- The loop indices of a reduction: one alone, or a list in parentheses. -/
def boundIndices : Parser (List BoundIndex) :=
  orElse (do pure [← boundIndex])
    (between .leftParen .rightParen (separated1 boundIndex comma))

/-- The name of a reduction operation. -/
def reductionName : Parser (ReductionKind × Span) := take fun t span =>
  match t with
  | .ident name => (ReductionKind.ofName? name).map fun kind => (kind, span)
  | _ => none

/-- A reduction. -/
def reduction (expression : Parser Term) : Parser Term := do
  let (((kind, opSpan), indices, body), span) ← spanned do
    let op ← reductionName
    let _ ← symbol .leftParen
    let indices ← boundIndices
    let _ ← comma
    let body ← expression
    let _ ← symbol .rightParen
    pure (op, indices, body)
  pure (.reduce span kind opSpan indices body)

/-- A call. -/
def call (expression : Parser Term) : Parser Term := do
  let ((function, args), span) ← spanned do
    let function ← ident
    pure (function, ← between .leftParen .rightParen (separated expression comma))
  pure (.call span function args)

/-- A name with a tag. -/
def taggedName : Parser Term := do
  let ((name, tag), span) ← spanned do
    let name ← ident
    let _ ← symbol .dollar
    pure (name, ← ident)
  pure (.tagged span name.name tag.name)

/-- At least one expression in brackets. -/
def bracketedTerms (expression : Parser Term) : Parser (List Term) :=
  between .leftBracket .rightBracket (separated1 expression comma)

/-- An array element. -/
def subscript (expression : Parser Term) : Parser Term := do
  let ((aggregate, index), span) ← spanned do
    let aggregate ← ident
    pure (aggregate, ← bracketedTerms expression)
  pure (.subscript span aggregate index)

/-- A name alone. -/
def plainName : Parser Term := do
  let id ← ident
  pure (.var id.span id.name)

/-- An expression without operators outside parentheses. -/
def atom (expression : Parser Term) : Parser Term :=
  choice [number, reduction expression, call expression, taggedName, subscript expression,
    plainName, between .leftParen .rightParen expression]

/-- Two operands joined by an operator. -/
def join (op : Operator) (left right : Term) : Term :=
  .binary (left.span.through right.span) op left right

/-- A tower of powers, which groups to the right. -/
def tower (base : Term) : List Term → Term
  | [] => base
  | e :: rest => join .pow base (tower e rest)

/-- A power. -/
def power (expression : Parser Term) : Parser Term := do
  let base ← atom expression
  pure (tower base (← many (do let _ ← symbol .starStar; atom expression)))

/-- A power after any number of minus signs. -/
def unary (expression : Parser Term) : Parser Term := do
  let signs ← many (symbol .minus)
  let operand ← power expression
  pure (signs.foldr (fun sign e => .neg (sign.through e.span) e) operand)

/-- The operator of a product. -/
def productOperator : Parser Operator := take fun t _ =>
  match t with
  | .symbol .star => some .mul
  | .symbol .slash => some .div
  | .symbol .slashSlash => some .floorDiv
  | .symbol .percent => some .mod
  | _ => none

/-- The operator of a sum. -/
def sumOperator : Parser Operator := take fun t _ =>
  match t with
  | .symbol .plus => some .add
  | .symbol .minus => some .sub
  | _ => none

/-- Operands joined by operators, which group to the left. -/
def leftChain (operator : Parser Operator) (operand : Parser Term) : Parser Term := do
  let first ← operand
  let rest ← many (do pure (← operator, ← operand))
  pure (rest.foldl (fun left (op, right) => join op left right) first)

/-- A sum of products, given a parser for the expressions in parentheses and brackets. -/
def sum (expression : Parser Term) : Parser Term :=
  leftChain sumOperator (leftChain productOperator (unary expression))

/-- An expression that is nested at most as deep as a list of tokens is long. -/
def expressionWithin : List Lexeme → Parser Term
  | [] => mismatch
  | _ :: limit => sum (expressionWithin limit)

/-- An expression. Every level of nesting takes a token, and so does what is innermost. -/
def expression : Parser Term := fun c => expressionWithin c.rest c

/-! ## Statements -/

/-- The name of the kernel. -/
def kernelStatement : Parser StatementBody := do
  let _ ← keyword .kernel
  pure (.kernel (← ident))

/-- The value of a setting. -/
def settingValue : Parser (SettingValue × Span) := take fun t span =>
  match t with
  | .int n => some (.int n, span)
  | .size bytes => some (.size bytes, span)
  | .keyword .global => some (.word "global", span)
  | .ident name => some (.word name, span)
  | _ => none

/-- A setting. -/
def setStatement : Parser StatementBody := do
  let _ ← keyword .set
  let name ← ident
  let _ ← symbol .assign
  let (value, span) ← settingValue
  pure (.set name value span)

/-- A comparison. -/
def comparison : Parser Comparison := take fun t _ =>
  match t with
  | .symbol .less => some .lt
  | .symbol .lessEqual => some .le
  | .symbol .greater => some .gt
  | .symbol .greaterEqual => some .ge
  | .symbol .equal => some .eq
  | _ => none

/-- A chain of comparisons. -/
def chain : Parser Chain := do
  let ((first, rest), span) ← spanned do
    let first ← expression
    pure (first, ← many1 (do pure (← comparison, ← expression)))
  pure ⟨first, rest, span⟩

/-- The domain. -/
def domainStatement : Parser StatementBody := do
  let _ ← keyword .domain
  let dims ← between .leftBracket .rightBracket (separated ident comma)
  let _ ← symbol .colon
  pure (.domain dims (← separated1 chain (keyword .and)))

/-- An array argument. -/
def arrayStatement : Parser StatementBody := do
  let _ ← keyword .arg
  let form ← choice [do let _ ← keyword .global; pure ArgumentForm.global,
    do let _ ← keyword .image; pure ArgumentForm.image]
  let dtype ← ident
  let name ← ident
  pure (.arg (form (← bracketedTerms expression)) dtype name)

/-- An integer with its place. -/
def integer : Parser (Nat × Span) := take fun t span =>
  match t with
  | .int n => some (n, span)
  | _ => none

/-- A scalar argument. -/
def scalarStatement : Parser StatementBody := do
  let _ ← keyword .arg
  let _ ← keyword .scalar
  let dtype ← ident
  let name ← ident
  let _ ← symbol .tilde
  let (approximately, span) ← integer
  pure (.arg (.scalar approximately span) dtype name)

/-- A temporary. -/
def tempStatement : Parser StatementBody := do
  let _ ← keyword .temp
  let dtype ← ident
  let name ← ident
  pure (.temp dtype name (← bracketedTerms expression))

/-- A name that is a tag. One that is none ends the parse. -/
def namedTag : Parser IndexTag := fun c => do
  let (id, c) ← ident c
  match IndexTag.parse? id.name with
  | some tag => .ok (tag, c)
  | none => .error (.unknownTag id.name id.span)

/-- A tag. -/
def tagValue : Parser IndexTag :=
  orElse
    (take fun t _ =>
      match t with
      | .axisTag tag => some tag
      | _ => none)
    namedTag

/-- A loop index and its tag. -/
def tagEntry : Parser TagEntry := do
  let ((iname, tag), span) ← spanned do
    let iname ← ident
    let _ ← symbol .assign
    pure (iname, ← tagValue)
  pure ⟨iname, tag, span⟩

/-- Tags of loop indices. -/
def tagStatement : Parser StatementBody := do
  let _ ← keyword .tag
  pure (.tag (← separated1 tagEntry comma))

/-- A variable or an array element to assign to. -/
def assignee : Parser Term := do
  let ((name, index), span) ← spanned do
    let name ← ident
    pure (name, ← optional (bracketedTerms expression))
  match index with
  | some index => pure (.subscript span name index)
  | none => pure (.var name.span name.name)

/-- Names in parentheses after a reserved word, or none. -/
def nameList (k : Keyword) : Parser (List Ident) := do
  let names ← optional do
    let _ ← keyword k
    between .leftParen .rightParen (separated ident comma)
  pure (names.getD [])

/-- An instruction. -/
def insnStatement : Parser StatementBody := do
  let _ ← keyword .insn
  let id ← optional do
    let id ← ident
    let _ ← symbol .colon
    pure id
  let assignee ← assignee
  let _ ← symbol .assign
  let expression ← expression
  let deps ← nameList .deps
  let inames ← nameList .inames
  pure (.insn ⟨id, assignee, expression, deps, inames⟩)

/-- A statement. -/
def statement : Parser Statement := do
  let (body, span) ← spanned (choice [kernelStatement, setStatement, domainStatement,
    arrayStatement, scalarStatement, tempStatement, tagStatement, insnStatement])
  pure ⟨body, span⟩

/-- All statements, between line ends. -/
def statements : Parser (List Statement) := do
  let _ ← many (token .newline)
  let found ← separated statement (many1 (token .newline))
  let _ ← many (token .newline)
  atEnd
  pure found

/-- The place from the first to the last of several tokens; `stop` where there are none. -/
def extent (stop : Nat) : List Lexeme → Span
  | [] => ⟨stop, stop⟩
  | first :: rest => first.span.through (rest.getLastD first).span

/-- The statements in a list of tokens of a source of `length` bytes. -/
def parseTokens (lexemes : List Lexeme) (length : Nat) : Except Misfit File := do
  let (found, _) ← statements ⟨⟨length, length⟩, lexemes⟩
  pure ⟨found, extent length lexemes⟩

/-- What reading a source gave: the stray pieces of text, and the statements. -/
structure Reading where
  strays : List Stray
  file : Except Misfit File

/-- Read a source (`parse`). Tokens around stray pieces are still put together to statements. -/
def read (source : String) : Reading :=
  let pieces := Lexer.split source
  ⟨pieces.strays, parseTokens pieces.lexemes source.utf8ByteSize⟩

end LoopKernel.Source
