import LoopKernel.Source.Token

/-!
# Parsing with ordered choice

A parser takes tokens from the front of a list. Of two alternatives the first one that fits is
taken; a repetition goes on for as long as one more item fits. A tag that is not known ends the
whole parse.
Spec guidance: `SPEC_FULL.md` §11.
-/

namespace LoopKernel.Source

/-- Why a parser gives no result: the tokens do not fit, or a tag is not known. -/
inductive Misfit where
  | mismatch
  | unknownTag (name : String) (span : Span)
deriving DecidableEq, Repr

/-- The tokens still to be read, and the place of the last one that was. -/
structure Cursor where
  last : Span
  rest : List Lexeme
deriving DecidableEq, Repr

/-- A parser of values of a type. -/
abbrev Parser (α : Type) := StateT Cursor (Except Misfit) α

namespace Parser

variable {α β : Type}

/-- No value: the tokens do not fit. -/
def mismatch : Parser α := fun _ => .error .mismatch

/-- The first alternative, or where it does not fit the second one. -/
def orElse (p q : Parser α) : Parser α := fun c =>
  match p c with
  | .error .mismatch => q c
  | result => result

/-- The first alternative that fits. -/
def choice : List (Parser α) → Parser α
  | [] => mismatch
  | p :: rest => orElse p (choice rest)

/-- The value, or nothing where the tokens do not fit. -/
def optional (p : Parser α) : Parser (Option α) :=
  orElse (do pure (some (← p))) (pure none)

/-- Take the next token, if a function gives a value for it. -/
def take (accept : Token → Span → Option α) : Parser α := fun c =>
  match c.rest with
  | [] => .error .mismatch
  | l :: rest =>
    match accept l.token l.span with
    | some a => .ok (a, ⟨l.span, rest⟩)
    | none => .error .mismatch

/-- Take a given token. -/
def token (t : Token) : Parser Span := take fun t' span => if t' = t then some span else none

/-- Take a symbol. -/
def symbol (s : Symbol) : Parser Span := token (.symbol s)

/-- Take a reserved word. -/
def keyword (k : Keyword) : Parser Span := token (.keyword k)

/-- Values for as long as one more fits, at most one for each token of a list. -/
def manyWithin (p : Parser α) : List Lexeme → Parser (List α)
  | [] => pure []
  | _ :: limit => do
    match ← optional p with
    | none => pure []
    | some a => do pure (a :: (← manyWithin p limit))

/-- Values for as long as one more fits. Each one takes a token, so there are no more than tokens.
-/
def many (p : Parser α) : Parser (List α) := fun c => manyWithin p c.rest c

/-- At least one value. -/
def many1 (p : Parser α) : Parser (List α) := do
  let first ← p
  pure (first :: (← many p))

/-- At least one value, with a separator between two of them. -/
def separated1 (p : Parser α) (separator : Parser β) : Parser (List α) := do
  let first ← p
  pure (first :: (← many (do let _ ← separator; p)))

/-- Values, with a separator between two of them. -/
def separated (p : Parser α) (separator : Parser β) : Parser (List α) := do
  pure ((← optional (separated1 p separator)).getD [])

/-- A value between two symbols. -/
def between (opening closing : Symbol) (p : Parser α) : Parser α := do
  let _ ← symbol opening
  let a ← p
  let _ ← symbol closing
  pure a

/-- A value with the place from its first to its last token. -/
def spanned (p : Parser α) : Parser (α × Span) := fun c =>
  match c.rest with
  | [] => .error .mismatch
  | l :: _ =>
    match p c with
    | .ok (a, c') => .ok ((a, l.span.through c'.last), c')
    | .error e => .error e

/-- Succeed at the end of the tokens. -/
def atEnd : Parser Unit := fun c => if c.rest.isEmpty then .ok ((), c) else .error .mismatch

end Parser

end LoopKernel.Source
