import LoopKernel.IndexTag
import LoopKernel.Number.Binary64
import LoopKernel.Source.Span

/-!
# Tokens of kernel sources

Spec guidance: `SPEC_FULL.md` §11.
-/

namespace LoopKernel

/-- A reserved word. -/
inductive Keyword where
  | kernel
  | set
  | domain
  | arg
  | temp
  | tag
  | insn
  | and
  | global
  | image
  | scalar
  | deps
  | inames
deriving DecidableEq, Repr

namespace Keyword

/-- All reserved words. -/
def all : List Keyword :=
  [.kernel, .set, .domain, .arg, .temp, .tag, .insn, .and, .global, .image, .scalar, .deps, .inames]

/-- The word itself. -/
def text : Keyword → String
  | .kernel => "kernel"
  | .set => "set"
  | .domain => "domain"
  | .arg => "arg"
  | .temp => "temp"
  | .tag => "tag"
  | .insn => "insn"
  | .and => "and"
  | .global => "global"
  | .image => "image"
  | .scalar => "scalar"
  | .deps => "deps"
  | .inames => "inames"

/-- The reserved word with a text. -/
def ofText? (text : String) : Option Keyword := all.find? fun k => k.text == text

end Keyword

/-- An operator or a punctuation mark. -/
inductive Symbol where
  | leftParen
  | rightParen
  | leftBracket
  | rightBracket
  | comma
  | colon
  | assign
  | equal
  | less
  | lessEqual
  | greater
  | greaterEqual
  | plus
  | minus
  | star
  | starStar
  | slash
  | slashSlash
  | percent
  | dollar
  | at
  | tilde
deriving DecidableEq, Repr

/-- The text of a symbol. -/
def Symbol.text : Symbol → String
  | .leftParen => "("
  | .rightParen => ")"
  | .leftBracket => "["
  | .rightBracket => "]"
  | .comma => ","
  | .colon => ":"
  | .assign => "="
  | .equal => "=="
  | .less => "<"
  | .lessEqual => "<="
  | .greater => ">"
  | .greaterEqual => ">="
  | .plus => "+"
  | .minus => "-"
  | .star => "*"
  | .starStar => "**"
  | .slash => "/"
  | .slashSlash => "//"
  | .percent => "%"
  | .dollar => "$"
  | .at => "@"
  | .tilde => "~"

/-- A token. -/
inductive Token where
  | keyword (k : Keyword)
  | symbol (s : Symbol)
  /-- A size with a unit, in bytes. -/
  | size (bytes : Nat)
  | float (x : Binary64)
  | int (n : Nat)
  | axisTag (tag : IndexTag)
  | ident (name : String)
  /-- The end of a line, with the empty lines after it. -/
  | newline
deriving DecidableEq, Repr

/-- A token with its place. -/
structure Lexeme where
  token : Token
  span : Span
deriving DecidableEq, Repr

/-- A piece of text that is no token, with its place. -/
structure Stray where
  text : List Char
  span : Span
deriving DecidableEq, Repr

end LoopKernel
