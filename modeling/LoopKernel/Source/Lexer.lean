import LoopKernel.Source.Token

/-!
# Splitting a source into tokens

At each place the longest token that fits is taken. Blanks and comments are skipped. A character
that starts no token, and a literal out of range, is a stray piece of text; splitting goes on after
it.
Spec guidance: `SPEC_FULL.md` §11.
-/

namespace LoopKernel.Lexer

/-- What a piece of text is. -/
inductive Piece where
  | blank
  | token (t : Token)
  | stray
deriving DecidableEq, Repr

/-- A piece of text that starts at a given character, with the number of characters after that one
that belong to it. -/
structure Scan where
  piece : Piece
  more : Nat
deriving DecidableEq, Repr

/-- Blanks other than line ends. -/
def isBlank (c : Char) : Bool := c == ' ' || c == '\t' || c == '\r'

/-- Characters that start a name. -/
def startsName (c : Char) : Bool := c.isAlpha || c == '_'

/-- Characters inside a name. -/
def continuesName (c : Char) : Bool := c.isAlphanum || c == '_'

/-- Number of characters at the front that satisfy a test. -/
def run (p : Char → Bool) (cs : List Char) : Nat := (cs.takeWhile p).length

/-- The value of a list of decimal digits. -/
def decimalValue (cs : List Char) : Nat :=
  cs.foldl (fun n c => 10 * n + (c.toNat - '0'.toNat)) 0

/-- A token, or a stray piece when the literal is out of range. -/
def tokenOrStray (t : Option Token) (more : Nat) : Scan :=
  match t with
  | some t => ⟨.token t, more⟩
  | none => ⟨.stray, more⟩

/-- The exponent part at the front: its value and its number of characters. -/
def exponentPart? (cs : List Char) : Option (Int × Nat) :=
  match cs with
  | e :: rest =>
    if e == 'e' || e == 'E' then
      let (negative, digits, sign) := match rest with
        | '+' :: digits => (false, digits, 1)
        | '-' :: digits => (true, digits, 1)
        | _ => (false, rest, 0)
      let count := run Char.isDigit digits
      if count = 0 then none
      else
        let value : Int := decimalValue (digits.take count)
        some (if negative then -value else value, 1 + sign + count)
    else none
  | [] => none

/-- The unit of a size at the front (`parse_size`): its number of bytes. -/
def unit? (cs : List Char) : Option Nat :=
  match cs with
  | 'K' :: 'B' :: _ => some 1024
  | 'M' :: 'B' :: _ => some (1024 * 1024)
  | 'G' :: 'B' :: _ => some (1024 * 1024 * 1024)
  | _ => none

/-- The number of digits after a decimal point at the front, zero when there is no fraction. -/
def fractionLength (cs : List Char) : Nat :=
  match cs with
  | '.' :: rest => run Char.isDigit rest
  | _ => 0

/-- A number that starts with a given digit: a size, a floating-point number or an integer. -/
def scanNumber (c : Char) (rest : List Char) : Scan :=
  let count := run Char.isDigit rest
  let whole := c :: rest.take count
  let after := rest.drop count
  match unit? after with
  | some unit =>
    let value := decimalValue whole
    let bytes := value * unit
    let limit := 1 <<< 64
    tokenOrStray (if value < limit ∧ bytes < limit then some (.size bytes) else none) (count + 2)
  | none =>
    let places := fractionLength after
    if places = 0 then
      match exponentPart? after with
      | some (exponent, length) =>
        ⟨.token (.float (.ofDecimal false (decimalValue whole) exponent)), count + length⟩
      | none =>
        let value := decimalValue whole
        tokenOrStray (if value < 1 <<< 63 then some (.int value) else none) count
    else
      let digits := whole ++ (after.drop 1).take places
      match exponentPart? (after.drop (1 + places)) with
      | some (exponent, length) =>
        ⟨.token (.float (.ofDecimal false (decimalValue digits) (exponent - places))),
          count + 1 + places + length⟩
      | none =>
        ⟨.token (.float (.ofDecimal false (decimalValue digits) (-places))), count + 1 + places⟩

/-- Number of characters of the axis after a kind letter and a point, zero when there is none
(`parse_axis_tag`). -/
def axisLength (cs : List Char) : Nat :=
  match cs with
  | '.' :: 'a' :: 'u' :: 't' :: 'o' :: _ => 5
  | '.' :: rest => if run Char.isDigit rest = 0 then 0 else 1 + run Char.isDigit rest
  | _ => 0

/-- A word that starts with a given character: an axis tag, a reserved word or a name. -/
def scanWord (c : Char) (rest : List Char) : Scan :=
  let axis := if c == 'l' || c == 'g' then axisLength rest else 0
  if axis = 0 then
    let count := run continuesName rest
    let name := String.ofList (c :: rest.take count)
    match Keyword.ofText? name with
    | some k => ⟨.token (.keyword k), count⟩
    | none => ⟨.token (.ident name), count⟩
  else
    let tag := IndexTag.parse? (String.ofList (c :: rest.take axis))
    tokenOrStray (tag.map .axisTag) axis

/-- The symbol that starts with a given character. -/
def symbol? (c : Char) (rest : List Char) : Option (Symbol × Nat) :=
  match c, rest with
  | '=', '=' :: _ => some (.equal, 1)
  | '<', '=' :: _ => some (.lessEqual, 1)
  | '>', '=' :: _ => some (.greaterEqual, 1)
  | '*', '*' :: _ => some (.starStar, 1)
  | '/', '/' :: _ => some (.slashSlash, 1)
  | '(', _ => some (.leftParen, 0)
  | ')', _ => some (.rightParen, 0)
  | '[', _ => some (.leftBracket, 0)
  | ']', _ => some (.rightBracket, 0)
  | ',', _ => some (.comma, 0)
  | ':', _ => some (.colon, 0)
  | '=', _ => some (.assign, 0)
  | '<', _ => some (.less, 0)
  | '>', _ => some (.greater, 0)
  | '+', _ => some (.plus, 0)
  | '-', _ => some (.minus, 0)
  | '*', _ => some (.star, 0)
  | '/', _ => some (.slash, 0)
  | '%', _ => some (.percent, 0)
  | '$', _ => some (.dollar, 0)
  | '@', _ => some (.at, 0)
  | '~', _ => some (.tilde, 0)
  | _, _ => none

/-- The piece of text that starts with a given character. -/
def scan (c : Char) (rest : List Char) : Scan :=
  if isBlank c then ⟨.blank, run isBlank rest⟩
  else if c == '#' then ⟨.blank, run (· != '\n') rest⟩
  else if c == '\n' then ⟨.token .newline, run (· == '\n') rest⟩
  else if c.isDigit then scanNumber c rest
  else if startsName c then scanWord c rest
  else
    match symbol? c rest with
    | some (s, more) => ⟨.token (.symbol s), more⟩
    | none => ⟨.stray, 0⟩

/-- Number of bytes of a piece of text. -/
def byteLength (cs : List Char) : Nat := cs.foldl (fun n c => n + c.utf8Size) 0

/-- Tokens and stray pieces of a source, each in order. -/
structure Result where
  lexemes : List Lexeme
  strays : List Stray
deriving DecidableEq, Repr

/-- A result with one more piece in front. -/
def Result.cons (piece : Piece) (text : List Char) (span : Span) (r : Result) : Result :=
  match piece with
  | .blank => r
  | .token t => { r with lexemes := ⟨t, span⟩ :: r.lexemes }
  | .stray => { r with strays := ⟨text, span⟩ :: r.strays }

/-- Split the characters from a byte offset on. -/
def splitFrom (offset : Nat) : List Char → Result
  | [] => ⟨[], []⟩
  | c :: rest =>
    let s := scan c rest
    let text := c :: rest.take s.more
    let stop := offset + byteLength text
    (splitFrom stop (rest.drop s.more)).cons s.piece text ⟨offset, stop⟩
termination_by cs => cs.length
decreasing_by
  simp only [List.length_cons, List.length_drop]
  omega

/-- Split a source into tokens and stray pieces (`lex`). -/
def split (source : String) : Result := splitFrom 0 source.toList

end LoopKernel.Lexer
