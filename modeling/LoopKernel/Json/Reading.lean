import LoopKernel.Number.Binary64

/-!
# Reading JSON text

The value of a JSON text. Members of an object keep their order and their repetitions. A number
keeps its digits, and a string with half of a surrogate pair has no content. A function that reads
something from the front of a text gives what it read and the rest.
Spec guidance: `SPEC_FULL.md` §10.3.
-/

namespace LoopKernel

/-- A number as it is written: `digits * 10 ^ exponent` after its sign. -/
structure Numeral where
  negative : Bool
  digits : Nat
  exponent : Int
  /-- Whether there is neither a fraction nor an exponent part. -/
  isInteger : Bool
deriving DecidableEq, Repr

namespace Numeral

/-- The value of an integer without a sign. -/
def natural? (n : Numeral) : Option Nat :=
  if n.isInteger && !n.negative then some n.digits else none

/-- The value of an integer. -/
def integer? (n : Numeral) : Option Int :=
  if n.isInteger then some (if n.negative then -n.digits else n.digits) else none

/-- The nearest double precision number. -/
def nearest (n : Numeral) : Binary64 := .ofDecimal n.negative n.digits n.exponent

end Numeral

/-- A value that was read. -/
inductive JsonValue where
  | null
  | bool (b : Bool)
  | number (n : Numeral)
  | string (content : Option String)
  | array (items : List JsonValue)
  | object (members : List (Option String × JsonValue))

namespace JsonValue

/-- Drop blanks. -/
def skipBlanks (cs : List Char) : List Char :=
  cs.dropWhile fun c => c == ' ' || c == '\n' || c == '\t' || c == '\r'

/-- The value of a hexadecimal digit. -/
def hexValue? (c : Char) : Option Nat :=
  if c.isDigit then some (c.toNat - '0'.toNat)
  else if 'a' ≤ c ∧ c ≤ 'f' then some (c.toNat - 'a'.toNat + 10)
  else if 'A' ≤ c ∧ c ≤ 'F' then some (c.toNat - 'A'.toNat + 10)
  else none

/-- Four hexadecimal digits. -/
def hex4 : List Char → Option (Nat × List Char)
  | a :: b :: c :: d :: rest => do
    let a ← hexValue? a
    let b ← hexValue? b
    let c ← hexValue? c
    let d ← hexValue? d
    pure (((a * 16 + b) * 16 + c) * 16 + d, rest)
  | _ => none

/-- The character after a backslash, other than a code unit. -/
def plainEscape? (c : Char) : Option Char :=
  match c with
  | '"' | '\\' | '/' => some c
  | 'b' => some (Char.ofNat 8)
  | 'f' => some (Char.ofNat 12)
  | 'n' => some '\n'
  | 'r' => some '\r'
  | 't' => some '\t'
  | _ => none

/-- Code units of a string up to its closing quote: characters by their code points, and escaped
units marked. -/
def units : List Char → Option (List (Nat × Bool) × List Char)
  | [] => none
  | '"' :: rest => some ([], rest)
  | '\\' :: 'u' :: a :: b :: c :: d :: rest => do
    let (unit, _) ← hex4 [a, b, c, d]
    let (more, rest) ← units rest
    pure ((unit, true) :: more, rest)
  | '\\' :: c :: rest => do
    let c ← plainEscape? c
    let (more, rest) ← units rest
    pure ((c.toNat, false) :: more, rest)
  | c :: rest =>
    if c.toNat < 32 then none
    else do
      let (more, rest) ← units rest
      pure ((c.toNat, false) :: more, rest)

/-- The characters of code units, where two escaped units can be one character. Half of such a pair
has no character. -/
def characters? : List (Nat × Bool) → Option (List Char)
  | [] => some []
  | (high, true) :: (low, true) :: rest =>
    if 0xd800 ≤ high ∧ high < 0xdc00 then
      if 0xdc00 ≤ low ∧ low < 0xe000 then do
        let c := Char.ofNat (0x10000 + (high - 0xd800) * 1024 + (low - 0xdc00))
        pure (c :: (← characters? rest))
      else none
    else if 0xdc00 ≤ high ∧ high < 0xe000 then none
    else do pure (Char.ofNat high :: (← characters? ((low, true) :: rest)))
  | (unit, _) :: rest =>
    if 0xd800 ≤ unit ∧ unit < 0xe000 then none
    else do pure (Char.ofNat unit :: (← characters? rest))

/-- A string after its opening quote. -/
def readString (cs : List Char) : Option (Option String × List Char) := do
  let (us, rest) ← units cs
  pure ((characters? us).map String.ofList, rest)

/-- The digits at the front. -/
def digits (cs : List Char) : List Char := cs.takeWhile Char.isDigit

/-- The natural number of decimal digits. -/
def naturalOf (ds : List Char) : Nat := ds.foldl (fun n c => 10 * n + (c.toNat - '0'.toNat)) 0

/-- The digits of a fraction, if there is one. -/
def readFraction : List Char → Option (List Char × List Char)
  | '.' :: rest =>
    if (digits rest).isEmpty then none else some (digits rest, rest.drop (digits rest).length)
  | cs => some ([], cs)

/-- The value of an exponent part, if there is one. -/
def readExponent (cs : List Char) : Option (Int × List Char) :=
  match cs with
  | c :: rest =>
    if c == 'e' || c == 'E' then
      let (negative, unsigned) := match rest with
        | '-' :: more => (true, more)
        | '+' :: more => (false, more)
        | _ => (false, rest)
      let value : Int := naturalOf (digits unsigned)
      if (digits unsigned).isEmpty then none
      else some (if negative then -value else value, unsigned.drop (digits unsigned).length)
    else some (0, cs)
  | [] => some (0, cs)

/-- A number. It has no needless leading zero. -/
def readNumber (cs : List Char) : Option (JsonValue × List Char) := do
  let (negative, unsigned) := match cs with
    | '-' :: rest => (true, rest)
    | _ => (false, cs)
  let whole := digits unsigned
  if whole.isEmpty || (whole.head? == some '0' && 1 < whole.length) then none
  else
    let afterWhole := unsigned.drop whole.length
    let (fraction, rest) ← readFraction afterWhole
    let (exponent, rest) ← readExponent rest
    pure (.number ⟨negative, naturalOf (whole ++ fraction), exponent - fraction.length,
      rest.length == afterWhole.length⟩, rest)

mutual

/-- A value, in which at most `depth` characters are read. -/
def readValue : (depth : Nat) → List Char → Option (JsonValue × List Char)
  | 0, _ => none
  | depth + 1, cs =>
    match skipBlanks cs with
    | 'n' :: 'u' :: 'l' :: 'l' :: rest => some (.null, rest)
    | 't' :: 'r' :: 'u' :: 'e' :: rest => some (.bool true, rest)
    | 'f' :: 'a' :: 'l' :: 's' :: 'e' :: rest => some (.bool false, rest)
    | '"' :: rest => do
      let (s, rest) ← readString rest
      pure (.string s, rest)
    | '[' :: rest =>
      match skipBlanks rest with
      | ']' :: rest => some (.array [], rest)
      | _ => do
        let (items, rest) ← readItems depth rest
        pure (.array items, rest)
    | '\x7b' :: rest =>
      match skipBlanks rest with
      | '\x7d' :: rest => some (.object [], rest)
      | _ => do
        let (members, rest) ← readMembers depth rest
        pure (.object members, rest)
    | rest => readNumber rest

/-- The items of an array up to its end. -/
def readItems : (depth : Nat) → List Char → Option (List JsonValue × List Char)
  | 0, _ => none
  | depth + 1, cs => do
    let (first, rest) ← readValue depth cs
    match skipBlanks rest with
    | ',' :: rest => do
      let (more, rest) ← readItems depth rest
      pure (first :: more, rest)
    | ']' :: rest => some ([first], rest)
    | _ => none

/-- The members of an object up to its end. -/
def readMembers : (depth : Nat) → List Char → Option (List (Option String × JsonValue) × List Char)
  | 0, _ => none
  | depth + 1, cs =>
    match skipBlanks cs with
    | '"' :: rest => do
      let (name, rest) ← readString rest
      match skipBlanks rest with
      | ':' :: rest => do
        let (first, rest) ← readValue depth rest
        match skipBlanks rest with
        | ',' :: rest => do
          let (more, rest) ← readMembers depth rest
          pure ((name, first) :: more, rest)
        | '\x7d' :: rest => some ([(name, first)], rest)
        | _ => none
      | _ => none
    | _ => none

end

/-- The value of a text that holds nothing else. Every step into a value reads a character. -/
def ofText? (text : String) : Option JsonValue := do
  let (v, rest) ← readValue (2 * text.length + 2) text.toList
  if (skipBlanks rest).isEmpty then some v else none

end JsonValue

end LoopKernel
