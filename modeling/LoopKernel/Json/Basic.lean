import LoopKernel.Number.Decimal
import LoopKernel.SortedMap

/-!
# Exchange text

Values written as JSON text without spaces. Members of an object keep their order.
Spec guidance: `SPEC_FULL.md` §10.4.
-/

namespace LoopKernel

/-- A value to be written. -/
inductive Json where
  | null
  | bool (b : Bool)
  | int (n : Int)
  | float (x : Binary64)
  | string (s : String)
  | array (items : List Json)
  | object (members : List (String × Json))

namespace Json

instance : Inhabited Json := ⟨.null⟩

/-- A hexadecimal digit, in lower case. -/
def hexDigit (n : Nat) : Char := ("0123456789abcdef".toList)[n]?.getD '0'

/-- A character inside a quoted string. -/
def escapeChar (c : Char) : String :=
  if c = '"' then "\\\""
  else if c = '\\' then "\\\\"
  else if c = '\n' then "\\n"
  else if c = '\r' then "\\r"
  else if c = '\t' then "\\t"
  else if c.toNat = 8 then "\\b"
  else if c.toNat = 12 then "\\f"
  else if c.toNat < 32 then
    "\\u00" ++ String.ofList [hexDigit (c.toNat / 16), hexDigit (c.toNat % 16)]
  else c.toString

/-- A quoted string. -/
def quote (s : String) : String := "\"" ++ String.join (s.toList.map escapeChar) ++ "\""

/-- The text of a number; one that is not finite has none. -/
def floatText (x : Binary64) : String :=
  if x.isFinite then
    (if x.negative then "-" else "") ++ Binary64.magnitudeText .exchange x.magnitude
  else "null"

mutual

/-- The text of a value. -/
def text : Json → String
  | .null => "null"
  | .bool b => if b then "true" else "false"
  | .int n => toString n
  | .float x => floatText x
  | .string s => quote s
  | .array items => "[" ++ ",".intercalate (itemTexts items) ++ "]"
  | .object members => "\x7b" ++ ",".intercalate (memberTexts members) ++ "\x7d"

/-- The texts of the items of an array. -/
def itemTexts : List Json → List String
  | [] => []
  | v :: rest => v.text :: itemTexts rest

/-- The texts of the members of an object. -/
def memberTexts : List (String × Json) → List String
  | [] => []
  | (name, v) :: rest => (quote name ++ ":" ++ v.text) :: memberTexts rest

end

/-- An array of strings. -/
def strings (items : List String) : Json := .array (items.map .string)

/-- An object with the entries of a map, in key order. -/
def ofMap {α : Type} (write : α → Json) (m : SortedMap String α) : Json :=
  .object (m.entries.map fun e => (e.1, write e.2))

/-- The value of an option, or null. -/
def ofOption {α : Type} (write : α → Json) : Option α → Json
  | none => .null
  | some a => write a

/-- A value under the name of its variant. -/
def variant (name : String) (payload : Json) : Json := .object [(name, payload)]

end Json

end LoopKernel
