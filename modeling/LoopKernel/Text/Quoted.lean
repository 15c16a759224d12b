import LoopKernel.Text.CharClass

/-!
# Quoted text

Text in double quotes, where every character can be seen: quotes and backslashes are escaped, and
characters that are not shown as they are become hexadecimal code points.
-/

namespace LoopKernel.Quoted

/-- A character inside double quotes. -/
def escape (c : Char) : String :=
  if c = '"' then "\\\""
  else if c = '\\' then "\\\\"
  else if c = '\n' then "\\n"
  else if c = '\r' then "\\r"
  else if c = '\t' then "\\t"
  else if c.toNat = 0 then "\\0"
  else if CharClass.isShown c then c.toString
  else "\\u\x7b" ++ String.ofList (Nat.toDigits 16 c.toNat) ++ "\x7d"

/-- Characters in double quotes. -/
def ofChars (cs : List Char) : String := "\"" ++ String.join (cs.map escape) ++ "\""

end LoopKernel.Quoted
