import SolidityTree.Json

/-!
# Printing JSON text

A value is printed without blanks, object entries in their order.  Inside a string the quote, the
backslash and control characters are escaped, and all else stands as it is, so the text reads back.

Main definition: `Json.print`.
-/

namespace SolidityTree

namespace Json

/-! ### Strings -/

/-- A hexadecimal digit, in lower case. -/
def hexDigit (n : Nat) : Char := if n < 10 then Char.ofNat (48 + n) else Char.ofNat (87 + n)

/-- The text of one character inside a string. -/
def escape (c : Char) : String :=
  if c = '"' then "\\\""
  else if c = '\\' then "\\\\"
  else if c = '\n' then "\\n"
  else if c = '\r' then "\\r"
  else if c = '\t' then "\\t"
  else if c.toNat < 0x20 then
    String.ofList ['\\', 'u', '0', '0', hexDigit (c.toNat / 16), hexDigit (c.toNat % 16)]
  else c.toString

/-- A string between quotes. -/
def quote (s : String) : String := s.foldl (fun text c => text ++ escape c) "\"" ++ "\""

/-! ### Values -/

mutual

/-- The text of a value, after the text so far. -/
def append (text : String) : Json → String
  | .null => text ++ "null"
  | .bool true => text ++ "true"
  | .bool false => text ++ "false"
  | .number n => text ++ n.text
  | .string s => text ++ quote s
  | .array items => appendItems (text ++ "[") "" items ++ "]"
  | .object entries => appendEntries (text ++ "\x7b") "" entries ++ "\x7d"

/-- The items of an array, each after the separator. -/
def appendItems (text separator : String) : List Json → String
  | [] => text
  | item :: rest => appendItems (append (text ++ separator) item) "," rest

/-- The entries of an object, each after the separator. -/
def appendEntries (text separator : String) : List (String × Json) → String
  | [] => text
  | (key, value) :: rest =>
    appendEntries (append (text ++ separator ++ quote key ++ ":") value) "," rest

end

/-- The text of a value. -/
def print (json : Json) : String := append "" json

end Json

end SolidityTree
