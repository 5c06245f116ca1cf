import SolidityTree.Json

/-!
# Reading JSON text

Text is read strictly after RFC 8259: one value, blanks only where the grammar has them, no control
character inside a string, no lone surrogate escape, no number out of the finite range.  Arrays and
objects nest at most as deep as the caller allows.

A text is first cut into tokens (`Json.nextToken?`), and tokens drive a machine whose state is the
stack of containers still open (`Json.Machine.step?`).  The machine accepts a text when it has read
one value and no container is open, so nesting costs no recursion.

Main definition: `Json.parse?`.
-/

namespace SolidityTree

namespace Json

/-! ### Tokens -/

/-- The pieces a text is made of. -/
inductive Token where
  | openArray | closeArray | openObject | closeObject | colon | comma
  | scalar (value : Json)

/-- The value of a hexadecimal digit. -/
def hexDigit? (c : Char) : Option Nat :=
  if c.isDigit then some (c.toNat - '0'.toNat)
  else if 'a' ≤ c ∧ c ≤ 'f' then some (c.toNat - 'a'.toNat + 10)
  else if 'A' ≤ c ∧ c ≤ 'F' then some (c.toNat - 'A'.toNat + 10)
  else none

/-- The UTF-16 unit written by four hexadecimal digits. -/
def unit? (a b c d : Char) : Option Nat := do
  let a ← hexDigit? a
  let b ← hexDigit? b
  let c ← hexDigit? c
  let d ← hexDigit? d
  some (((a * 16 + b) * 16 + c) * 16 + d)

/-- The character a one-letter escape stands for. -/
def escaped? : Char → Option Char
  | '"' => some '"'
  | '\\' => some '\\'
  | '/' => some '/'
  | 'b' => some '\x08'
  | 'f' => some '\x0c'
  | 'n' => some '\n'
  | 'r' => some '\r'
  | 't' => some '\t'
  | _ => none

/-- Whether a UTF-16 unit opens a surrogate pair. -/
def isHighSurrogate (unit : Nat) : Bool := 0xD800 ≤ unit ∧ unit < 0xDC00

/-- Whether a UTF-16 unit closes a surrogate pair. -/
def isLowSurrogate (unit : Nat) : Bool := 0xDC00 ≤ unit ∧ unit < 0xE000

/-- The character of a surrogate pair. -/
def pairChar (high low : Nat) : Char :=
  Char.ofNat (0x10000 + (high - 0xD800) * 0x400 + (low - 0xDC00))

/-- Reads the rest of a string after its opening quote; `read` holds the characters so far, the last
one first, and `high?` the first half of a surrogate pair whose second half must follow at once. -/
def stringBody? (read : List Char) (high? : Option Nat) : List Char → Option (String × List Char)
  | '\\' :: 'u' :: a :: b :: c :: d :: rest => do
    let unit ← unit? a b c d
    match high? with
    | some high => if isLowSurrogate unit then stringBody? (pairChar high unit :: read) none rest
                   else none
    | none =>
      if isHighSurrogate unit then stringBody? read (some unit) rest
      else if isLowSurrogate unit then none
      else stringBody? (Char.ofNat unit :: read) none rest
  | '\\' :: c :: rest => do
    let c ← escaped? c
    if high?.isSome then none else stringBody? (c :: read) none rest
  | '"' :: rest => if high?.isSome then none else some (String.ofList read.reverse, rest)
  | c :: rest => if c.toNat < 0x20 ∨ high?.isSome then none else stringBody? (c :: read) none rest
  | [] => none

/-- Whether a character is one of the four blanks of the grammar. -/
def isBlank (c : Char) : Bool := c = ' ' ∨ c = '\t' ∨ c = '\n' ∨ c = '\r'

/-- Reads one token off a text that starts with none of the blanks. -/
def nextToken? : List Char → Option (Token × List Char)
  | [] => none
  | '[' :: rest => some (.openArray, rest)
  | ']' :: rest => some (.closeArray, rest)
  | '\x7b' :: rest => some (.openObject, rest)
  | '\x7d' :: rest => some (.closeObject, rest)
  | ':' :: rest => some (.colon, rest)
  | ',' :: rest => some (.comma, rest)
  | '"' :: rest => (stringBody? [] none rest).map fun (s, rest) => (.scalar (.string s), rest)
  | 'n' :: 'u' :: 'l' :: 'l' :: rest => some (.scalar .null, rest)
  | 't' :: 'r' :: 'u' :: 'e' :: rest => some (.scalar (.bool true), rest)
  | 'f' :: 'a' :: 'l' :: 's' :: 'e' :: rest => some (.scalar (.bool false), rest)
  | cs => (Literal.scan? cs).map fun (n, rest) => (.scalar (.number n), rest)

/-! ### The machine -/

/-- A container still open, with what it holds so far, the last item first. -/
inductive Frame where
  | array (items : List Json)
  | object (entries : List (String × Json)) (key : String)

/-- What the text may go on with. -/
inductive Expected where
  /-- A value. -/
  | value
  /-- The first item of an array, or its end. -/
  | firstItem
  /-- The first key of an object, or its end. -/
  | firstKey
  /-- A key, after a comma. -/
  | key (entries : List (String × Json))
  /-- A colon, after a key. -/
  | colon (entries : List (String × Json)) (key : String)
  /-- A comma or the end of the innermost container, after a value. -/
  | after (value : Json)

/-- The state of reading: the open containers, innermost first, and what may follow. -/
structure Machine where
  frames : List Frame
  expected : Expected

namespace Machine

/-- The state before the first token. -/
def start : Machine := ⟨[], .value⟩

/-- Opens an array or an object, unless `limit` of them would be open then. -/
def enter? (limit : Nat) (m : Machine) (expected : Expected) : Option Machine :=
  if m.frames.length + 1 < limit then some ⟨m.frames, expected⟩ else none

/-- What one token does to the state.  The first item of an array and the first key of an object are
read with their container not yet on the stack, so the depth counts it separately. -/
def step? (limit : Nat) (m : Machine) : Token → Option Machine
  | .scalar value =>
    match m.expected, value with
    | .value, value => some ⟨m.frames, .after value⟩
    | .firstItem, value => some ⟨.array [] :: m.frames, .after value⟩
    | .firstKey, .string key => some ⟨m.frames, .colon [] key⟩
    | .key entries, .string key => some ⟨m.frames, .colon entries key⟩
    | _, _ => none
  | .openArray =>
    match m.expected with
    | .value => enter? limit m .firstItem
    | .firstItem => enter? limit ⟨.array [] :: m.frames, m.expected⟩ .firstItem
    | _ => none
  | .openObject =>
    match m.expected with
    | .value => enter? limit m .firstKey
    | .firstItem => enter? limit ⟨.array [] :: m.frames, m.expected⟩ .firstKey
    | _ => none
  | .closeArray =>
    match m.expected, m.frames with
    | .firstItem, frames => some ⟨frames, .after (.array [])⟩
    | .after value, .array items :: frames =>
      some ⟨frames, .after (.array (value :: items).reverse)⟩
    | _, _ => none
  | .closeObject =>
    match m.expected, m.frames with
    | .firstKey, frames => some ⟨frames, .after (.object [])⟩
    | .after value, .object entries key :: frames =>
      some ⟨frames, .after (.object (insertEntry key value entries))⟩
    | _, _ => none
  | .colon =>
    match m.expected with
    | .colon entries key => some ⟨.object entries key :: m.frames, .value⟩
    | _ => none
  | .comma =>
    match m.expected, m.frames with
    | .after value, .array items :: frames => some ⟨.array (value :: items) :: frames, .value⟩
    | .after value, .object entries key :: frames =>
      some ⟨frames, .key (insertEntry key value entries)⟩
    | _, _ => none

/-- The value read, if nothing is left open. -/
def result? (m : Machine) : Option Json :=
  match m.frames, m.expected with
  | [], .after value => some value
  | _, _ => none

/-- Runs the machine over a text.  Every turn takes at least one character, so the length of the
text, plus one turn for its end, is fuel enough. -/
def run? (limit : Nat) (m : Machine) (cs : List Char) : Nat → Option Json
  | 0 => none
  | fuel + 1 =>
    match cs with
    | [] => m.result?
    | c :: rest =>
      if isBlank c then run? limit m rest fuel
      else
        match nextToken? (c :: rest) with
        | none => none
        | some (token, rest) =>
          match m.step? limit token with
          | none => none
          | some m => run? limit m rest fuel

end Machine

/-- How many arrays and objects, one inside another, are too many by default. -/
def nestingLimit : Nat := 128

/-- The value a text holds.  It must nest fewer than `limit` arrays and objects. -/
def parse? (text : String) (limit : Nat) : Option Json :=
  let cs := text.toList
  Machine.start.run? limit cs (cs.length + 1)

end Json

end SolidityTree
