import SolidityTree.Text.Blank

/-!
# Documentation comments

Solidity documents a declaration by a run of `///` lines or by a `/** */` block.  This module reads
the text out of such a comment (`Comment.extract`) and finds the comment that a piece of source ends
with (`Comment.trailing?`).
-/

namespace SolidityTree.Comment

open Text

/-! ### Extraction -/

/-- The marks taken out of every line of a comment, in this order; none for a text without leading
mark, which is clean already. -/
def marks (cs : List Char) : List (List Char) :=
  if "///".toList.isPrefixOf cs then ["/// ".toList, "///".toList]
  else if "/**".toList.isPrefixOf cs then ["/**".toList, "*/".toList, "* ".toList, "*".toList]
  else []

/-- A line without its indentation and without the first occurrence of each mark. -/
def cleanLine (marks : List (List Char)) (line : List Char) : List Char :=
  marks.foldl (fun line mark => dropFirst mark line) (trimStart line)

/-- The text of a comment, without marks and indentation. -/
def extract (comment : List Char) : List Char :=
  let comment := trimStart comment
  match marks comment with
  | [] => trimEnd comment
  | marks => trim (join '\n' ((split '\n' comment).map (cleanLine marks)))

/-! ### Trailing comments -/

/-- Splits a text before the last occurrence of a pattern. -/
def splitLast? (pattern : List Char) : List Char → Option (List Char × List Char)
  | [] => none
  | c :: rest =>
    match splitLast? pattern rest with
    | some (before, found) => some (c :: before, found)
    | none => if pattern.isPrefixOf (c :: rest) then some ([], c :: rest) else none

/-- Whether a line is a comment line. -/
def isCommentLine (line : List Char) : Bool := "///".toList.isPrefixOf (trimStart line)

/-- Splits a text before the run of comment lines that it ends with, past the indentation of the
first of them. -/
def lineRun? (cs : List Char) : Option (List Char × List Char) :=
  match ((split '\n' cs).reverse.takeWhile isCommentLine).reverse with
  | [] => none
  | first :: rest =>
    let comment := join '\n' (trimStart first :: rest)
    some (cs.take (cs.length - comment.length), comment)

/-- Splits a text that ends with `*/` before the comment which that closes: it opens with the last
`/**`, and the opening and the closing mark share no character. -/
def block? (cs : List Char) : Option (List Char × List Char) :=
  match splitLast? "/**".toList cs with
  | none => none
  | some (before, comment) =>
    let body := (comment.drop 3).take (comment.length - 5)
    if 5 ≤ comment.length ∧ !occurs "*/".toList body then some (before, comment) else none

/-- Splits a piece of source before the documentation comment that it ends with, blanks after it
aside. -/
def trailing? (cs : List Char) : Option (List Char × List Char) :=
  let cs := trimEnd cs
  if "*/".toList.isSuffixOf cs then block? cs else lineRun? cs

end SolidityTree.Comment
