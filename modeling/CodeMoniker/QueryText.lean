import CodeMoniker.Fragments
import CodeMoniker.QueryValues
import CodeMoniker.Quoting

/-!
# Tokens and literals of query texts

A line of a query is cut into tokens at the blanks outside quotes and brackets. The quotes, the
brackets and the escapes stay in the token, and are taken away when its value is read
(`scalarValue`). The entries of a bracketed list are read from the text that is left, so each
escape inside a list is dropped twice.
-/

namespace CodeMoniker.Query

open Fragments (isWhitespace trimChars)

/-! ## Lines -/

/-- `str::strip_prefix` of a character. -/
def stripFirst (c : Char) : List Char → Option (List Char)
  | [] => none
  | d :: rest => if d = c then some rest else none

/-- `str::strip_suffix` of a character. -/
def stripLast (c : Char) (text : List Char) : Option (List Char) :=
  if text.getLast? = some c then some text.dropLast else none

/-- The lines of a text, from the line that was begun : a `\n` or a `\r\n` ends a line. -/
def linesFrom (line : List Char) : List Char → List (List Char)
  | [] => if line = [] then [] else [line]
  | c :: rest =>
    if c = '\n' then (stripLast '\r' line).getD line :: linesFrom [] rest
    else linesFrom (line ++ [c]) rest

/-- `str::lines`. -/
def lines (text : List Char) : List (List Char) := linesFrom [] text

/-- The lines of a query, without the blank ones. -/
def queryLines (input : List Char) : List (List Char) :=
  ((lines input).map trimChars).filter (· ≠ [])

/-! ## Tokens -/

structure Scan where
  tokens : List (List Char) := []
  current : List Char := []
  quoted : Bool := false
  bracketDepth : ℕ := 0
  deriving DecidableEq

namespace Scan

def push (s : Scan) (text : List Char) : Scan := { s with current := s.current ++ text }

/-- The token that was begun ends. -/
def flush (s : Scan) : Scan :=
  if s.current = [] then s else { s with tokens := s.tokens ++ [s.current], current := [] }

/-- The loop of `tokenize`. -/
def run (s : Scan) : List Char → Scan
  | [] => s
  | ch :: rest =>
    if ch = '"' then run { s.push [ch] with quoted := !s.quoted } rest
    else if ch = '\\' ∧ s.quoted then
      match rest with
      | [] => s
      | next :: rest => run (s.push [ch, next]) rest
    else if ch = '[' ∧ !s.quoted then
      run { s.push [ch] with bracketDepth := s.bracketDepth + 1 } rest
    else if ch = ']' ∧ !s.quoted then
      run { s.push [ch] with bracketDepth := s.bracketDepth - 1 } rest
    else if isWhitespace ch ∧ !s.quoted ∧ s.bracketDepth = 0 then run s.flush rest
    else run (s.push [ch]) rest

end Scan

/-- The texts of the tokens of a line. -/
def tokenize (input : List Char) : Except QueryParseError (List (List Char)) :=
  let s := Scan.run {} input
  if s.quoted then .error (.invalidToken input) else .ok s.flush.tokens

/-! ## Literals -/

variable (value : List Char)

def unescapeQuoted : List Char := Quoting.unescape '\\' value

def scalarValue : List Char :=
  let value := trimChars value
  unescapeQuoted (((stripFirst '"' value).bind (stripLast '"')).getD value)

def splitStructuredCsv : List (List Char) :=
  Quoting.splitQuoted '\\' '"' ',' isWhitespace [] false false value

def splitCsv : List (List Char) :=
  ((value.splitOn ',').map trimChars).filter (· ≠ [])

/-- The fields with several values. -/
def multiValueFields : List String :=
  ["path", "lang", "kind", "shape", "srcset", "severity", "file", "relation"]

def listValues (key : String) (value : List Char) : List (List Char) :=
  if key ∉ multiValueFields then [scalarValue value]
  else
    let normalized := scalarValue value
    match (stripFirst '[' normalized).bind (stripLast ']') with
    | some contents => splitStructuredCsv contents
    | none => splitCsv normalized

end CodeMoniker.Query
