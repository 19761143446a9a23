import Bindery.Text.Basic

/-!
# Merging fragments

Fragments are merged line by line, each with an empty line after it. A constant that stands on one
line outside of all braces is kept only where it first occurs, so that fragments may repeat their
imports.
-/
namespace Bindery.Merge
open Text

/-- The lines of a fragment; a line feed at the end begins no further line. -/
def lines (cs : List Char) : List (List Char) :=
  let pieces := splitOn '\n' cs
  if pieces.getLast? = some [] then pieces.dropLast else pieces

/-- Whether a statement without blanks around it is a constant on one line. -/
def isConstant (stmt : List Char) : Bool :=
  let stmt := if "pub ".toList.isPrefixOf stmt then trim (stmt.drop 4) else stmt
  "const ".toList.isPrefixOf stmt && stmt.getLast? = some ';' && '=' ∈ stmt &&
    stmt.count '\x7b' = stmt.count '\x7d'

/-- How many more braces a line opens than it closes. Within a string none counts, and a comment
ends the line. -/
def balance (inString : Bool) : List Char → Int
  | [] => 0
  | '\\' :: cs =>
    if inString then
      match cs with
      | _ :: cs => balance true cs
      | [] => 0
    else balance false cs
  | '/' :: '/' :: cs => if inString then balance true ('/' :: cs) else 0
  | '"' :: cs => balance (!inString) cs
  | c :: cs =>
    if inString then balance true cs
    else if c = '\x7b' then balance false cs + 1
    else if c = '\x7d' then balance false cs - 1
    else balance false cs

/-- The constants that are kept so far, with the lines that are kept of a fragment. -/
structure Kept where
  constants : List (List Char)
  lines : List (List Char)

/-- Keeps lines of a fragment at a depth of braces, given the constants kept before. -/
def keep (constants : List (List Char)) (depth : Int) : List (List Char) → Kept
  | [] => ⟨constants, []⟩
  | line :: rest =>
    let stmt := trim line
    let isTop := depth = 0 ∧ isConstant stmt
    if isTop ∧ stmt ∈ constants then keep constants depth rest
    else
      let kept := keep (if isTop then stmt :: constants else constants)
        (depth + balance false line) rest
      ⟨kept.constants, line :: kept.lines⟩

/-- The lines that are kept of each fragment. -/
def keepAll (constants : List (List Char)) : List (List Char) → List (List (List Char))
  | [] => []
  | fragment :: rest =>
    let kept := keep constants 0 (lines fragment)
    kept.lines :: keepAll kept.constants rest

def renderLines (ls : List (List Char)) : List Char := ls.flatMap (· ++ ['\n'])

/-- The merged text of some fragments. -/
def merge (fragments : List String) : String :=
  String.ofList ((keepAll [] (fragments.map String.toList)).flatMap fun ls =>
    renderLines ls ++ ['\n'])

end Bindery.Merge
