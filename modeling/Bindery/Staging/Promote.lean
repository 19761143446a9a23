import Bindery.Text.Basic

/-!
# Layout of foreign structs

A struct that is assigned to a name gets the layout of the binary interface: `extern` is put before
the keyword. An equals sign that is part of a comparison assigns nothing.
-/
namespace Bindery.Promote
open Text

def isSpace (c : Char) : Bool := c = ' ' || c = '\t'

/-- What follows the keyword `struct`, if it comes next after spaces. -/
def afterStruct? (cs : List Char) : Option (List Char) :=
  let word := cs.dropWhile isSpace
  if "struct".toList.isPrefixOf word ∧ !(word.drop 6).head?.any isNameChar then some (word.drop 6)
  else none

theorem afterStruct?_length {cs rest : List Char} (h : afterStruct? cs = some rest) :
    rest.length ≤ cs.length := by
  simp only [afterStruct?] at h
  split at h
  · cases h
    have := List.Sublist.length_le (List.dropWhile_sublist isSpace (l := cs))
    simp only [List.length_drop]
    omega
  · cases h

/-- Promotes the structs of a text that follows a character. -/
def promoteAfter (before : Option Char) : List Char → List Char
  | [] => []
  | c :: cs =>
    if c = '=' ∧ before ≠ some '=' then
      match _h : afterStruct? cs with
      | some rest => '=' :: " extern struct".toList ++ promoteAfter (some 't') rest
      | none => c :: promoteAfter (some c) cs
    else c :: promoteAfter (some c) cs
termination_by cs => cs.length
decreasing_by
  · have := afterStruct?_length _h
    simp only [List.length_cons]
    omega
  all_goals simp

def promote (code : String) : String := String.ofList (promoteAfter none code.toList)

end Bindery.Promote
