import Bindery.Text.Basic

/-!
# Names for generated code

Any text can be made an identifier by putting an underscore in place of each other character.
-/
namespace Bindery.Name
open Text

/-- The identifier made of a text, never empty and never with a digit in front. -/
def ofText (s : String) : String :=
  let cs := s.toList.map fun c => if isNameChar c then c else '_'
  match cs with
  | [] => "_"
  | c :: _ => String.ofList (if isDigit c then '_' :: cs else cs)

/-- Whether a name has two colons in a row, as between the parts of a path. -/
def isQualified : List Char → Bool
  | ':' :: ':' :: _ => true
  | _ :: cs => isQualified cs
  | [] => false

/-- Joins the parts of a path by underscores. -/
def flattenChars : List Char → List Char
  | ':' :: ':' :: cs => '_' :: flattenChars cs
  | c :: cs => c :: flattenChars cs
  | [] => []

def flatten (s : String) : String := String.ofList (flattenChars s.toList)

end Bindery.Name
