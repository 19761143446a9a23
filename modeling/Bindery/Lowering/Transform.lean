import Bindery.Lowering.Fault
import Bindery.Text.Basic

/-!
# Return transforms

A return transform is written as a parameter between bars and an expression, which may hold bars.
-/
namespace Bindery
open Text

structure Transform where
  param : String
  expr : String
  deriving DecidableEq

namespace Transform

def ofChars? (cs : List Char) : Option Transform :=
  match trim cs with
  | '|' :: rest =>
    match rest.dropWhile (· ≠ '|') with
    | '|' :: body =>
      let param := String.ofList (trim (rest.takeWhile (· ≠ '|')))
      let expr := trim body
      if isIdentifier param ∧ expr ≠ [] then some ⟨param, String.ofList expr⟩ else none
    | _ => none
  | _ => none

def parse (text : String) : Except LoweringFault Transform :=
  match ofChars? text.toList with
  | some t => .ok t
  | none => .error (.badTransform text)

end Transform
end Bindery
