import Bindery.Syntax.Token
import Bindery.Text.Basic

/-!
# Numbers

A number token is a decimal numeral, or a hexadecimal one after `0x`, with an optional minus sign.
Its magnitude has to fit a signed 64-bit word.
-/
namespace Bindery
open Text

/-- The number that a numeral without sign denotes, if it takes up all characters. -/
def magnitude (base : Nat) (isDigit : Char → Bool) (cs : List Char) : Except NumberFault Nat :=
  let n := ofDigits base (cs.takeWhile isDigit)
  if n ≥ 9223372036854775808 then .error .outOfRange
  else if cs.dropWhile isDigit ≠ [] then .error .trailing
  else .ok n

def unsigned : List Char → Except NumberFault Nat
  | '0' :: 'x' :: c :: cs => magnitude 16 isHexDigit (c :: cs)
  | cs => magnitude 10 isDigit cs

def integer : List Char → Except NumberFault Int
  | '-' :: cs => do
    let n ← unsigned cs
    .ok (-n)
  | cs => do
    let n ← unsigned cs
    .ok n

/-- The value of a number token at a position. -/
def numberValue (digits : String) (p : Position) : Except Fault Int :=
  match integer digits.toList with
  | .ok n => .ok n
  | .error why => .error ⟨p, .badNumber digits why⟩

end Bindery
