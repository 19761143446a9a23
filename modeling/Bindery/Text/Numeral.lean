import Bindery.Text.Basic

/-!
# Numerals within a text

A numeral at the front of a text is read as far as its digits go; what follows is left over.
-/
namespace Bindery.Text

/-- The characters that are skipped before a numeral or a word. -/
def isSpace (c : Char) : Bool := isBlank c || c = '\x0b' || c = '\x0c'

structure Numeral where
  isNegative : Bool
  magnitude : Nat
  rest : List Char

/-- The digits at the front of a text as a numeral. -/
def Numeral.ofDigits? (isNegative : Bool) (cs : List Char) : Option Numeral :=
  let digits := cs.takeWhile isDigit
  if digits = [] then none else some ⟨isNegative, ofDigits 10 digits, cs.dropWhile isDigit⟩

/-- The decimal numeral at the front of a text, with an optional sign. -/
def numeral? : List Char → Option Numeral
  | '-' :: cs => Numeral.ofDigits? true cs
  | '+' :: cs => Numeral.ofDigits? false cs
  | cs => Numeral.ofDigits? false cs

def Numeral.value (n : Numeral) : Int := if n.isNegative then -n.magnitude else n.magnitude

end Bindery.Text
