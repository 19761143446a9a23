import Bindery.Reader.Buffer
import Bindery.Ty.Parser

/-!
# Types read through a buffer

The rules descend into the type that a wrapper encloses and come back to it.
-/
namespace Bindery.Reader

/-- The rest of a path whose first part is read. -/
def pathFrom (name : String) : Reader String := do
  if ← punct? .doubleColon then
    let part ← ident
    by apply pathFrom; exact name ++ "::" ++ part
  else return name
partial_fixpoint

def path : Reader String := do
  pathFrom (← ident)

/-- An array suffix of a type. -/
def suffix (t : Ty) : Reader (Option Ty) := do
  if (← peek).lexeme = .punct .squareOpen then
    flush
    let (digits, p) ← take (·.digits?)
    match Tokens.arrayLength digits p with
    | .error fault => throw (.fault fault)
    | .ok n =>
      punct .squareClose
      return some (.array t n)
  else return none

def suffixes (t : Ty) : Reader Ty := do
  match ← check (suffix t) with
  | some t => by apply suffixes; exact t
  | none => return t
partial_fixpoint

variable (scope : List String)

mutual

/-- A type, if one begins here. -/
def type : Reader (Option Ty) := do
  match ← (by apply base) with
  | some t => return some (← suffixes t)
  | none => return none
partial_fixpoint

/-- A type without suffixes. -/
def base : Reader (Option Ty) := do
  match (← peek).lexeme with
  | .scalar s =>
    flush
    return some (.scalar s)
  | .keyword .str =>
    flush
    return some (.text false)
  | .keyword .strMut =>
    flush
    return some (.text true)
  | .keyword k =>
    match Enclosure.ofKeyword? k with
    | some e =>
      flush
      return some (e.around (← by apply enclosed))
    | none => return none
  | .ident _ =>
    putBack
    return some (Tokens.named scope (← path))
  | _ => return none
partial_fixpoint

/-- A type between angle brackets. -/
def enclosed : Reader Ty := do
  punct .less
  let saved ← looked
  match ← settle saved (← by apply type) with
  | some t =>
    punct .greater
    return t
  | none => failHere .expectedType
partial_fixpoint

end

/-- A type that takes up the whole text. -/
def wholeType : Reader Ty := do
  match ← check (type scope) with
  | some t =>
    let _ ← take Lexeme.eof.is?
    return t
  | none => unexpected (← peek)

/-- The type that a text denotes. -/
def parseType (text : String) : Option (Except Stop Ty) :=
  ((wholeType scope).run { cursor := .ofText text .start }).run.map (·.map (·.1))

end Bindery.Reader
