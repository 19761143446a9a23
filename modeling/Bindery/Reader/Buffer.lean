import Bindery.Reader.Scan

/-!
# Tokens read ahead

A reader keeps the tokens it has looked at in a buffer and counts how many of them it has looked
at. A rule looks at tokens and then either takes all of them from the buffer or declines; a rule
that has declined is forgotten by putting the count back.
-/
namespace Bindery

namespace Lexeme

def name? : Lexeme → Option String
  | ident name => some name
  | _ => none

def digits? : Lexeme → Option String
  | number digits => some digits
  | _ => none

def quoted? : Lexeme → Option String
  | quoted value => some value
  | _ => none

/-- Whether a token is a certain one. -/
def is? (l m : Lexeme) : Option Unit := if m = l then some () else none

end Lexeme

/-- A reader: its place in the text, the tokens it has scanned but not taken, and how many of these
it has looked at. A strict reader stops instead of taking the first token while it looks at any. -/
structure ReadState where
  cursor : Cursor
  buffer : List Token := []
  looked : Nat := 0
  isStrict : Bool := false
  deriving DecidableEq

/-- A step of a reader, which is `none` if it has no end. -/
abbrev Reader (α : Type) : Type := StateT ReadState (ExceptT Stop Option) α

namespace Reader

/-- The next token of the text, behind those in the buffer. -/
def scan : Reader Token := do
  let s ← get
  let (t, cursor) ← (Scan.token.run s.cursor : ExceptT Stop Option (Token × Cursor))
  set { s with cursor }
  return t

/-- Scans until the buffer holds more tokens than have been looked at. -/
def fill : Reader Unit := do
  let s ← get
  if s.buffer.length ≤ s.looked then
    let t ← scan
    modify fun s => { s with buffer := s.buffer ++ [t] }
    by apply fill
partial_fixpoint

/-- Looks at the next token. -/
def peek : Reader Token := do
  fill
  let s ← get
  match s.buffer[s.looked]? with
  | none => throw (.misuse .beyondBuffer)
  | some t =>
    set { s with looked := s.looked + 1 }
    return t

/-- Looks at the last token once more. -/
def putBack : Reader Unit := do
  let s ← get
  match s.looked with
  | 0 => throw (.misuse .putBackUnread)
  | n + 1 => set { s with looked := n }

/-- Takes all tokens that have been looked at. -/
def flush : Reader Unit := do
  let s ← get
  if s.buffer.length < s.looked then throw (.misuse .beyondBuffer)
  else set { s with buffer := s.buffer.drop s.looked, looked := 0 }

def throwAt {α : Type} (p : Position) (cause : Cause) : Reader α := throw (.fault ⟨p, cause⟩)

def unexpected {α : Type} (t : Token) : Reader α := throwAt t.pos (.unexpected t.lexeme.describe)

/-- Fails at the next token. -/
def failHere {α : Type} (cause : Cause) : Reader α := do
  throwAt (← peek).pos cause

/-- The first token, which leaves the buffer if it is there. -/
def pop : Reader Token := do
  let s ← get
  if s.isStrict ∧ s.looked ≠ 0 then throw (.misuse .takenWhileLooking)
  else
    match s.buffer with
    | [] => scan
    | t :: buffer =>
      set { s with buffer, looked := s.looked - 1 }
      return t

/-- Takes the first token, which has to be of some kind. -/
def take {α : Type} (kind : Lexeme → Option α) : Reader (α × Position) := do
  let t ← pop
  match kind t.lexeme with
  | some a => return (a, t.pos)
  | none => unexpected t

def punct (p : Punct) : Reader Unit := do
  let _ ← take (Lexeme.punct p).is?

def ident : Reader String := do
  let (name, _) ← take (·.name?)
  return name

/-! ### Rules that may decline -/

def looked : Reader Nat := return (← get).looked

/-- The outcome of a rule; if it has declined, what it has looked at is forgotten. -/
def settle {α : Type} (saved : Nat) : Option α → Reader (Option α)
  | some a => return some a
  | none => do
    modify fun s => { s with looked := saved }
    return none

def check {α : Type} (rule : Reader (Option α)) : Reader (Option α) := do
  let saved ← looked
  settle saved (← rule)

/-- The token that is a given mark. -/
def one (p : Punct) : Reader (Option Unit) := do
  if (← peek).lexeme = .punct p then
    flush
    return some ()
  else return none

/-- Takes the given mark if it comes first. -/
def punct? (p : Punct) : Reader Bool := return (← check (one p)).isSome

/-! ### Sequences -/

section
variable {α : Type} (item : List α → Reader α) (closing : Punct)

/-- Items separated by commas up to a closing mark, after those already seen. -/
def separated (seen : List α) : Reader (List α) := do
  let a ← item seen
  if ← punct? closing then return seen ++ [a]
  else
    punct .comma
    by apply separated; exact seen ++ [a]
partial_fixpoint

end

section
variable {σ : Type} (item : σ → Reader σ) (closing : Punct)

/-- Items up to a closing mark, each of which changes a state. -/
def block (s : σ) : Reader σ := do
  if ← punct? closing then return s
  else
    let s ← item s
    by apply block; exact s
partial_fixpoint

end

end Reader
end Bindery
