import Bindery.Text.Basic
import Bindery.Text.Position

/-!
# Reading a host

A cursor stands at a position of the host's text, before the rest of it. All that a reader does
moves the cursor on by some characters.
-/
namespace Bindery
open Text

structure Cursor where
  pos : Position := .start
  rest : List Char
  deriving DecidableEq

/-- The part of a text before the first occurrence of a pattern. -/
def Text.before? (pattern : List Char) : List Char → Option (List Char)
  | [] => if pattern = [] then some [] else none
  | c :: cs =>
    if pattern.isPrefixOf (c :: cs) then some [] else (before? pattern cs).map (c :: ·)

namespace Cursor

def advance (c : Cursor) (n : Nat) : Cursor := ⟨c.pos.after (c.rest.take n), c.rest.drop n⟩

@[simp] theorem advance_rest (c : Cursor) (n : Nat) : (c.advance n).rest = c.rest.drop n := rfl

@[simp] theorem length_advance (c : Cursor) (n : Nat) :
    (c.advance n).rest.length = c.rest.length - n := by simp

def peek (c : Cursor) : Option Char := c.rest.head?

def startsWith (c : Cursor) (s : String) : Bool := s.toList.isPrefixOf c.rest

def skipWhile (c : Cursor) (p : Char → Bool) : Cursor := c.advance (c.rest.takeWhile p).length

def skipBlanks (c : Cursor) : Cursor := c.skipWhile isBlank

/-- Moves past a block comment, which a host may leave open. -/
def skipBlockComment (c : Cursor) : Cursor :=
  match before? "*/".toList (c.rest.drop 2) with
  | some body => c.advance (body.length + 4)
  | none => c.advance c.rest.length

/-- The value of a literal after its opening quote, and its length. An escape stands for the
character after it; a line feed ends a literal like a quote does. -/
def quotedFrom (quote : Char) : List Char → List Char × Nat
  | [] => ([], 0)
  | ['\\'] => ([], 1)
  | '\\' :: c :: cs => (c :: (quotedFrom quote cs).1, (quotedFrom quote cs).2 + 2)
  | c :: cs =>
    if c = quote ∨ c = '\n' then ([], 1)
    else (c :: (quotedFrom quote cs).1, (quotedFrom quote cs).2 + 1)

/-- An ordinary literal at the cursor, and the cursor after it. -/
def quoted (c : Cursor) (quote : Char) : List Char × Cursor :=
  let read := quotedFrom quote c.rest.tail
  (read.1, c.advance (read.2 + 1))

def atRawText (c : Cursor) : Bool := c.startsWith "R\""

/-- The characters that a delimiter of a raw literal may not have. -/
def isBadDelimiter (c : Char) : Bool := c ∈ [' ', '\\', ')', '\t', '\n']

structure RawText where
  body : List Char
  pos : Position
  after : Cursor

/-- The raw literal at the cursor, if it is well-formed. -/
def rawText? (c : Cursor) : Option RawText :=
  let inner := c.rest.drop 2
  let delimiter := inner.takeWhile (· ≠ '(')
  if delimiter.length = inner.length ∨ delimiter.length > 16 ∨
      delimiter.any isBadDelimiter then none
  else
    let opened := c.advance (delimiter.length + 3)
    match before? (')' :: delimiter ++ ['"']) opened.rest with
    | none => none
    | some body =>
      some ⟨body, opened.pos, opened.advance (body.length + delimiter.length + 2)⟩

theorem length_skipWhile (c : Cursor) (p : Char → Bool) :
    (c.skipWhile p).rest.length ≤ c.rest.length := by
  simp [skipWhile]

theorem length_skipBlanks (c : Cursor) : c.skipBlanks.rest.length ≤ c.rest.length :=
  c.length_skipWhile isBlank

theorem length_quoted (c : Cursor) (quote : Char) :
    (c.quoted quote).2.rest.length ≤ c.rest.length - 1 := by
  simp only [quoted, length_advance]
  omega

theorem length_rawText? {c : Cursor} {r : RawText} (h : c.rawText? = some r) :
    r.after.rest.length ≤ c.rest.length - 1 := by
  simp only [rawText?] at h
  split at h
  · cases h
  · split at h
    · cases h
    · cases h
      simp only [length_advance]
      omega

theorem length_skipBlockComment (c : Cursor) :
    c.skipBlockComment.rest.length ≤ c.rest.length - 1 := by
  unfold skipBlockComment
  split <;> simp only [length_advance] <;> omega

end Cursor
end Bindery
