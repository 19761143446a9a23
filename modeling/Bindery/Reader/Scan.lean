import Bindery.Annotation.Cursor
import Bindery.Syntax.Lexer
import Mathlib

/-!
# Tokens read byte by byte

A cursor stands in a text that ends with a null byte. The scanner looks at the byte it stands on
and at the one after it and moves by one byte at a time. Each loop is the least solution of its
equation, so that a scan may have no end; and a step that leaves the text stops the scan.
-/
namespace Bindery

/-- A step that leaves the text or the buffer of a reader, that asks for the first one of no
attributes, or that a strict reader does not make. -/
inductive Misuse
  | readBeyondEnd | movedOnNull | beyondBuffer | putBackUnread | firstOfNone | takenWhileLooking
  deriving DecidableEq

/-- Why a reader stops: a fault of the text, or a step of the reader itself. -/
inductive Stop
  | fault (f : Fault)
  | misuse (m : Misuse)
  deriving DecidableEq

namespace Cursor

/-- The start of a text, with the null byte that ends it. -/
def ofText (text : String) (p : Position) : Cursor := ⟨p, text.toList ++ ['\x00']⟩

/-- The bytes between a place and a later one. -/
def upTo (c later : Cursor) : List Char := c.rest.take (c.rest.length - later.rest.length)

end Cursor

/-- A step of the scanner, which is `none` if it has no end. -/
abbrev Scan (α : Type) : Type := StateT Cursor (ExceptT Stop Option) α

namespace Scan
open Text

/-- The byte at the cursor. -/
def cur : Scan Char := do
  match (← get).rest with
  | c :: _ => return c
  | [] => throw (.misuse .readBeyondEnd)

/-- The byte after the one at the cursor. -/
def following : Scan Char := do
  match (← get).rest with
  | _ :: c :: _ => return c
  | _ => throw (.misuse .readBeyondEnd)

def next : Scan Unit := do
  let c ← get
  match c.rest with
  | [] => throw (.misuse .readBeyondEnd)
  | '\x00' :: _ => throw (.misuse .movedOnNull)
  | b :: bs => set (Cursor.mk (c.pos.step b) bs)

def fail {α : Type} (cause : LexicalCause) : Scan α := do
  throw (.fault ⟨(← get).pos, .lexical cause⟩)

def skipWhile (p : Char → Bool) : Scan Unit := do
  if p (← cur) then
    next
    -- Given as a tactic, the recursive call keeps its source position out of the definition.
    by apply skipWhile; exact p
partial_fixpoint

def inLine (c : Char) : Bool := c ≠ '\n' && c ≠ '\x00'

/-- Whether a block comment ends here. -/
def atCommentEnd : Scan Bool := do
  if (← cur) = '*' then
    return (← following) = '/'
  else return false

/-- Up to the end of a block comment, or of the text. -/
def skipComment : Scan Unit := do
  if (← cur) ≠ '\x00' then
    if ← atCommentEnd then
      next
      next
    else
      next
      by apply skipComment
partial_fixpoint

/-- The digits of a number, where hexadecimal ones follow the mark. -/
def digits (hex : Bool) : Scan Unit := do
  let c ← cur
  if Lexer.isDelimiter c then return
  else if c = 'x' then
    if hex then fail .repeatedHexMark
    else
      next
      by apply digits; exact true
  else if hex then
    if isHexDigit c then
      next
      by apply digits; exact true
    else fail .badHexDigit
  else if isDigit c then
    next
    by apply digits; exact false
  else fail .badDigit
partial_fixpoint

def number : Scan Lexeme := do
  let first ← get
  if (← cur) = '-' then next
  digits false
  return .number (String.ofList (first.upTo (← get)))

def nameChars : Scan Unit := do
  let c ← cur
  if Lexer.isDelimiter c then return
  else if isNameChar c then
    next
    by apply nameChars
  else fail (.badNameChar c)
partial_fixpoint

def word : Scan Lexeme := do
  let first ← get
  nameChars
  return .ofWord (String.ofList (first.upTo (← get)))

/-- Passes a backslash before a quote or another backslash. -/
def skipEscape : Scan Unit := do
  if (← cur) = '\\' then
    let c ← following
    if c = '"' || c = '\\' then next

/-- The value of a quoted text up to its closing quote, after what is already read of it. -/
def quotedChars (value : List Char) : Scan (List Char) := do
  let c ← cur
  if c = '"' then return value
  else if c = '\x00' || c = '\n' then fail .unterminatedText
  else
    skipEscape
    let c ← cur
    next
    by apply quotedChars; exact value ++ [c]
partial_fixpoint

/-- The value of a quoted text whose opening quote is read. -/
def quotedRest (value : List Char) : Scan (List Char) := do
  let value ← quotedChars value
  next
  return value

/-- The token that begins with the byte `c`, neither blank nor the start of a comment. -/
def lexeme (c : Char) : Scan Lexeme := do
  match Punct.ofChar? c with
  | some mark =>
    next
    return .punct mark
  | none =>
    if c = ':' then
      next
      if (← cur) = ':' then
        next
        return .punct .doubleColon
      else return .punct .colon
    else if c = '-' then
      if (← following) = '>' then
        next
        next
        return .punct .arrow
      else if isDigit (← following) then number
      else fail (.loneMark '-')
    else if c = '"' then
      next
      return .quoted (String.ofList (← quotedRest []))
    else if isDigit c then number
    else if isLetter c then word
    else fail (.unknownChar c)

/-- The next token. At a null byte the text ends, and all tokens from there on say so. -/
def token : Scan Token := do
  skipWhile isBlank
  let p := (← get).pos
  let c ← cur
  if c = '\x00' then return ⟨.eof, p⟩
  else if c = '/' then
    next
    let c ← cur
    if c = '/' then
      skipWhile inLine
      by apply token
    else if c = '*' then
      next
      skipComment
      by apply token
    else fail (.loneMark '/')
  else return ⟨← lexeme c, p⟩
partial_fixpoint

end Scan
end Bindery
