import Bindery.Syntax.Token
import Bindery.Text.Basic

/-!
# Reading tokens

A text ends at its first null byte. Blanks and comments separate tokens; a block comment that is
never closed lasts to the end of the text. Each token is read from a nonempty piece of the text,
so that reading terminates.
-/
namespace Bindery
namespace Lexer
open Text

/-- The characters that end a word or a number. -/
def isDelimiter (c : Char) : Bool :=
  isBlank c || (Punct.ofChar? c).isSome || c = ':' || c = '/' || c = '-' || c = '"' || c = '\x00'

/-- The first fault in the digits of a number; hexadecimal digits follow the mark. -/
def digitsFault : Position → Bool → List Char → Option Fault
  | _, _, [] => none
  | p, hex, c :: cs =>
    if c = 'x' then
      if hex then some ⟨p, .lexical .repeatedHexMark⟩ else digitsFault (p.step c) true cs
    else if hex then
      if isHexDigit c then digitsFault (p.step c) true cs else some ⟨p, .lexical .badHexDigit⟩
    else if isDigit c then digitsFault (p.step c) false cs
    else some ⟨p, .lexical .badDigit⟩

def nameFault : Position → List Char → Option Fault
  | _, [] => none
  | p, c :: cs =>
    if isNameChar c then nameFault (p.step c) cs else some ⟨p, .lexical (.badNameChar c)⟩

/-- The rest of a quoted text: its value, its spelling and what follows the closing quote. -/
def quoted : Position → List Char → Except Fault (List Char × List Char × List Char)
  | p, [] => .error ⟨p, .lexical .unterminatedText⟩
  | _, '"' :: cs => .ok ([], ['"'], cs)
  | p, '\\' :: '"' :: cs => do
    let (value, spelling, rest) ← quoted ((p.step '\\').step '"') cs
    .ok ('"' :: value, '\\' :: '"' :: spelling, rest)
  | p, '\\' :: '\\' :: cs => do
    let (value, spelling, rest) ← quoted ((p.step '\\').step '\\') cs
    .ok ('\\' :: value, '\\' :: '\\' :: spelling, rest)
  | p, c :: cs =>
    if c = '\n' then .error ⟨p, .lexical .unterminatedText⟩
    else do
      let (value, spelling, rest) ← quoted (p.step c) cs
      .ok (c :: value, c :: spelling, rest)

theorem quoted_append {p : Position} {cs value spelling rest : List Char}
    (h : quoted p cs = .ok (value, spelling, rest)) : spelling ++ rest = cs := by
  fun_induction quoted p cs generalizing value spelling rest with
  | case1 => cases h
  | case2 => cases h; rfl
  | case3 p cs ih | case4 p cs ih =>
    simp only [bind, Except.bind] at h
    split at h
    · cases h
    · rename_i heq
      cases h
      simp [ih heq]
  | case5 => cases h
  | case6 p c cs _ _ _ _ ih =>
    simp only [bind, Except.bind] at h
    split at h
    · cases h
    · rename_i heq
      cases h
      simp [ih heq]

/-- A number that begins with `c`, a digit or a sign. -/
def number (p : Position) (c : Char) (cs : List Char) :
    Except Fault (Lexeme × List Char × List Char) :=
  match digitsFault (p.step c) false (cs.takeWhile (!isDelimiter ·)) with
  | some fault => .error fault
  | none => .ok (.number (String.ofList (c :: cs.takeWhile (!isDelimiter ·))),
      cs.takeWhile (!isDelimiter ·), cs.dropWhile (!isDelimiter ·))

/-- A word that begins with the letter `c`. -/
def word (p : Position) (c : Char) (cs : List Char) :
    Except Fault (Lexeme × List Char × List Char) :=
  match nameFault (p.step c) (cs.takeWhile (!isDelimiter ·)) with
  | some fault => .error fault
  | none => .ok (.ofWord (String.ofList (c :: cs.takeWhile (!isDelimiter ·))),
      cs.takeWhile (!isDelimiter ·), cs.dropWhile (!isDelimiter ·))

def quotedText (p : Position) (cs : List Char) : Except Fault (Lexeme × List Char × List Char) :=
  match quoted p cs with
  | .error fault => .error fault
  | .ok (value, spelling, rest) => .ok (.quoted (String.ofList value), spelling, rest)

/-- Reads the token that begins with `c`, neither blank nor the start of a comment: the lexeme, its
spelling after `c` and the rest of the text. -/
def lexeme (p : Position) (c : Char) (cs : List Char) :
    Except Fault (Lexeme × List Char × List Char) :=
  match Punct.ofChar? c, c, cs with
  | some mark, _, cs => .ok (.punct mark, [], cs)
  | none, ':', ':' :: cs => .ok (.punct .doubleColon, [':'], cs)
  | none, ':', cs => .ok (.punct .colon, [], cs)
  | none, '-', '>' :: cs => .ok (.punct .arrow, ['>'], cs)
  | none, '"', cs => quotedText (p.step '"') cs
  | none, '-', cs =>
    if cs.head?.any isDigit then number p '-' cs else .error ⟨p, .lexical (.loneMark '-')⟩
  | none, c, cs =>
    if isDigit c then number p c cs
    else if isLetter c then word p c cs
    else .error ⟨p, .lexical (.unknownChar c)⟩

section
variable {p : Position} {c : Char} {cs : List Char} {l : Lexeme} {spelling rest : List Char}

theorem number_append (h : number p c cs = .ok (l, spelling, rest)) : spelling ++ rest = cs := by
  unfold number at h
  split at h <;> cases h
  exact List.takeWhile_append_dropWhile

theorem word_append (h : word p c cs = .ok (l, spelling, rest)) : spelling ++ rest = cs := by
  unfold word at h
  split at h <;> cases h
  exact List.takeWhile_append_dropWhile

theorem quotedText_append (h : quotedText p cs = .ok (l, spelling, rest)) :
    spelling ++ rest = cs := by
  unfold quotedText at h
  split at h <;> cases h
  rename_i hq
  exact quoted_append hq

/-- A token takes up a nonempty piece of the text, the first thing in it. -/
theorem lexeme_append (h : lexeme p c cs = .ok (l, spelling, rest)) : spelling ++ rest = cs := by
  unfold lexeme at h
  split at h
  · cases h; rfl
  · cases h; rfl
  · cases h; rfl
  · cases h; rfl
  · exact quotedText_append h
  · split at h
    · exact number_append h
    · cases h
  · split at h
    · exact number_append h
    · split at h
      · exact word_append h
      · cases h

end

/-- The inside of a block comment up to and with its end, and what follows. -/
def blockComment : List Char → List Char × List Char
  | '*' :: '/' :: cs => (['*', '/'], cs)
  | c :: cs => (c :: (blockComment cs).1, (blockComment cs).2)
  | [] => ([], [])

theorem blockComment_append (cs : List Char) :
    (blockComment cs).1 ++ (blockComment cs).2 = cs := by
  fun_induction blockComment cs <;> simp_all

/-- The comment after a slash: its text and what follows. -/
def comment? : List Char → Option (List Char × List Char)
  | '/' :: cs => some ('/' :: cs.takeWhile (· ≠ '\n'), cs.dropWhile (· ≠ '\n'))
  | '*' :: cs => some ('*' :: (blockComment cs).1, (blockComment cs).2)
  | _ => none

theorem comment?_append {cs text rest : List Char} (h : comment? cs = some (text, rest)) :
    text ++ rest = cs := by
  unfold comment? at h
  split at h
  · cases h
    simp [List.takeWhile_append_dropWhile]
  · cases h
    simp [blockComment_append]
  · cases h

/-- The tokens of a text without null bytes that begins at a position. -/
def scan (p : Position) : List Char → Tokens
  | [] => .done p
  | c :: cs =>
    if isBlank c then scan (p.step c) cs
    else if c = '/' then
      match _h : comment? cs with
      | some (text, rest) => scan ((p.step c).after text) rest
      | none => .broken ⟨p.step c, .lexical (.loneMark c)⟩
    else
      match _h : lexeme p c cs with
      | .ok (l, spelling, rest) => .next ⟨l, p⟩ (scan ((p.step c).after spelling) rest)
      | .error fault => .broken fault
termination_by cs => cs.length
decreasing_by
  · simp
  · have := congrArg List.length (comment?_append _h)
    simp only [List.length_append, List.length_cons] at *
    omega
  · have := congrArg List.length (lexeme_append _h)
    simp only [List.length_append, List.length_cons] at *
    omega

end Lexer

/-- The tokens of a text that begins at a position. -/
def Tokens.ofText (text : String) (p : Position) : Tokens :=
  Lexer.scan p (Text.terminated text.toList)

end Bindery
