import Bindery.Annotation.Basic
import Bindery.Proofs.Annotation.Cursor
import Mathlib

/-!
# Tokens of a host

A host is a text of tokens: comments, literals, words, numbers, marks and the blanks between them.
Tokens that stand next to each other are told apart by the longest match, so what may follow a
token is part of what it is to be one. A mark of several characters counts as several marks.
-/
namespace Bindery.Host
open Text

/-! ### Characters -/

/-- The characters between tokens. -/
def isSpace (c : Char) : Bool := isBlank c || c = '\x0b' || c = '\x0c'

/-- The characters of an identifier, those of other alphabets among them. -/
def isWordChar (c : Char) : Bool := isNameChar c || c = '$' || 128 ≤ c.toNat

/-- The characters that are tokens of their own, or parts of longer marks. -/
def isMark (c : Char) : Bool :=
  c.toNat < 128 && !isWordChar c && !isSpace c && c ≠ '"' && c ≠ '\'' && c ≠ '\\'

/-- The next character, if any, is not of a kind. -/
def Avoids (p : Char → Bool) (rest : List Char) : Prop := ∀ c ∈ rest.head?, p c = false

instance (p : Char → Bool) (rest : List Char) : Decidable (Avoids p rest) :=
  inferInstanceAs (Decidable (∀ c ∈ rest.head?, p c = false))

/-! ### Tokens -/

inductive Encoding
  | plain | utf8 | utf16 | utf32 | wide
  deriving DecidableEq

def Encoding.spelling : Encoding → List Char
  | plain => []
  | utf8 => ['u', '8']
  | utf16 => ['u']
  | utf32 => ['U']
  | wide => ['L']

/-- A literal may have a suffix, which is part of the token. -/
inductive Token
  | blank (c : Char)
  | lineComment (body : List Char)
  | blockComment (body : List Char)
  | quoted (e : Encoding) (quote : Char) (body suffix : List Char)
  | raw (e : Encoding) (delimiter body suffix : List Char)
  | word (name : List Char)
  | number (digits : List Char)
  | mark (c : Char)
  deriving DecidableEq

/-- What an ordinary literal holds: characters of one line, and escapes. -/
inductive IsQuoted (quote : Char) : List Char → Prop
  | nil : IsQuoted quote []
  | cons {c : Char} {cs : List Char} (hc : c ≠ quote ∧ c ≠ '\\' ∧ c ≠ '\n')
      (h : IsQuoted quote cs) : IsQuoted quote (c :: cs)
  | escape {c : Char} {cs : List Char} (h : IsQuoted quote cs) : IsQuoted quote ('\\' :: c :: cs)

/-- A comment of a line, which goes on in the next one after a backslash. -/
inductive IsLine : List Char → Prop
  | nil : IsLine []
  | cons {c : Char} {cs : List Char} (hc : c ≠ '\\' ∧ c ≠ '\n') (h : IsLine cs) : IsLine (c :: cs)
  | backslash {c : Char} {cs : List Char} (hc : c ≠ '\n') (h : IsLine (c :: cs)) :
      IsLine ('\\' :: c :: cs)
  | splice {cs : List Char} (h : IsLine cs) : IsLine ('\\' :: '\n' :: cs)

/-- What follows the first digit of a number: signs come after exponent marks only, and single
quotes between characters of a word. -/
inductive IsNumeral : List Char → Prop
  | nil : IsNumeral []
  | cons {c : Char} {cs : List Char} (hc : isWordChar c = true ∨ c = '.') (h : IsNumeral cs) :
      IsNumeral (c :: cs)
  | sign {e c : Char} {cs : List Char} (he : e ∈ ['e', 'E', 'p', 'P']) (hc : c = '+' ∨ c = '-')
      (h : IsNumeral cs) : IsNumeral (e :: c :: cs)
  | separator {c : Char} {cs : List Char} (hc : isWordChar c = true) (h : IsNumeral cs) :
      IsNumeral ('\'' :: c :: cs)

/-- A word, which a digit may not begin. -/
def IsWord (name : List Char) : Prop := Avoids isDigit name ∧ ∀ c ∈ name, isWordChar c = true

instance (name : List Char) : Decidable (IsWord name) :=
  inferInstanceAs (Decidable (Avoids isDigit name ∧ ∀ c ∈ name, isWordChar c = true))

/-- The words that make a raw literal of a text in quotes that follows them. -/
def IsRawPrefix (run : List Char) : Prop := ∃ e : Encoding, run = e.spelling ++ ['R']

/-- Characters with no quote and no slash among them, of which no longest run of name characters is
a macro name or begins a raw literal. -/
inductive IsQuiet : List Char → Prop
  | nil : IsQuiet []
  | other {c : Char} {cs : List Char} (hname : isNameChar c = false)
      (hc : c ≠ '"' ∧ c ≠ '\'' ∧ c ≠ '/') (h : IsQuiet cs) : IsQuiet (c :: cs)
  | run {run cs : List Char} (hne : run ≠ []) (hrun : ∀ c ∈ run, isNameChar c = true)
      (hend : Avoids isNameChar cs) (hplain : Macro.ofName? (String.ofList run) = none)
      (hraw : ¬ IsRawPrefix run) (h : IsQuiet cs) : IsQuiet (run ++ cs)

namespace Token

def spell : Token → List Char
  | blank c => [c]
  | lineComment body => '/' :: '/' :: body
  | blockComment body => '/' :: '*' :: (body ++ ['*', '/'])
  | quoted e quote body suffix => e.spelling ++ quote :: (body ++ quote :: suffix)
  | raw e delimiter body suffix =>
    e.spelling ++ (rawOpening delimiter ++ (body ++ (rawClosing delimiter ++ suffix)))
  | word name => name
  | number digits => digits
  | mark c => [c]

/-- A blank that may stand between the tokens of an annotation. -/
def isBlank : Token → Bool
  | blank c => Text.isBlank c
  | _ => false

def isWord : Token → Bool
  | word _ => true
  | _ => false

/-- The single tokens of a host. -/
def IsProper : Token → Prop
  | blank c => isSpace c = true
  | lineComment body => IsLine body
  | blockComment body => ¬ ['*', '/'] <:+: body
  | quoted _ quote body suffix =>
    (quote = '"' ∨ quote = '\'') ∧ IsQuoted quote body ∧ IsWord suffix
  | raw _ delimiter body suffix =>
    delimiter.length ≤ 16 ∧ (∀ c ∈ delimiter, c ≠ '(' ∧ Cursor.isBadDelimiter c = false) ∧
      ¬ rawClosing delimiter <:+: body ∧ IsWord suffix
  | word name => name ≠ [] ∧ IsWord name
  | number digits => ∃ c cs, isDigit c = true ∧ IsNumeral cs ∧
      (digits = c :: cs ∨ digits = '.' :: c :: cs)
  | mark c => isMark c = true

/-- What may follow a token that is the longest possible one. -/
def Stops (rest : List Char) : Token → Prop
  | blank _ | blockComment _ => True
  | lineComment _ => Avoids (· ≠ '\n') rest
  | quoted _ _ _ suffix | raw _ _ _ suffix =>
    Avoids (fun c => isWordChar c && (suffix ≠ [] || !isDigit c)) rest
  | word name => Avoids isWordChar rest ∧ (IsRawPrefix name → Avoids (· = '"') rest) ∧
      ∀ e : Encoding, name = e.spelling → Avoids (fun c => c = '"' || c = '\'') rest
  | number digits => Avoids (fun c => isWordChar c || c = '.') rest ∧
      ((∃ e ∈ ['e', 'E', 'p', 'P'], digits.getLast? = some e) →
        Avoids (fun c => c = '+' || c = '-') rest) ∧
      ∀ cs, rest = '\'' :: cs → Avoids isWordChar cs
  | mark c => (c = '/' → Avoids (fun c => c = '/' || c = '*') rest) ∧
      (c = '.' → Avoids isDigit rest)

/-- A token within which nothing can be taken for a token of its own by a reader that knows no
digit separators, no characters of words but those of names, and no lines that go on in the next
one. -/
def IsClear : Token → Prop
  | lineComment body => '\n' ∉ body
  | quoted _ _ _ suffix | raw _ _ _ suffix => IsQuiet suffix
  | word name => (∀ c ∈ name, isNameChar c = true) ∨ IsQuiet name
  | number digits => IsQuiet digits
  | _ => True

end Token

def spell (ts : List Token) : List Char := ts.flatMap Token.spell

@[simp] theorem spell_nil : spell [] = [] := rfl

@[simp] theorem spell_cons (t : Token) (ts : List Token) : spell (t :: ts) = t.spell ++ spell ts :=
  rfl

@[simp] theorem spell_append (ts us : List Token) : spell (ts ++ us) = spell ts ++ spell us :=
  List.flatMap_append

/-- The tokens that a text of tokens is read as. -/
def AreLexed : List Token → Prop
  | [] => True
  | t :: ts => t.IsProper ∧ t.Stops (spell ts) ∧ AreLexed ts

theorem AreLexed.right {ts us : List Token} (h : AreLexed (ts ++ us)) : AreLexed us := by
  induction ts with
  | nil => exact h
  | cons t ts ih => exact ih h.2.2

theorem AreLexed.isProper {ts : List Token} (h : AreLexed ts) : ∀ t ∈ ts, t.IsProper := by
  induction ts with
  | nil => exact fun _ ht => absurd ht List.not_mem_nil
  | cons t ts ih => exact List.forall_mem_cons.2 ⟨h.1, ih h.2.2⟩

/-! ### First characters -/

namespace Token
variable {t : Token} {c : Char} {cs rest : List Char}

/-- What a token can be, going by its first character. -/
def Starts (c : Char) : Token → Prop
  | blank d | mark d => c = d
  | lineComment _ | blockComment _ => c = '/'
  | quoted .plain quote _ _ => c = quote
  | raw .plain _ _ _ => c = 'R'
  | quoted _ _ _ _ | raw _ _ _ _ => c ∈ ['u', 'U', 'L']
  | word _ => isWordChar c = true
  | number _ => isDigit c = true ∨ c = '.'

theorem starts_of_spell (h : t.IsProper) (hspell : t.spell ++ rest = c :: cs) : t.Starts c := by
  cases t with
  | blank | mark | lineComment | blockComment => exact (List.cons.inj hspell).1.symm
  | quoted e | raw e =>
    cases e with
    | plain => exact (List.cons.inj hspell).1.symm
    | utf8 | utf16 | utf32 | wide =>
      rw [← (List.cons.inj hspell).1]
      simp [Starts]
  | word name =>
    cases name with
    | nil => exact absurd rfl h.1
    | cons d name =>
      rw [Starts, ← (List.cons.inj hspell).1]
      exact h.2.2 d List.mem_cons_self
  | number digits =>
    obtain ⟨d, ds, hd, -, rfl | rfl⟩ := h
    · exact .inl ((List.cons.inj hspell).1 ▸ hd)
    · exact .inr (List.cons.inj hspell).1.symm

theorem spell_ne_nil (h : t.IsProper) : t.spell ≠ [] := by
  cases t with
  | blank | mark | lineComment | blockComment => exact List.cons_ne_nil _ _
  | quoted | raw => simp [spell, rawOpening]
  | word => exact h.1
  | number digits =>
    obtain ⟨d, ds, -, -, rfl | rfl⟩ := h <;> exact List.cons_ne_nil _ _

theorem isWordChar_of_isDigit (h : isDigit c = true) : isWordChar c = true := by
  simp [isWordChar, isNameChar, h]

theorem isBlank_eq_false (h : isWordChar c = true) : Text.isBlank c = false := by
  rw [← Bool.not_eq_true]
  intro hblank
  simp only [Text.isBlank, Bool.or_eq_true, decide_eq_true_eq] at hblank
  rcases hblank with ((rfl | rfl) | rfl) | rfl <;> exact Bool.false_ne_true h

theorem not_blank_of_mem (h : c ∈ ['u', 'U', 'L']) : Text.isBlank c = false := by
  simp only [List.mem_cons, List.not_mem_nil, or_false] at h
  rcases h with rfl | rfl | rfl <;> rfl

/-- A token that is no blank begins with no blank. -/
theorem Starts.not_blank (h : t.Starts c) (ht : t.IsProper) (hblank : t.isBlank = false) :
    Text.isBlank c = false := by
  cases t with
  | blank d => exact h ▸ hblank
  | lineComment | blockComment =>
    obtain rfl : c = '/' := h
    rfl
  | quoted e quote body suffix =>
    cases e with
    | plain =>
      obtain rfl : c = quote := h
      rcases ht.1 with rfl | rfl <;> rfl
    | utf8 | utf16 | utf32 | wide => exact not_blank_of_mem h
  | raw e delimiter body suffix =>
    cases e with
    | plain =>
      obtain rfl : c = 'R' := h
      rfl
    | utf8 | utf16 | utf32 | wide => exact not_blank_of_mem h
  | word name => exact isBlank_eq_false h
  | number digits =>
    rcases h with h | rfl
    · exact isBlank_eq_false (isWordChar_of_isDigit h)
    · rfl
  | mark d =>
    obtain rfl : c = d := h
    simp only [IsProper, isMark, isSpace, Bool.and_eq_true, Bool.not_eq_true',
      Bool.or_eq_false_iff] at ht
    exact ht.1.1.1.2.1.1

theorem eq_of_isSpace (h : isSpace c = true) :
    c = ' ' ∨ c = '\n' ∨ c = '\t' ∨ c = '\r' ∨ c = '\x0b' ∨ c = '\x0c' := by
  simpa [isSpace, Text.isBlank, or_assoc] using h

/-- A bracket or a comma is a token of its own. -/
theorem Starts.eq_mark (h : t.Starts c) (ht : t.IsProper) (hc : c = '(' ∨ c = ')' ∨ c = ',') :
    t = .mark c := by
  have hword : isWordChar c = false := by rcases hc with rfl | rfl | rfl <;> rfl
  have hspace : isSpace c = false := by rcases hc with rfl | rfl | rfl <;> rfl
  have hother : c ∉ ['u', 'U', 'L', 'R', '/', '.', '"', '\''] := by
    rcases hc with rfl | rfl | rfl <;> simp
  simp only [List.mem_cons, not_or] at hother
  cases t with
  | blank d =>
    obtain rfl : c = d := h
    exact absurd (hspace.symm.trans ht) Bool.false_ne_true
  | lineComment | blockComment => exact absurd h hother.2.2.2.2.1
  | quoted e quote body suffix =>
    cases e with
    | plain =>
      obtain rfl : c = quote := h
      rcases ht.1 with h | h
      · exact absurd h hother.2.2.2.2.2.2.1
      · exact absurd h hother.2.2.2.2.2.2.2.1
    | utf8 | utf16 | utf32 | wide => simp [Starts, hother] at h
  | raw e delimiter body suffix =>
    cases e with
    | plain => exact absurd h hother.2.2.2.1
    | utf8 | utf16 | utf32 | wide => simp [Starts, hother] at h
  | word name => exact absurd h (by simp [Starts, hword])
  | number digits =>
    rcases h with h | h
    · exact absurd (isWordChar_of_isDigit h) (by simp [hword])
    · exact absurd h hother.2.2.2.2.2.1
  | mark d => exact congrArg mark (Eq.symm h)

end Token
end Bindery.Host
