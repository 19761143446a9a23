import Bindery.Syntax.Fault
import Bindery.Ty.Basic

/-!
# Tokens of the declaration language

The tokens of a text form a finite stream that ends either with the end of the text or with a
lexical fault. The fault counts only for a reader who asks for the token in its place.
-/
namespace Bindery

inductive Keyword
  | fn | async | struct | enum | handle | ctor | dtor | self | mutable | moduleName
  | str | strMut | slice | sliceMut | ref | refMut | optional
  deriving DecidableEq

namespace Keyword

def spelling : Keyword → String
  | fn => "fn" | async => "async" | struct => "struct" | enum => "enum" | handle => "handle"
  | ctor => "ctor" | dtor => "dtor" | self => "self" | mutable => "mut" | moduleName => "module"
  | str => "str" | strMut => "str_mut" | slice => "slice" | sliceMut => "slice_mut"
  | ref => "ref" | refMut => "ref_mut" | optional => "optional"

def all : List Keyword :=
  [.fn, .async, .struct, .enum, .handle, .ctor, .dtor, .self, .mutable, .moduleName,
    .str, .strMut, .slice, .sliceMut, .ref, .refMut, .optional]

def ofSpelling? (s : String) : Option Keyword := all.find? (·.spelling = s)

theorem mem_all (k : Keyword) : k ∈ all := by
  cases k <;> decide

theorem ofSpelling?_spelling (k : Keyword) : ofSpelling? k.spelling = some k := by
  cases k <;> decide

end Keyword

inductive Punct
  | roundOpen | roundClose | comma | semicolon | assign | less | greater
  | squareOpen | squareClose | curlyOpen | curlyClose | plus | dot
  | colon | doubleColon | arrow
  deriving DecidableEq

namespace Punct

def spelling : Punct → String
  | roundOpen => "(" | roundClose => ")" | comma => "," | semicolon => ";" | assign => "="
  | less => "<" | greater => ">" | squareOpen => "[" | squareClose => "]"
  | curlyOpen => "\x7b" | curlyClose => "\x7d" | plus => "+" | dot => "."
  | colon => ":" | doubleColon => "::" | arrow => "->"

/-- The marks that no other character can extend. -/
def ofChar? : Char → Option Punct
  | '(' => some roundOpen | ')' => some roundClose | ',' => some comma | ';' => some semicolon
  | '=' => some assign | '<' => some less | '>' => some greater
  | '[' => some squareOpen | ']' => some squareClose
  | '\x7b' => some curlyOpen | '\x7d' => some curlyClose
  | '+' => some plus | '.' => some dot
  | _ => none

end Punct

inductive Lexeme
  | ident (name : String)
  | number (digits : String)
  | quoted (value : String)
  | scalar (s : Scalar)
  | keyword (k : Keyword)
  | punct (p : Punct)
  | eof
  deriving DecidableEq

namespace Lexeme

/-- How a message names a token. -/
def describe : Lexeme → String
  | ident name => name
  | number digits => digits
  | quoted value => value
  | scalar s => s.name
  | keyword k => k.spelling
  | punct p => p.spelling
  | eof => "end of declarations"

/-- A word is a scalar name, a keyword or an identifier. -/
def ofWord (s : String) : Lexeme :=
  match Scalar.ofName? s with
  | some kind => .scalar kind
  | none =>
    match Keyword.ofSpelling? s with
    | some k => .keyword k
    | none => .ident s

end Lexeme

structure Token where
  lexeme : Lexeme
  pos : Position
  deriving DecidableEq

inductive Tokens
  | done (pos : Position)
  | broken (fault : Fault)
  | next (token : Token) (rest : Tokens)
  deriving DecidableEq

namespace Tokens

def length : Tokens → Nat
  | next _ rest => rest.length + 1
  | _ => 0

@[simp] theorem length_next (t : Token) (ts : Tokens) : (next t ts).length = ts.length + 1 := rfl

/-- The first token, which is the end of the text once all others are consumed. -/
def head : Tokens → Except Fault Token
  | done pos => .ok ⟨.eof, pos⟩
  | broken fault => .error fault
  | next token _ => .ok token

def tail : Tokens → Tokens
  | next _ rest => rest
  | ts => ts

/-- Fails at the first token, for a cause that may name it. -/
def failAt {α : Type} (ts : Tokens) (cause : Token → Cause) : Except Fault α := do
  let t ← ts.head
  throw ⟨t.pos, cause t⟩

def unexpected {α : Type} (ts : Tokens) : Except Fault α :=
  ts.failAt fun t => .unexpected t.lexeme.describe

/-- Consumes the given mark. -/
def punct (p : Punct) : Tokens → Except Fault Tokens
  | next ⟨.punct q, pos⟩ rest =>
    if q = p then .ok rest else (next ⟨.punct q, pos⟩ rest).unexpected
  | ts => ts.unexpected

/-- Consumes the given mark if it comes first. -/
def punct? (p : Punct) : Tokens → Except Fault (Bool × Tokens)
  | next ⟨.punct q, pos⟩ rest =>
    if q = p then .ok (true, rest) else .ok (false, next ⟨.punct q, pos⟩ rest)
  | broken fault => .error fault
  | ts => .ok (false, ts)

def ident : Tokens → Except Fault (String × Tokens)
  | next ⟨.ident name, _⟩ rest => .ok (name, rest)
  | ts => ts.unexpected

section
variable {ts rest : Tokens}

/-- A sequence of steps succeeds when each step does. -/
theorem bind_eq_ok {ε α β : Type} {x : Except ε α} {f : α → Except ε β} {b : β} :
    (x >>= f) = .ok b ↔ ∃ a, x = .ok a ∧ f a = .ok b := by
  cases x <;> simp [bind, Except.bind]

theorem failAt_ne_ok {α : Type} {cause : Token → Cause} {a : α} : ts.failAt cause ≠ .ok a := by
  cases ts <;> simp [failAt, head, throw, throwThe, MonadExceptOf.throw, bind, Except.bind]

theorem unexpected_ne_ok {α : Type} {a : α} : ts.unexpected ≠ .ok a := failAt_ne_ok

theorem punct_length {p : Punct} (h : ts.punct p = .ok rest) : rest.length < ts.length := by
  unfold punct at h
  split at h
  · split at h
    · cases h; simp
    · exact absurd h unexpected_ne_ok
  · exact absurd h unexpected_ne_ok

theorem punct?_length {p : Punct} {found : Bool} (h : ts.punct? p = .ok (found, rest)) :
    rest.length ≤ ts.length := by
  unfold punct? at h
  split at h
  · split at h <;> cases h <;> simp
  · cases h
  · cases h; exact Nat.le_refl _

theorem ident_length {name : String} (h : ts.ident = .ok (name, rest)) :
    rest.length < ts.length := by
  unfold ident at h
  split at h
  · cases h; simp
  · exact absurd h unexpected_ne_ok

end

end Tokens
end Bindery
