import Bindery.Syntax.Lexer
import Bindery.Syntax.Number

/-!
# Reading types

A type is a base type with array suffixes, where wrappers enclose a type between angle brackets.
The reader descends through the openings of wrappers, which it remembers, to the innermost base
type, and on the way out adds suffixes and closes the wrappers one by one. A rule that declines
leaves the tokens as they were.
-/
namespace Bindery

/-- What encloses a type between angle brackets. -/
inductive Enclosure
  | slice (mutable : Bool)
  | wrap (kind : Wrap)
  deriving DecidableEq

namespace Enclosure

def around : Enclosure → Ty → Ty
  | slice mutable => .slice mutable
  | wrap kind => .wrapped kind

def ofKeyword? : Keyword → Option Enclosure
  | .slice => some (slice false)
  | .sliceMut => some (slice true)
  | .ref => some (wrap .ref)
  | .refMut => some (wrap .refMut)
  | .optional => some (wrap .optional)
  | _ => none

end Enclosure

namespace Tokens

/-- The rest of a path whose first part is read. -/
def pathFrom (name : String) : Tokens → Except Fault (String × Tokens)
  | next ⟨.punct .doubleColon, _⟩ (next ⟨.ident part, _⟩ rest) =>
    pathFrom (name ++ "::" ++ part) rest
  | next ⟨.punct .doubleColon, _⟩ ts => ts.unexpected
  | broken fault => .error fault
  | ts => .ok (name, ts)

def path (ts : Tokens) : Except Fault (String × Tokens) := do
  let (name, ts) ← ts.ident
  ts.pathFrom name

/-- The length of an array, from 1 to the greatest 32-bit word. -/
def arrayLength (digits : String) (p : Position) : Except Fault Nat := do
  let n ← numberValue digits p
  if 0 < n ∧ n < 4294967296 then .ok n.toNat else .error ⟨p, .arrayLength⟩

def suffixes (t : Ty) : Tokens → Except Fault (Ty × Tokens)
  | next ⟨.punct .squareOpen, _⟩ (next ⟨.number digits, p⟩ ts) =>
    match arrayLength digits p with
    | .error fault => .error fault
    | .ok n =>
      match ts with
      | next ⟨.punct .squareClose, _⟩ rest => suffixes (.array t n) rest
      | ts => ts.unexpected
  | next ⟨.punct .squareOpen, _⟩ ts => ts.unexpected
  | broken fault => .error fault
  | ts => .ok (t, ts)

/-- Closes the wrappers around a type, the innermost first. -/
def close : List Enclosure → Ty → Tokens → Except Fault (Ty × Tokens)
  | [], t, ts => suffixes t ts
  | e :: outer, t, ts => do
    let (t, ts) ← suffixes t ts
    let ts ← ts.punct .greater
    close outer (e.around t) ts

/-- No type begins here: within a wrapper that is a fault. -/
def noType (outer : List Enclosure) (ts : Tokens) : Except Fault (Option Ty × Tokens) := do
  let t ← ts.head
  match outer with
  | [] => .ok (none, ts)
  | _ :: _ => .error ⟨t.pos, .expectedType⟩

/-- A path names a generic parameter if it is in scope, and a record otherwise. -/
def named (scope : List String) (name : String) : Ty :=
  if name ∈ scope then .generic name else .record name

variable (scope : List String)

/-- A type inside the given wrappers, of which the innermost comes first. -/
def typeWithin : List Enclosure → Tokens → Except Fault (Option Ty × Tokens)
  | outer, next ⟨.scalar s, _⟩ rest => do
    let (t, ts) ← close outer (.scalar s) rest
    .ok (some t, ts)
  | outer, next ⟨.ident name, _⟩ rest => do
    let (name, ts) ← pathFrom name rest
    let (t, ts) ← close outer (named scope name) ts
    .ok (some t, ts)
  | outer, next ⟨.keyword .str, _⟩ rest => do
    let (t, ts) ← close outer (.text false) rest
    .ok (some t, ts)
  | outer, next ⟨.keyword .strMut, _⟩ rest => do
    let (t, ts) ← close outer (.text true) rest
    .ok (some t, ts)
  | outer, next ⟨.keyword k, p⟩ rest =>
    match Enclosure.ofKeyword? k with
    | none => noType outer (next ⟨.keyword k, p⟩ rest)
    | some e =>
      match rest with
      | next ⟨.punct .less, _⟩ inner => typeWithin (e :: outer) inner
      | ts => ts.unexpected
  | outer, ts => noType outer ts

/-- A type, if one begins here. -/
def type? (ts : Tokens) : Except Fault (Option Ty × Tokens) := typeWithin scope [] ts

section
variable {scope : List String} {outer : List Enclosure} {t : Ty} {ts rest : Tokens}

theorem pathFrom_length {start name : String} (h : ts.pathFrom start = .ok (name, rest)) :
    rest.length ≤ ts.length := by
  fun_induction pathFrom start ts with
  | case1 start q part r pos ih =>
    have := ih h
    simp only [length_next]
    omega
  | case2 => exact absurd h unexpected_ne_ok
  | case3 => cases h
  | case4 => cases h; exact Nat.le_refl _

theorem path_length {name : String} (h : ts.path = .ok (name, rest)) :
    rest.length < ts.length := by
  simp only [path, bind, Except.bind] at h
  split at h
  · cases h
  · rename_i hi
    exact Nat.lt_of_le_of_lt (pathFrom_length h) (ident_length hi)

theorem suffixes_length {u : Ty} (h : suffixes t ts = .ok (u, rest)) :
    rest.length ≤ ts.length := by
  fun_induction suffixes t ts with
  | case1 => cases h
  | case2 t q digits p n hn r pos ih =>
    have := ih h
    simp only [length_next]
    omega
  | case3 | case4 => exact absurd h unexpected_ne_ok
  | case5 => cases h
  | case6 => cases h; exact Nat.le_refl _

theorem close_length {u : Ty} (h : close outer t ts = .ok (u, rest)) :
    rest.length ≤ ts.length := by
  induction outer generalizing t ts with
  | nil => exact suffixes_length h
  | cons e outer ih =>
    simp only [close, bind, Except.bind] at h
    split at h
    · cases h
    · rename_i hs
      split at h
      · cases h
      · rename_i hp
        have := ih h
        have := punct_length hp
        have := suffixes_length hs
        omega

theorem noType_eq_ok {found : Option Ty} (h : noType outer ts = .ok (found, rest)) :
    outer = [] ∧ found = none ∧ rest = ts := by
  simp only [noType, bind, Except.bind] at h
  split at h
  · cases h
  · cases outer <;> cases h
    exact ⟨rfl, rfl, rfl⟩

theorem typeWithin_length (h : typeWithin scope outer ts = .ok (some t, rest)) :
    rest.length < ts.length := by
  fun_induction typeWithin scope outer ts with
  | case1 | case3 | case4 =>
    simp only [bind, Except.bind] at h
    split at h <;> cases h
    rename_i hc
    have := close_length hc
    simp only [length_next]
    omega
  | case2 =>
    simp only [bind, Except.bind] at h
    split at h
    · cases h
    · rename_i hp
      split at h <;> cases h
      rename_i hc
      have := pathFrom_length hp
      have := close_length hc
      simp only [length_next]
      omega
  | case5 => cases (noType_eq_ok h).2.1
  | case6 =>
    rename_i ih
    have := ih h
    simp only [length_next] at *
    omega
  | case7 => exact absurd h unexpected_ne_ok
  | case8 => cases (noType_eq_ok h).2.1

theorem type?_length (h : ts.type? scope = .ok (some t, rest)) : rest.length < ts.length :=
  typeWithin_length h

end

def endOfText : Tokens → Except Fault Unit
  | done _ => .ok ()
  | ts => ts.unexpected

def wholeType (ts : Tokens) : Except Fault Ty := do
  match ← ts.type? scope with
  | (none, ts) => ts.unexpected
  | (some t, ts) =>
    ts.endOfText
    .ok t

end Tokens

/-- The type that a text denotes, where the names in scope are generic parameters. -/
def Ty.parse (text : String) (scope : List String) : Except Fault Ty :=
  (Tokens.ofText text .start).wholeType scope

end Bindery
