/-!
# Types of the declaration language

A type is a scalar, a fixed array, a borrowed slice or text, a named record (or enumeration), a
generic parameter, or a reference or optional around another type.
-/
namespace Bindery

inductive IntKind
  | i8 | u8 | i16 | u16 | i32 | u32 | i64 | u64 | isize | usize
  deriving DecidableEq

namespace IntKind

def name : IntKind → String
  | i8 => "i8" | u8 => "u8" | i16 => "i16" | u16 => "u16" | i32 => "i32"
  | u32 => "u32" | i64 => "i64" | u64 => "u64" | isize => "isize" | usize => "usize"

/-- The least and the greatest value of an enumerator. A pointer-sized kind has the bounds of the
narrowest supported pointer, and no bound lies outside the signed 64-bit numbers. -/
def range : IntKind → Int × Int
  | i8 => (-128, 127) | u8 => (0, 255)
  | i16 => (-32768, 32767) | u16 => (0, 65535)
  | i32 | isize => (-2147483648, 2147483647) | u32 | usize => (0, 4294967295)
  | i64 => (-9223372036854775808, 9223372036854775807) | u64 => (0, 9223372036854775807)

end IntKind

inductive Scalar
  | int (kind : IntKind)
  | f32 | f64 | bool | void
  deriving DecidableEq

namespace Scalar

def name : Scalar → String
  | int kind => kind.name
  | f32 => "f32" | f64 => "f64" | bool => "bool" | void => "void"

def all : List Scalar :=
  [.int .i8, .int .u8, .int .i16, .int .u16, .int .i32, .int .u32, .int .i64, .int .u64,
    .int .isize, .int .usize, .f32, .f64, .bool, .void]

theorem mem_all (s : Scalar) : s ∈ all := by
  cases s with
  | int kind => cases kind <;> decide
  | _ => decide

def ofName? (s : String) : Option Scalar := all.find? (·.name = s)

theorem ofName?_name (s : Scalar) : ofName? s.name = some s := by
  cases s with
  | int kind => cases kind <;> decide
  | _ => decide

end Scalar

inductive Wrap
  | ref | refMut | optional
  deriving DecidableEq

inductive Ty
  | scalar (s : Scalar)
  | array (elem : Ty) (length : Nat)
  | slice (mutable : Bool) (elem : Ty)
  | text (mutable : Bool)
  | record (name : String)
  | generic (name : String)
  | wrapped (kind : Wrap) (inner : Ty)
  deriving DecidableEq

namespace Ty

def void : Ty := .scalar .void

def isVoid (t : Ty) : Bool := t = void

/-- The type that is left once array suffixes are taken off. -/
def base : Ty → Ty
  | array elem _ => elem.base
  | t => t

/-- The declaration syntax of a type. -/
def render : Ty → String
  | scalar s => s.name
  | array elem length => elem.render ++ "[" ++ toString length ++ "]"
  | slice false elem => "slice<" ++ elem.render ++ ">"
  | slice true elem => "slice_mut<" ++ elem.render ++ ">"
  | text false => "str"
  | text true => "str_mut"
  | record name => name
  | generic name => name
  | wrapped .ref inner => "ref<" ++ inner.render ++ ">"
  | wrapped .refMut inner => "ref_mut<" ++ inner.render ++ ">"
  | wrapped .optional inner => "optional<" ++ inner.render ++ ">"

/-- Puts another type in place of every generic parameter of the given name. -/
def subst (t : Ty) (name : String) (other : Ty) : Ty :=
  match t with
  | generic n => if n = name then other else generic n
  | array elem length => array (elem.subst name other) length
  | slice mutable elem => slice mutable (elem.subst name other)
  | wrapped kind inner => wrapped kind (inner.subst name other)
  | t => t

/-- Whether a generic parameter of the given name occurs in a type. -/
def mentions (t : Ty) (name : String) : Bool :=
  match t with
  | generic n => n = name
  | array elem _ => elem.mentions name
  | slice _ elem => elem.mentions name
  | wrapped _ inner => inner.mentions name
  | _ => false

theorem subst_of_not_mentions {t : Ty} {name : String} (other : Ty)
    (h : t.mentions name = false) : t.subst name other = t := by
  induction t <;> simp_all [mentions, subst]

end Ty
end Bindery
