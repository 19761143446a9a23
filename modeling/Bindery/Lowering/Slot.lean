import Bindery.Ty.Basic

/-!
# Slots of the binary interface

A type crosses the foreign boundary in one or two slots. A slot is a scalar, a pointer, a record by
value or nothing; its role tells what it stands for in its parameter and is added to the
parameter's name.
-/
namespace Bindery

/-- What a pointer points to. -/
inductive Pointee
  | scalar (s : Scalar)
  | char
  | named (name : String)
  | opaqueObject
  deriving DecidableEq

def Pointee.name : Pointee → String
  | scalar s => s.name
  | char => "char"
  | named name => name
  | opaqueObject => "void"

inductive Shape
  | scalar (s : Scalar)
  | pointer (target : Pointee) (mutable nullable : Bool)
  | record (name : String)
  | void
  deriving DecidableEq

inductive Role
  | whole | pointer | length | present | value
  deriving DecidableEq

def Role.suffix : Role → String
  | whole => "" | pointer => "_ptr" | length => "_len" | present => "_present" | value => "_value"

structure Slot where
  shape : Shape
  role : Role := .whole
  deriving DecidableEq

namespace Slot

def isVoid (s : Slot) : Bool := s.shape = .void

def isRecord (s : Slot) : Bool :=
  match s.shape with
  | .record _ => true
  | _ => false

def isMutablePointer (s : Slot) : Bool :=
  match s.shape with
  | .pointer _ mutable _ => mutable
  | _ => false

/-- A slot whose pointer may be null. -/
def nullable (s : Slot) : Slot :=
  match s.shape with
  | .pointer target mutable _ => { s with shape := .pointer target mutable true }
  | _ => s

end Slot

/-- How a value of the host is turned into its slots. -/
inductive Recipe
  | direct | enumCast | slice | text | array | ref | optionalRef | optionalSlice | optionalValue
  deriving DecidableEq

def Recipe.name : Recipe → String
  | direct => "direct"
  | enumCast => "enum-cast"
  | slice => "slice-to-ptr-len"
  | text => "text-to-ptr-len"
  | array => "array-to-ptr"
  | ref => "ref-to-ptr"
  | optionalRef => "optional-nullable"
  | optionalSlice => "optional-slice"
  | optionalValue => "optional-presence"

/-- The slots of a type, with the type itself and the type that the recipe works on: the element of
a slice, what a reference refers to, or the payload of an optional. -/
structure Lowered where
  slots : List Slot
  recipe : Recipe
  source : Ty
  element : Ty
  deriving DecidableEq

end Bindery
