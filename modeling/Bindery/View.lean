import Bindery.Ty.Basic

/-!
# Views across the binary interface

A view of items crosses the binary interface as a pointer and a length. An empty view still has a
pointer, one that points to nothing but is aligned, so that the null pointer is left to say that
there is no view at all.
-/
namespace Bindery

inductive Pointer (α : Type)
  | null
  | dangling (address : Nat)
  | items (storage : List α)
  deriving DecidableEq

structure View (α : Type) where
  pointer : Pointer α
  length : Nat
  deriving DecidableEq

/-- The alignment of a type in memory. -/
def Scalar.alignment : Scalar → Nat
  | .int kind =>
    match kind with
    | .i8 | .u8 => 1
    | .i16 | .u16 => 2
    | .i32 | .u32 => 4
    | .i64 | .u64 | .isize | .usize => 8
  | .bool | .void => 1
  | .f32 => 4
  | .f64 => 8

namespace View
variable {α : Type}

def empty : View α := ⟨.null, 0⟩

def ofList (l : List α) : View α := ⟨.items l, l.length⟩

/-- The items in view. -/
def toList (v : View α) : List α :=
  match v.pointer with
  | .items storage => storage.take v.length
  | _ => []

/-- The pointer and the length that a view crosses as, for items of an alignment. -/
def encode (alignment : Nat) (v : View α) : Pointer α × Nat :=
  if v.length = 0 then (.dangling alignment, 0) else (v.pointer, v.length)

def isNull : Pointer α → Bool
  | .null => true
  | _ => false

def decode (p : Pointer α) (length : Nat) : View α :=
  if length = 0 ∨ isNull p then empty else ⟨p, length⟩

def encodeOptional (alignment : Nat) : Option (View α) → Pointer α × Nat
  | none => (.null, 0)
  | some v => v.encode alignment

def decodeOptional (p : Pointer α) (length : Nat) : Option (View α) :=
  if isNull p then none else some (decode p length)

end View

/-- An optional value crosses as a flag and a value, which is the default one if there is none. -/
def encodeOption {α : Type} [Inhabited α] : Option α → Bool × α
  | none => (false, default)
  | some a => (true, a)

def decodeOption {α : Type} (isPresent : Bool) (a : α) : Option α :=
  if isPresent then some a else none

end Bindery
