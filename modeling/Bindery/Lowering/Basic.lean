import Bindery.Decl.Basic
import Bindery.Lowering.Fault
import Bindery.Lowering.Slot

/-!
# Lowering types

Types are lowered with respect to the records and enumerations declared for a host. By value only
scalars, enumerations and records with a declared layout cross the boundary; an enumeration goes
before a record of its name. Slices and texts become a pointer with a length, references and
arrays a pointer.
-/
namespace Bindery

/-- The declared records and enumerations, of which the first of a name counts. -/
structure Registry where
  records : List Record := []
  enums : List Enum := []

namespace Registry

def record? (r : Registry) (name : String) : Option Record := r.records.find? (·.name = name)

def enum? (r : Registry) (name : String) : Option Enum := r.enums.find? (·.name = name)

variable (reg : Registry)

/-- The slot of a type that is passed by value. -/
def valueShape (site : Site) : Ty → Except LoweringFault Shape
  | .generic name => .error (.unresolvedGeneric name site)
  | .scalar .void => .error (.voidValue site)
  | .scalar s => .ok (.scalar s)
  | .record name =>
    match reg.enum? name with
    | some e => .ok (.scalar (.int e.kind))
    | none =>
      match reg.record? name with
      | none => .error (.unknownType name site)
      | some r => if r.hasLayout then .ok (.record name) else .error (.noLayout name)
  | t => .error (.notByValue t site)

/-- What a pointer to a type points to. A pointer to an enumeration keeps its name. -/
def pointee (site : Site) (t : Ty) : Except LoweringFault Pointee := do
  let shape ← reg.valueShape site t
  match t, shape with
  | .record name, _ => .ok (.named name)
  | _, .scalar s => .ok (.scalar s)
  | t, _ => .error (.notByValue t site)

def lowerValue (t : Ty) : Except LoweringFault Slot := do
  let shape ← reg.valueShape .value t
  .ok ⟨shape, .whole⟩

/-- A pointer with the number of elements behind it. -/
def pointerAndLength (target : Pointee) (mutable nullable : Bool) : List Slot :=
  [⟨.pointer target mutable nullable, .pointer⟩, ⟨.scalar (.int .usize), .length⟩]

/-- How a value is passed in one slot: an enumeration by its integer. -/
def valueRecipe : Ty → Recipe
  | .record name => if (reg.enum? name).isSome then .enumCast else .direct
  | _ => .direct

/-- A slice or a text as a parameter, whose pointer may be null within an optional. -/
def lowerView (nullable : Bool) : Ty → Except LoweringFault (Option Lowered)
  | .slice mutable elem => do
    let target ← reg.pointee .sliceElement elem
    .ok (some ⟨pointerAndLength target mutable nullable, .slice, .slice mutable elem, elem⟩)
  | .text mutable =>
    .ok (some ⟨pointerAndLength .char mutable nullable, .text, .text mutable, .text mutable⟩)
  | _ => .ok none

/-- A reference as a parameter. -/
def lowerRef (source : Ty) (mutable : Bool) : Ty → Except LoweringFault Lowered
  | .array elem length => do
    let target ← reg.pointee .arrayElement elem
    .ok ⟨[⟨.pointer target mutable false, .whole⟩], .array, source, .array elem length⟩
  | inner => do
    let target ← reg.pointee .reference inner
    .ok ⟨[⟨.pointer target mutable false, .whole⟩], .ref, source, inner⟩

/-- An optional reference, a pointer that may be null. -/
def lowerOptionalRef (source : Ty) (mutable : Bool) (inner : Ty) :
    Except LoweringFault Lowered := do
  let target ← reg.pointee .optionalReference inner
  .ok ⟨[⟨.pointer target mutable true, .whole⟩], .optionalRef, source, inner⟩

/-- An optional as a parameter, by its payload. -/
def lowerOptional (source : Ty) : Ty → Except LoweringFault Lowered
  | .wrapped .ref inner => reg.lowerOptionalRef source false inner
  | .wrapped .refMut inner => reg.lowerOptionalRef source true inner
  | .wrapped .optional _ => .error (.nestedOptional source)
  | .array elem length => .error (.optionalArray source (.array elem length))
  | inner => do
    match ← reg.lowerView true inner with
    | some view => .ok ⟨view.slots, .optionalSlice, source, inner⟩
    | none =>
      let shape ← reg.valueShape .optionalParameter inner
      .ok ⟨[⟨.scalar .bool, .present⟩, ⟨shape, .value⟩], .optionalValue, source, inner⟩

def lowerParam : Ty → Except LoweringFault Lowered
  | .array elem length => do
    let target ← reg.pointee .arrayElement elem
    .ok ⟨[⟨.pointer target false false, .whole⟩], .array, .array elem length, .array elem length⟩
  | .wrapped .ref inner => reg.lowerRef (.wrapped .ref inner) false inner
  | .wrapped .refMut inner => reg.lowerRef (.wrapped .refMut inner) true inner
  | .wrapped .optional inner => reg.lowerOptional (.wrapped .optional inner) inner
  | t => do
    match ← reg.lowerView false t with
    | some view => .ok view
    | none =>
      let shape ← reg.valueShape .parameter t
      .ok ⟨[⟨shape, .whole⟩], reg.valueRecipe t, t, t⟩

/-- A returned reference, never to an array. -/
def returnedRef (mutable nullable : Bool) : Ty → Except LoweringFault Slot
  | .array elem length => .error (.returnedArray (.array elem length))
  | inner => do
    let target ← reg.pointee .returnedReference inner
    .ok ⟨.pointer target mutable nullable, .whole⟩

/-- A return type, which always takes a single slot. -/
def lowerReturn : Ty → Except LoweringFault Lowered
  | .scalar .void => .ok ⟨[⟨.void, .whole⟩], .direct, .void, .void⟩
  | .slice mutable elem => .error (.notReturnable (.slice mutable elem))
  | .text mutable => .error (.notReturnable (.text mutable))
  | .array elem length => .error (.notReturnable (.array elem length))
  | .wrapped .ref inner => do
    let slot ← reg.returnedRef false false inner
    .ok ⟨[slot], .ref, .wrapped .ref inner, inner⟩
  | .wrapped .refMut inner => do
    let slot ← reg.returnedRef true false inner
    .ok ⟨[slot], .ref, .wrapped .refMut inner, inner⟩
  | .wrapped .optional (.wrapped .ref inner) => do
    let slot ← reg.returnedRef false true inner
    .ok ⟨[slot], .optionalRef, .wrapped .optional (.wrapped .ref inner), inner⟩
  | .wrapped .optional (.wrapped .refMut inner) => do
    let slot ← reg.returnedRef true true inner
    .ok ⟨[slot], .optionalRef, .wrapped .optional (.wrapped .refMut inner), inner⟩
  | .wrapped .optional inner => .error (.optionalNotReturnable (.wrapped .optional inner))
  | t => do
    let shape ← reg.valueShape .result t
    .ok ⟨[⟨shape, .whole⟩], reg.valueRecipe t, t, t⟩

end Registry
end Bindery
