import Bindery.Lowering.Basic

/-!
# Foreign functions

A foreign function is declared by its symbol, the slots of its parameters under the names the host
uses for them, and the slot of its result. Both the host's header and the script interface are
written from these declarations.
-/
namespace Bindery

/-- A declared parameter with its slots. -/
structure LoweredParam where
  param : Param
  lowered : Lowered
  deriving DecidableEq

structure ForeignParam where
  name : String
  slot : Slot
  deriving DecidableEq

structure ForeignFunction where
  symbol : String
  params : List ForeignParam
  result : Slot
  deriving DecidableEq

namespace LoweredParam

def foreign (p : LoweredParam) : List ForeignParam :=
  p.lowered.slots.map fun s => ⟨p.param.name ++ s.role.suffix, s⟩

end LoweredParam

/-- A pointer to an object that only the foreign side knows. -/
def Slot.opaqueHandle : Slot := ⟨.pointer .opaqueObject true true, .whole⟩

/-- The object of a method, its first foreign parameter. -/
def ForeignParam.self : ForeignParam := ⟨"self", .opaqueHandle⟩

/-- The single slot of a result. -/
def Lowered.slot (l : Lowered) : Slot := l.slots.head?.getD ⟨.void, .whole⟩

def ForeignFunction.new (symbol : String) (params : List LoweredParam) (result : Slot) :
    ForeignFunction :=
  ⟨symbol, params.flatMap (·.foreign), result⟩

/-- A foreign function on an object. -/
def ForeignFunction.onSelf (f : ForeignFunction) : ForeignFunction :=
  { f with params := .self :: f.params }

/-- The function that destroys an object. -/
def ForeignFunction.destructor (symbol : String) : ForeignFunction :=
  onSelf ⟨symbol, [], ⟨.void, .whole⟩⟩

namespace Registry
variable (reg : Registry)

def lowerParams (params : List Param) : Except LoweringFault (List LoweredParam) :=
  params.mapM fun p => do
    let l ← reg.lowerParam p.type
    .ok ⟨p, l⟩

/-- Lowers the parameters of a function, which a fault then names. -/
def lowerParamsOf (function : String) (params : List Param) :
    Except LoweringFault (List LoweredParam) :=
  params.mapM fun p =>
    match reg.lowerParam p.type with
    | .ok l => .ok ⟨p, l⟩
    | .error fault => .error (.inParam function p.name fault)

def lowerReturnOf (function : String) (t : Ty) : Except LoweringFault Lowered :=
  match reg.lowerReturn t with
  | .ok l => .ok l
  | .error fault => .error (.inReturn function fault)

end Registry

namespace Signature

def highName (f : Signature) : String :=
  match f.binding with
  | some b => b.highPrefix ++ f.name
  | none => f.name

def lowName (f : Signature) : String :=
  match f.binding with
  | some b => b.lowPrefix ++ f.name
  | none => "c_" ++ f.name

end Signature
end Bindery
