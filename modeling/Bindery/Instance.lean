import Bindery.Decl.Basic
import Bindery.Name
import Bindery.Ty.Parser

/-!
# Instances of generic functions

A function with one generic parameter has an instance for each type of its list, whose name is the
function's followed by the type's.
-/
namespace Bindery

inductive InstanceFault
  | notGeneric (function : String)
  | severalGenerics (function : String) (count : Nat)
  | notListed (type : String) (listed : List String) (function : String)
  | badName (function type name : String)
  | badType (type function : String) (cause : Cause)
  | noInstances (function host : String)
  deriving DecidableEq

def InstanceFault.message : InstanceFault → String
  | notGeneric function => "function '" ++ function ++ "' has no generic parameters"
  | severalGenerics function count =>
    "function '" ++ function ++ "' declares " ++ toString count ++
      " generic parameters; only one can be monomorphized"
  | notListed type listed function =>
    "type '" ++ type ++ "' is not listed in [monomorphize(" ++
      Text.join ", " (listed.dropWhile (·.isEmpty)) ++ ")] of '" ++ function ++ "'"
  | badName function type name =>
    "instantiating '" ++ function ++ "' with '" ++ type ++ "' yields the invalid identifier '" ++
      name ++ "'"
  | badType type function cause =>
    "cannot parse monomorphization type '" ++ type ++ "' of '" ++ function ++ "': " ++
      cause.message
  | noInstances function host =>
    "generic function '" ++ function ++ "' in " ++ host ++
      " has no [monomorphize(...)] list, nothing to bind"

namespace Signature

/-- The signature with a type in place of a generic parameter, under a new name. -/
def specialize (f : Signature) (generic : String) (t : Ty) (name : String) : Signature where
  name
  params := f.params.map fun p => { p with type := p.type.subst generic t }
  ret := f.ret.subst generic t
  isAsync := f.isAsync
  binding := f.binding.map fun b => { b with lowReturn := b.lowReturn.map (·.subst generic t) }
  pos := f.pos

/-- The instance of a generic function for a type of its list. -/
def instantiate (f : Signature) (type : String) : Except InstanceFault Signature :=
  let name := f.name ++ "_" ++ Name.flatten type
  match f.generics with
  | [] => .error (.notGeneric f.name)
  | _ :: _ :: _ => .error (.severalGenerics f.name f.generics.length)
  | [g] =>
    if type ∉ f.instances then .error (.notListed type f.instances f.name)
    else if !Text.isIdentifier name then .error (.badName f.name type name)
    else
      match Ty.parse type [] with
      | .error fault => .error (.badType type f.name fault.cause)
      | .ok t => .ok (f.specialize g.name t name)

/-- All instances of a generic function, in the order of its list. -/
def instantiateAll (f : Signature) : Except InstanceFault (List Signature) :=
  f.instances.mapM f.instantiate

end Signature
end Bindery
