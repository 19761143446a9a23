import Bindery.Ty.Basic

/-!
# Faults of lowering

A type may have no form that can cross the foreign boundary, and a binding may ask for wrappers
that cannot be written.
-/
namespace Bindery

/-- Where a type stands that has to cross the boundary by value. -/
inductive Site
  | parameter | result | value | sliceElement | arrayElement | reference
  | optionalReference | optionalParameter | returnedReference
  deriving DecidableEq

def Site.name : Site → String
  | parameter => "parameter" | result => "return" | value => "value"
  | sliceElement => "slice element" | arrayElement => "array element" | reference => "reference"
  | optionalReference => "optional reference" | optionalParameter => "optional parameter"
  | returnedReference => "returned reference"

inductive LoweringFault
  | unresolvedGeneric (name : String) (site : Site)
  | voidValue (site : Site)
  | unknownType (name : String) (site : Site)
  | noLayout (record : String)
  | notByValue (t : Ty) (site : Site)
  | nestedOptional (t : Ty)
  | optionalArray (t array : Ty)
  | notReturnable (t : Ty)
  | returnedArray (t : Ty)
  | optionalNotReturnable (t : Ty)
  | notAValue (t : Ty)
  | noHostType (t : Ty)
  | noHostReturn (t : Ty)
  | badTransform (text : String)
  | inParam (function param : String) (cause : LoweringFault)
  | inReturn (function : String) (cause : LoweringFault)
  | inField (field record : String) (cause : LoweringFault)
  | fieldWithoutLayout (field record : String) (t : Ty)
  | emptyLowPrefix (function : String)
  | equalPrefixes (function pre : String)
  | transformOnVoid (function : String)
  | badLowReturn (function : String) (t : Ty)
  | genericFunction (function : String)
  | asyncReference (function : String) (t : Ty)
  | asyncMutableBorrow (function param : String) (t : Ty)
  | recordOutOfReach (record host : String)
  | qualifiedRecord (record : String)
  deriving DecidableEq

def LoweringFault.message : LoweringFault → String
  | unresolvedGeneric name site =>
    "unresolved generic parameter '" ++ name ++ "' in " ++ site.name ++
      "; list concrete types with [monomorphize(...)]"
  | voidValue site => "void is not a valid " ++ site.name ++ " type"
  | unknownType name site =>
    "unknown type '" ++ name ++ "' in " ++ site.name ++
      "; declare it with [layout(c)] struct " ++ name ++ ";"
  | noLayout record =>
    "record '" ++ record ++ "' has no declared field layout and cannot cross the " ++
      "foreign boundary; mark it [layout(c)]"
  | notByValue t site => t.render ++ " is not a by-value type in " ++ site.name
  | nestedOptional t => "nested optional " ++ t.render ++ " has no FFI-safe form"
  | optionalArray t array =>
    t.render ++ " has no FFI-safe form; use optional<ref<" ++ array.render ++ ">>"
  | notReturnable t =>
    t.render ++ " cannot be returned across the foreign boundary; " ++
      "pass an output slice_mut parameter instead"
  | returnedArray t => "reference to array " ++ t.render ++ " cannot be returned"
  | optionalNotReturnable t =>
    t.render ++ " cannot be returned: only optional references lower to a nullable pointer"
  | notAValue t => t.render ++ " is not a value type"
  | noHostType t => t.render ++ " has no host type"
  | noHostReturn t => t.render ++ " has no host return type"
  | badTransform text =>
    "map_fn must be a single-input transform of the form \"|x| expr\", got \"" ++ text ++ "\""
  | inParam function param cause =>
    "'" ++ function ++ "', parameter '" ++ param ++ "': " ++ cause.message
  | inReturn function cause => "'" ++ function ++ "', return type: " ++ cause.message
  | inField field record cause =>
    "field '" ++ field ++ "' of record '" ++ record ++ "': " ++ cause.message
  | fieldWithoutLayout field record t =>
    "field '" ++ field ++ "' of record '" ++ record ++ "' has type " ++ t.render ++
      " without a fixed layout"
  | emptyLowPrefix function =>
    "low-level wrapper of '" ++ function ++
      "' would collide with its foreign symbol; set a non-empty prefix_low"
  | equalPrefixes function pre =>
    "dual binding of '" ++ function ++
      "' needs different prefix_high and prefix_low, both are \"" ++ pre ++ "\""
  | transformOnVoid function =>
    "'" ++ function ++ "' returns void, c_ret and map_fn cannot be applied"
  | badLowReturn function t =>
    "c_ret of '" ++ function ++ "' must be a single FFI-safe value, got " ++ t.render
  | genericFunction function =>
    "'" ++ function ++ "' is generic, only its [monomorphize(...)] instances are bound"
  | asyncReference function t =>
    "async '" ++ function ++ "' cannot return a borrowed reference (" ++ t.render ++ ")"
  | asyncMutableBorrow function param t =>
    "async '" ++ function ++ "' cannot capture mutable borrow '" ++ param ++ "' (" ++
      t.render ++ ")"
  | recordOutOfReach record host =>
    "record '" ++ record ++ "' is defined in " ++ host ++
      ", which generated code cannot include; declare its fields in the annotation or move it " ++
      "to a header"
  | qualifiedRecord record =>
    "record '" ++ record ++ "' with a field list cannot have a qualified name; " ++
      "declare it as 'struct " ++ record ++ ";' and define it in the host"

end Bindery
