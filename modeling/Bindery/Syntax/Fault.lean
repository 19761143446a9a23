import Bindery.Text.Position

/-!
# Faults of a declaration text

A fault is a cause with the position at which it was noticed. Causes are either lexical, when no
token can be read, or grammatical, when the tokens do not form declarations.
-/
namespace Bindery

inductive NumberFault
  | trailing | outOfRange
  deriving DecidableEq

def NumberFault.message : NumberFault → String
  | trailing => "Success"
  | outOfRange => "Numerical result out of range"

inductive LexicalCause
  | repeatedHexMark
  | badHexDigit
  | badDigit
  | badNameChar (c : Char)
  | unterminatedText
  | loneMark (c : Char)
  | unknownChar (c : Char)
  deriving DecidableEq

def LexicalCause.message : LexicalCause → String
  | repeatedHexMark => "Incorrect hexadecimal number."
  | badHexDigit => "Invalid hexadecimal digit."
  | badDigit => "Invalid number."
  | badNameChar c => "Unexpected character '" ++ c.toString ++ "' in identifier"
  | unterminatedText => "Unterminated quoted string."
  | loneMark c => "Unknown token '" ++ c.toString ++ "'."
  | unknownChar c => "Unknown token '" ++ c.toString ++ "'"

/-- What may carry attributes besides functions. -/
inductive Owner
  | struct | enum | handle
  deriving DecidableEq

def Owner.name : Owner → String
  | struct => "struct" | enum => "enum" | handle => "handle"

inductive Cause
  | lexical (cause : LexicalCause)
  | unexpected (token : String)
  | badNumber (number : String) (why : NumberFault)
  | arrayLength
  | expectedType
  | expectedParamType (param : String)
  | expectedParam
  | duplicateParam (param : String)
  | expectedValue (key : String)
  | badStrategy (value : String)
  | positionalBinding
  | duplicateKey (key : String)
  | badPrefix (value : String)
  | badLowReturn (cause : Cause)
  | unquotedTransform
  | unknownKey (key : String)
  | duplicateBinding
  | instancesWithoutGenerics (function : String)
  | noInstances
  | duplicateInstance (type : String)
  | layoutOnFunction (function : String)
  | unknownAttribute (name : String)
  | misplacedAttribute (name : String) (owner : Owner) (ownerName : String)
  | layoutArgument
  | badGeneric (token : String)
  | expectedReturnType
  | duplicateFunction (function : String)
  | qualifiedDefinition (struct : String)
  | expectedField
  | duplicateField (field struct : String)
  | emptyStruct (struct : String)
  | expectedIntKind
  | duplicateItem (item enum : String)
  | valueOutside (number item kind : String)
  | implicitOutside (item kind : String)
  | emptyEnum (enum : String)
  | secondDestructor (handle : String)
  | missingSelf (method : String)
  | noDestructor (handle : String)
  | noConstructor (handle : String)
  | secondModule
  | strayAttributes
  | expectedDeclaration
  deriving DecidableEq

namespace Cause

def isLexical : Cause → Bool
  | lexical _ => true
  | _ => false

def message : Cause → String
  | lexical cause => cause.message
  | unexpected token => "Unexpected token: '" ++ token ++ "'"
  | badNumber number why => "Invalid number '" ++ number ++ "': " ++ why.message
  | arrayLength => "Array length must be a positive number"
  | expectedType => "Expected type declaration"
  | expectedParamType param => "Expected type of parameter '" ++ param ++ "'"
  | expectedParam => "Expected parameter declaration"
  | duplicateParam param => "Duplicate parameter name: " ++ param
  | expectedValue key => "Expected quoted string or type as value of '" ++ key ++ "'"
  | badStrategy value =>
    "Invalid binding strategy \"" ++ value ++
      "\", expected \"dual\", \"high_only\" or \"low_only\""
  | positionalBinding => "Expected key=value in attribute 'binding'"
  | duplicateKey key => "Duplicate attribute key: " ++ key
  | badPrefix value => "Prefix \"" ++ value ++ "\" is not a valid identifier part"
  | badLowReturn cause => "Invalid c_ret type: " ++ cause.message
  | unquotedTransform => "map_fn expects a quoted transform such as \"|x| x != 0\""
  | unknownKey key => "Unknown attribute key: " ++ key
  | duplicateBinding => "Duplicate attribute: binding"
  | instancesWithoutGenerics function =>
    "Attribute 'monomorphize' requires a generic parameter list on " ++ function
  | noInstances => "Attribute 'monomorphize' requires at least one type"
  | duplicateInstance type => "Duplicate monomorphization type: " ++ type
  | layoutOnFunction function => "Attribute 'layout' is not allowed on function " ++ function
  | unknownAttribute name => "Unknown attribute: " ++ name
  | misplacedAttribute name owner ownerName =>
    "Unknown attribute: " ++ name ++ " for " ++ owner.name ++ " " ++ ownerName
  | layoutArgument => "Attribute 'layout' expects exactly one argument: c"
  | badGeneric token => "Generic parameter must be an identifier, got '" ++ token ++ "'"
  | expectedReturnType => "Expected return type"
  | duplicateFunction function => "Duplicate function declaration: " ++ function
  | qualifiedDefinition struct =>
    "Qualified struct " ++ struct ++ " can only be declared, not defined"
  | expectedField => "Expected field declaration"
  | duplicateField field struct => "Duplicate field '" ++ field ++ "' in struct " ++ struct
  | emptyStruct struct => "Struct " ++ struct ++ " has no fields"
  | expectedIntKind => "expected an integer type"
  | duplicateItem item enum => "Duplicate enumerator '" ++ item ++ "' in enum " ++ enum
  | valueOutside number item kind =>
    "Value " ++ number ++ " of enumerator '" ++ item ++ "' is outside the range of " ++ kind
  | implicitOutside item kind =>
    "Implicit value of enumerator '" ++ item ++ "' overflows " ++ kind
  | emptyEnum enum => "Enum " ++ enum ++ " has no items"
  | secondDestructor handle => "Handle " ++ handle ++ " already has a destructor"
  | missingSelf method => "Handle method " ++ method ++ " must take 'self' or 'mut self' first"
  | noDestructor handle => "Handle " ++ handle ++ " has no destructor"
  | noConstructor handle => "Handle " ++ handle ++ " has no constructor"
  | secondModule => "Module is already declared"
  | strayAttributes => "Attributes must be followed by a declaration"
  | expectedDeclaration => "Expected tokens: declaration, eof"

end Cause

structure Fault where
  pos : Position
  cause : Cause
  deriving DecidableEq

/-- A fault together with the name of the file that holds the text. -/
structure SyntaxError where
  file : String
  fault : Fault
  deriving DecidableEq

def SyntaxError.message (e : SyntaxError) : String := e.fault.cause.message

end Bindery
