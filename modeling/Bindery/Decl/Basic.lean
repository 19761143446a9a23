import Bindery.Text.Position
import Bindery.Ty.Basic

/-!
# Declarations

One annotation declares a module, functions, records, enumerations and handles. All positions
point into the text that carries the annotation.
-/
namespace Bindery

structure Param where
  name : String
  type : Ty
  deriving DecidableEq

structure Generic where
  name : String
  bounds : List String
  deriving DecidableEq

/-- Which wrappers a function gets: a high-level one, a low-level one or both. -/
inductive Strategy
  | highOnly | lowOnly | both
  deriving DecidableEq

structure Binding where
  strategy : Strategy := .highOnly
  highPrefix : String := ""
  lowPrefix : String := "c_"
  lowReturn : Option Ty := none
  transform : Option String := none
  deriving DecidableEq

structure Signature where
  name : String
  params : List Param
  ret : Ty
  generics : List Generic := []
  isAsync : Bool := false
  instances : List String := []
  binding : Option Binding := none
  pos : Position
  deriving DecidableEq

namespace Signature

def isGeneric (f : Signature) : Bool := !f.generics.isEmpty

def strategy (f : Signature) : Strategy :=
  match f.binding with
  | some b => b.strategy
  | none => .highOnly

def hasHigh (f : Signature) : Bool := f.strategy ≠ .lowOnly

def hasLow (f : Signature) : Bool := f.strategy ≠ .highOnly

end Signature

/-- A record is either only declared, or defined here by its fields. -/
structure Record where
  name : String
  fields : List Param := []
  isDefined : Bool := false
  hasLayout : Bool := false
  pos : Position
  deriving DecidableEq

structure Enum where
  name : String
  kind : IntKind := .i32
  items : List (String × Int)
  pos : Position
  deriving DecidableEq

structure Constructor where
  name : String
  params : List Param
  symbol : String
  deriving DecidableEq

structure Method where
  name : String
  mutable : Bool
  params : List Param
  ret : Ty
  symbol : String
  deriving DecidableEq

structure Handle where
  name : String
  constructors : List Constructor := []
  destructor : Option String := none
  methods : List Method := []
  pos : Position
  deriving DecidableEq

structure Declarations where
  modulePath : List String := []
  functions : List Signature := []
  records : List Record := []
  enums : List Enum := []
  handles : List Handle := []
  deriving DecidableEq

/-- Whether nothing is declared; a module name alone declares nothing. -/
def Declarations.isEmpty (ds : Declarations) : Bool :=
  ds.functions.isEmpty && ds.records.isEmpty && ds.enums.isEmpty && ds.handles.isEmpty

end Bindery
