import Bindery.Lowering.Basic
import Bindery.Name
import Bindery.Path

/-!
# Hosts

A host is a source file with annotations. All that is generated for it shares a stem for the names
of its files, a namespace, the types declared in its annotations, and the lists of the names that
the generated code provides and of the foreign symbols it refers to.
-/
namespace Bindery

inductive ProvidedKind
  | foreign | high | low | async | handle
  deriving DecidableEq

/-- A name that generated code provides, with its return type in the host's spelling. -/
structure Provided where
  name : String
  kind : ProvidedKind
  type : String
  deriving DecidableEq

structure Host where
  path : Path
  stem : String
  modulePath : List String
  types : Registry := {}
  provided : List Provided := []
  symbols : List String := []

namespace Host

/-- Whether a file may carry annotations, by its extension. -/
def isSource (path : Path) : Bool :=
  path.extension ∈ [".cpp", ".cc", ".cxx", ".hpp", ".hh", ".h", ".ipp"]

/-- A host whose files are named after the given stem, or after the host if that is empty. The
namespace follows the host until a module is declared. -/
def new (path : Path) (stem : String) : Host where
  path
  stem := Name.ofText (if stem.isEmpty then path.stem else stem)
  modulePath := [Name.ofText path.stem]

/-- Whether generated code can include the host. -/
def isHeader (h : Host) : Bool := h.path.extension ∈ [".hpp", ".hh", ".h", ".ipp"]

def setModule (h : Host) (parts : List String) : Host :=
  if parts = [] then h else { h with modulePath := parts }

def namespaceName (h : Host) : String :=
  Text.join "::" (h.modulePath.dropWhile (·.isEmpty))

def provide (h : Host) (p : Provided) : Host := { h with provided := h.provided ++ [p] }

/-- Adds a foreign symbol, once. -/
def addSymbol (h : Host) (symbol : String) : Host :=
  if symbol ∈ h.symbols then h else { h with symbols := h.symbols ++ [symbol] }

/-- Makes the records and enumerations of some declarations known. -/
def declare (h : Host) (ds : List Declarations) : Host :=
  { h with types := ⟨h.types.records ++ ds.flatMap (·.records),
      h.types.enums ++ ds.flatMap (·.enums)⟩ }

end Host
end Bindery
