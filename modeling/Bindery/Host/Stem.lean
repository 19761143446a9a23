import Bindery.Name
import Bindery.Path

/-!
# Stems of the generated files

A host whose name no other host shares gives its stem to the files generated for it. Hosts that
share a name are told apart by their paths below the root; if that fails there is a conflict.
-/
namespace Bindery

structure StemConflict where
  first : Path
  second : Path
  stem : String
  deriving DecidableEq

namespace Host

def plainStem (host : Path) : String := Name.ofText host.stem

/-- The stem made of the path below the root. -/
def pathStem (root host : Path) : String :=
  let below := host.relativeTo root
  Name.ofText (if below.isEmpty then host else below).withoutExtension.generic

/-- The stem of a host among others. -/
def stemAmong (hosts : List Path) (root host : Path) : String :=
  if (hosts.map plainStem).count (plainStem host) > 1 then pathStem root host else plainStem host

/-- Gives each host its stem, which no host before it may have. -/
def assignStems (stemOf : Path → String) :
    List (Path × String) → List Path → Except StemConflict (List (Path × String))
  | given, [] => .ok given
  | given, host :: hosts =>
    match given.find? (·.2 = stemOf host) with
    | some owner => .error ⟨owner.1, host, stemOf host⟩
    | none => assignStems stemOf (given ++ [(host, stemOf host)]) hosts

/-- The stems of all hosts, in the order of their paths. -/
def stems (hosts : List Path) (root : Path) : Except StemConflict (List (Path × String)) := do
  let given ← assignStems (stemAmong hosts root) [] hosts
  .ok (given.mergeSort fun a b => !b.1.lt a.1)

end Host
end Bindery
