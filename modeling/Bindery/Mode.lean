/-!
# Modes of staging

Foreign fragments are merged into one file, or staged as modules that an entry file imports, with
or without a build script.
-/
namespace Bindery

inductive Mode
  | merge | modularImport | modularBuild
  deriving DecidableEq

namespace Mode

def name : Mode → String
  | merge => "merge"
  | modularImport => "modular-import"
  | modularBuild => "modular-build"

def ofName? : String → Option Mode
  | "merge" | "merged" => some merge
  | "modular-import" | "modular_import" => some modularImport
  | "modular-build" | "modular_buildzig" | "modular_build" => some modularBuild
  | _ => none

theorem ofName?_name (m : Mode) : ofName? m.name = some m := by
  cases m <;> decide

end Mode
end Bindery
