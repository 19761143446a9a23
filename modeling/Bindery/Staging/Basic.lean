import Bindery.Mode
import Bindery.Sources
import Bindery.Staging.BuildScript
import Bindery.Staging.Merge
import Bindery.Staging.Promote

/-!
# Staging

Before a build the foreign code is laid out in the output directory: merged into one file, or as
one file per fragment with an entry file that imports them. Whatever an earlier run staged is
removed first; other files of the directory are left alone.
-/
namespace Bindery

/-- What is staged for one run of the compiler. -/
structure Staged where
  mode : Mode
  /-- The root file of the compiler, or the build script. -/
  entry : Path
  /-- All files written or copied, in the order of staging. -/
  files : List Path
  auxiliary : List Path
  deriving DecidableEq

namespace Staging
open Text

def mergedName : String := "zigbind_merged.zig"

def entryName : String := "zigbind_entry.zig"

def scriptName : String := "build.zig"

def fragmentStem : String := "zigbind_frag_"

def fragmentName (i : Nat) : String := fragmentStem ++ toString i ++ ".zig"

/-- The directory of a foreign file and its siblings. -/
def externalName (i : Nat) : String := "ext" ++ toString i

/-- The names that staging keeps for itself. -/
def isStaged (name : String) : Bool :=
  let cs := name.toList
  fragmentStem.toList.isPrefixOf cs || name = mergedName || name = entryName ||
    name = scriptName ||
    ("ext".toList.isPrefixOf cs && !(cs.drop 3).isEmpty && (cs.drop 3).all isDigit)

/-- The inline fragments, with the layout of the binary interface for their structs. -/
def fragments (s : Sources) : List String :=
  (s.annotations.filter fun a => trim a.code.toList ≠ []).map fun a => Promote.promote a.code

/-- The foreign files, each where it is first included. -/
def externals (s : Sources) : List Path := Path.distinct (s.annotations.filterMap (·.file))

def isForeign (file : Path) : Bool := file.extension = ".zig"

def header : String := "// Generated by zbgen. Do not edit.\n"

/-- The file that imports all others. -/
def entry (imports : List String) : String :=
  header ++ "comptime \x7b\n" ++
    String.join (imports.map fun name =>
      "    _ = @import(" ++ BuildScript.quote name ++ ");\n") ++ "\x7d\n"

/-- Removes what an earlier run has staged. -/
def clean (out : Path) : Act Unit := do
  (← Act.list out).forM fun (p, _) => if isStaged p.filename then Act.removeAll p else pure ()

def write (p : Path) (content : String) : Act Unit := Act.write p content (.cannotWrite p)

/-- A foreign file as a fragment of its own. -/
def externalFragment (file : Path) : Act String := do
  let code ← Act.read file (.cannotOpen file)
  return "// From " ++ file.generic ++ "\n" ++ code

def stageMerged (s : Sources) (out : Path) : Act Staged := do
  let external ← (externals s).mapM externalFragment
  let fragments := fragments s ++ external
  let file := out / mergedName
  write file (Merge.merge fragments)
  Act.debug ("Merged " ++ toString fragments.length ++ " fragments into " ++ file.text)
  return ⟨.merge, file, [file], s.auxiliary⟩

/-- Stages fragments as files of their own, from a number on. -/
def stageFragments (out : Path) : Nat → List String → Act (List Path)
  | _, [] => return []
  | i, code :: rest => do
    let file := out / fragmentName i
    write file code
    return file :: (← stageFragments out (i + 1) rest)

/-- Copies a foreign file together with its siblings, so that it may go on to import them. -/
def stageExternal (dir file : Path) : Act (List Path) := do
  Act.createDirectories dir
  let entries ← Act.list file.parent
  let siblings := Path.sort ((entries.filter fun (p, e) => e ≠ .directory ∧ isForeign p).map (·.1))
  siblings.mapM fun sibling => do
    let target := dir / sibling.filename
    Act.copy sibling target
    return target

/-- Stages foreign files in numbered directories, from a number on. -/
def stageExternals (out : Path) : Nat → List Path → Act (List Path)
  | _, [] => return []
  | i, file :: rest => do
    let staged ← stageExternal (out / externalName i) file
    return staged ++ (← stageExternals out (i + 1) rest)

/-- The names that the entry file imports: the fragments, then the foreign files. -/
def imports (s : Sources) : List String :=
  (List.range (fragments s).length).map fragmentName ++
    (externals s).mapIdx fun i file => externalName i ++ "/" ++ file.filename

def stageModules (s : Sources) (mode : Mode) (out : Path) : Act Staged := do
  let inlined ← stageFragments out 0 (fragments s)
  let external ← stageExternals out 0 (externals s)
  let entryFile := out / entryName
  write entryFile (entry (imports s))
  let files := inlined ++ external ++ [entryFile]
  let staged : Staged ← match mode with
    | .modularBuild => do
      let script := out / scriptName
      write script (BuildScript.render entryName s.auxiliary)
      pure ⟨mode, script, files ++ [script], s.auxiliary⟩
    | _ => pure ⟨mode, entryFile, files, s.auxiliary⟩
  Act.debug ("Staged " ++ toString staged.files.length ++ " files for " ++ mode.name ++ " in " ++
    out.text)
  return staged

/-- Lays out the foreign code of some sources in the output directory. -/
def assemble (s : Sources) (mode : Mode) (out : Path) : Act Staged := do
  Act.createDirectories out
  clean out
  match mode with
  | .merge => stageMerged s out
  | mode => stageModules s mode out

end Staging
end Bindery
