import Bindery.Cache
import Bindery.Compiler
import Bindery.Digest
import Bindery.Staging.Basic

/-!
# The build

The foreign code of some sources is staged and compiled into a static library, unless the cache
tells that the library is current. The key of the cache covers all that the compiler is given: the
mode, the target, the optimisation, and every file with its name.
-/
namespace Bindery

/-- What is built with: a compiler, a mode of staging and a build profile. -/
structure Toolchain where
  compiler : Compiler
  mode : Mode := .merge
  profile : String := "Release"

/-- What a build makes, or finds made. -/
structure Output where
  outDir : Path
  target : String
  /-- The library, if there is foreign code. -/
  artifact : Option Path := none
  key : String := ""
  isCached : Bool := false
  /-- The symbols that the final link must keep. -/
  exported : List String := []
  /-- The generated sources that the host has to compile. -/
  sources : List Path := []
  deriving DecidableEq

namespace Build

def libraryName : String := "zigbind_foreign"

def artifact (mode : Mode) (target : String) (out : Path) : Path :=
  let name := if Target.isMsvc target then libraryName ++ ".lib" else "lib" ++ libraryName ++ ".a"
  match mode with
  | .modularBuild => out / "lib" / name
  | _ => out / name

/-- The directories of auxiliary sources, in order and each once. -/
def includeDirs (auxiliary : List Path) : List String :=
  (auxiliary.map (·.parent.text)).eraseDups.mergeSort fun a b => !decide (b < a)

/-- The options and files that compile the auxiliary sources along. -/
def auxiliaryArgs (auxiliary : List Path) : List String :=
  (includeDirs auxiliary).map ("-I" ++ ·) ++ auxiliary.map (·.text)

/-- The command line that compiles what is staged. -/
def compileArgs (s : Staged) (target optimization : String) (out : Path) : List String :=
  match s.mode with
  | .modularBuild =>
    ["build", "--build-file", s.entry.text, "-p", out.text, "-Dtarget=" ++ target,
      "-Doptimize=" ++ optimization]
  | mode =>
    ["build-lib", s.entry.text] ++ auxiliaryArgs s.auxiliary ++
      ["-static", "-femit-bin=" ++ (artifact mode target out).text, "-target", target,
        "-mcpu=baseline"] ++
      (if Target.isHosted target then ["-fPIC", "-lc"] else []) ++ ["-O", optimization]

/-- The command line that runs the tests in what is staged. -/
def testArgs (s : Staged) (target optimization : String) : List String :=
  ["test", s.entry.text] ++ auxiliaryArgs s.auxiliary ++ ["-target", target, "-O", optimization] ++
    (if Target.isHosted target then ["-lc"] else [])

/-- The names that the search for headers passes by: hidden ones and the compiler's own. -/
def isPassedBy (name : String) : Bool :=
  Sources.isHidden name || name = "zig-cache" || name = "zig-out"

/-- Whether the search for headers comes to a file below a directory. -/
def finds (skip dir : Path) : List String → Bool
  | [] => true
  | name :: names =>
    let below := dir / name
    !isPassedBy name && !below.same skip && finds skip below names

def isHeader (file : Path) : Bool := file.extension ∈ [".h", ".hh", ".hpp", ".inc"]

/-- The headers that the auxiliary sources can include, in order and each once. -/
def headers (w : World) (auxiliary : List Path) (out : Path) : List Path :=
  let skip := w.canonical out
  Path.sort (Path.distinct ((includeDirs auxiliary).flatMap fun dir =>
    (((w.filesBelow ⟨dir⟩).filter (finds skip ⟨dir⟩)).map (Path.below ⟨dir⟩)).filter isHeader))

/-- The files that the key covers, with the names they go by: staged ones relative to the output
directory. -/
def keyFiles (w : World) (s : Staged) (out : Path) : List (String × Path) :=
  s.files.map (fun p => ((p.relativeTo out).generic, p)) ++
    (s.auxiliary ++ headers w s.auxiliary out).map fun p => (p.generic, p)

/-- The text that the key is the digest of. -/
def keyText (w : World) (s : Staged) (target optimization : String) (out : Path) :
    Except Failure String := do
  let files ← (keyFiles w s out).mapM fun (name, p) => do
    let content ← w.hashed p
    return Digest.field name ++ Digest.field content
  return String.join ([s.mode.name, target, optimization].map Digest.field) ++ String.join files

/-- The number of digits of a key that the log shows. -/
def shownDigits : Nat := 12

variable (t : Toolchain)

/-- Runs the compiler for an artifact, which has to exist then. -/
def runCompiler (args : List String) (out artifact : Path) : Act Unit := do
  let result ← Act.compile t.compiler ⟨args, out⟩
  if result.exitCode ≠ 0 then
    throw (.build (.compilerFailed t.compiler.name result.exitCode result.diagnostic))
  if !(← get).exists? artifact then
    throw (.build (.noArtifact t.compiler.name artifact result.diagnostic))

/-- Compiles what is staged and remembers it in the cache. -/
def compileStaged (s : Staged) (target key : String) (out : Path) : Act Path := do
  let artifact := artifact t.mode target out
  let optimization := Target.optimization t.profile
  Act.info ("Compiling " ++ toString s.files.length ++ " foreign files for " ++ target ++ " (" ++
    t.mode.name ++ ", " ++ optimization ++ ")")
  runCompiler t (compileArgs s target optimization out) out artifact
  Cache.store out ⟨key, artifact, (← get).clock⟩
  return artifact

/-- Builds the library of some sources for a target triple. -/
def build (s : Sources) (triple : String) (out : Path) : Act Output := do
  let target ← Act.orBuild (Target.ofTriple triple)
  if s.isEmpty then
    Act.info "No foreign code found, nothing to compile"
    return { outDir := out, target }
  let staged ← Staging.assemble s t.mode out
  let text ← Act.ofExcept (keyText (← get) staged target (Target.optimization t.profile) out)
  let key := Digest.sha256 text
  match ← Cache.lookup out key with
  | some hit =>
    Act.info ("Foreign code unchanged (" ++ String.ofList (key.toList.take shownDigits) ++
      "), using " ++ hit.artifact.text)
    return { outDir := out, target, key, isCached := true, artifact := some hit.artifact }
  | none =>
    let artifact ← compileStaged t staged target key out
    return { outDir := out, target, key, artifact := some artifact }

/-- Runs the tests in the foreign code of some sources. -/
def runTests (s : Sources) (triple : String) (out : Path) : Act Unit := do
  let target ← Act.orBuild (Target.ofTriple triple)
  if s.isEmpty then
    Act.info "No foreign code found, no tests to run"
    return
  let dir := out / "zig-test"
  let staged ← Staging.assemble s .merge dir
  Act.info ("Running foreign tests for " ++ target)
  let result ← Act.compile t.compiler ⟨testArgs staged target (Target.optimization t.profile), dir⟩
  if result.exitCode ≠ 0 then
    throw (.build (.testsFailed result.exitCode result.diagnostic))
  if !result.diagnostic.isEmpty then Act.info result.diagnostic

end Build
end Bindery
