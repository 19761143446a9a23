import Bindery.Build
import Bindery.Generation
import Bindery.Host.Stem
import Bindery.Linkage

/-!
# Compilations

A compilation scans a source root, generates the products of every annotated host, builds the
foreign code and gives directions for linking. It may be run again when the sources have changed.
-/
namespace Bindery

structure Settings where
  root : Path := .empty
  /-- Below the root by default. -/
  outDir : Path := .empty
  mode : Mode := .merge
  triple : String := ""
  profile : String := "Release"
  withScript : Bool := false
  generatesOnly : Bool := false
  deriving DecidableEq

structure Compilation where
  root : Path
  outDir : Path
  toolchain : Toolchain
  triple : String
  products : List Product
  generatesOnly : Bool

namespace Settings

def defaultOutDir : String := ".zigbind"

/-- The products of each host. The script interface depends on the width of the target. -/
def products (s : Settings) : Except BuildFault (List Product) :=
  if s.withScript then do
    let target ← Target.ofTriple s.triple
    return [.header {}, .script { isWide := Target.isWasm64 target }]
  else return [.header {}]

/-- A compilation of its own for some settings. Its paths are absolute, since generated sources
include hosts by path. -/
def start (s : Settings) (compiler : Compiler) : Act Compilation := do
  if s.root.isEmpty then throw .noSourceRoot
  let w ← get
  let root := w.absolute s.root
  let outDir := if s.outDir.isEmpty then root / defaultOutDir else w.absolute s.outDir
  let products ← Act.orBuild s.products
  set { w with provided := [] }
  return { root, outDir, toolchain := { compiler, mode := s.mode, profile := s.profile },
           triple := s.triple, products, generatesOnly := s.generatesOnly }

end Settings

namespace Sources

/-- The annotations that declare something. -/
def declaring (s : Sources) : List Annotation := s.annotations.filter fun a => !a.decls.isEmpty

/-- The hosts with such annotations, in order and each once. -/
def hosts (s : Sources) : List Path := Path.sort (Path.distinct (s.declaring.map (·.host)))

def declaringIn (s : Sources) (host : Path) : List Annotation :=
  s.declaring.filter (·.host.same host)

/-- The module path that the annotations of a host agree on, given the last annotation so far that
tells one; empty if none does. -/
def modulePath (host : Path) : Option Annotation → List Annotation →
    Except Failure (List String)
  | last, [] => .ok ((last.map (·.decls.modulePath)).getD [])
  | last, a :: as =>
    if a.decls.modulePath = [] then modulePath host last as
    else
      match last with
      | none => modulePath host (some a) as
      | some b =>
        if a.decls.modulePath = b.decls.modulePath then modulePath host (some a) as
        else .error (.host host.text ⟨a.line, 1⟩ (.conflictingModules b.line))

end Sources

namespace Host

/-- The symbols that other code refers to: foreign ones, then the low-level wrappers. -/
def exported (h : Host) : List String :=
  h.symbols ++ (h.provided.filter (·.kind = .low)).map (·.name)

end Host

namespace Compilation
variable (c : Compilation)

/-- Generates the products of one host. -/
def generate (s : Sources) (path : Path) (stem : String) : Act Host := do
  let annotations := s.declaringIn path
  let blocks := annotations.map (·.decls)
  let modulePath ← Act.ofExcept (Sources.modulePath path none annotations)
  let host := ((Host.new path stem).setModule modulePath).declare blocks
  let (result, host) ← Act.emit host (Emit.blocks (Signature.bound path) blocks c.products)
  let products ← Act.ofExcept result
  products.forM fun p => p.write host c.outDir
  modify fun w => { w with provided := w.provided ++ host.provided }
  return host

/-- The generated source of a host. -/
def sourceOf (h : Host) : Path := c.outDir / Header.sourceName h

/-- The library of the sources, unless only the products of the hosts are wanted. -/
def build (s : Sources) (target : String) : Act Output :=
  if c.generatesOnly then return { outDir := c.outDir, target }
  else Build.build c.toolchain s c.triple c.outDir

/-- Runs the compilation. An unknown target fails before anything is written. -/
def compile : Act Output := do
  modify fun w => { w with provided := [] }
  let target ← Act.orBuild (Target.ofTriple c.triple)
  Act.createDirectories c.outDir
  let sources ← Sources.scan c.root c.outDir
  let stems ← Act.orBuild ((Host.stems sources.hosts c.root).mapError .outputConflict)
  let hosts ← stems.mapM fun (path, stem) => c.generate sources path stem
  let built ← c.build sources target
  let exported := hosts.flatMap (·.exported)
  let output := { built with exported, sources := hosts.map c.sourceOf }
  Linkage.emit output
  Act.info ("Generated " ++ toString (← get).provided.length ++ " bindings from " ++
    toString hosts.length ++ " host files")
  return output

/-- Runs the tests in the foreign code of the sources. -/
def runTests : Act Unit := do
  let sources ← Sources.scan c.root c.outDir
  Build.runTests c.toolchain sources c.triple c.outDir

end Compilation
end Bindery
