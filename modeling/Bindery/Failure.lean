import Bindery.Host.Stem
import Bindery.Instance
import Bindery.Lowering.Fault
import Bindery.Target

/-!
# Failures

What can stop a step: a fault in a declaration or in its host, types that cannot be lowered, an
instance that cannot be made, a build that fails, or a file that cannot be used.
-/
namespace Bindery

/-- Faults of an annotation outside of its declarations. -/
inductive HostCause
  | malformedText (macroName : String)
  | expectedText
  | unclosed (macroName : String)
  | unresolvedInclude (path : String)
  | conflictingModules (line : Int)
  deriving DecidableEq

def HostCause.message : HostCause → String
  | malformedText macroName => "Malformed raw string literal in " ++ macroName
  | expectedText => "ZIGBIND_INCLUDE expects a raw string of declarations"
  | unclosed macroName => "Expected ')' to close " ++ macroName
  | unresolvedInclude path => "Cannot resolve include \"" ++ path ++ "\""
  | conflictingModules line =>
    "Conflicting module declarations in one host file, the first is on line " ++ toString line

inductive BuildFault
  | unknownTarget (triple : String)
  | outputConflict (conflict : StemConflict)
  | compilerFailed (compiler : String) (code : Int) (diagnostic : String)
  | noArtifact (compiler : String) (artifact : Path) (diagnostic : String)
  | testsFailed (code : Int) (diagnostic : String)
  deriving DecidableEq

namespace BuildFault

def message : BuildFault → String
  | unknownTarget triple =>
    "Unknown target triple \"" ++ triple ++ "\", known triples:" ++
      String.join (Target.known.map ("\n  " ++ ·))
  | outputConflict c =>
    "Host files " ++ c.first.text ++ " and " ++ c.second.text ++ " both generate " ++ c.stem ++
      ".zigbind.hpp; rename one of them"
  | compilerFailed compiler code _ => compiler ++ " exited with code " ++ toString code
  | noArtifact compiler artifact _ =>
    compiler ++ " reported success but " ++ artifact.text ++ " was not produced"
  | testsFailed code _ => "foreign tests failed with code " ++ toString code

/-- What the compiler said, word for word. -/
def diagnostic : BuildFault → String
  | unknownTarget _ | outputConflict _ => ""
  | compilerFailed _ _ d | noArtifact _ _ d | testsFailed _ d => d

end BuildFault

inductive FileFault
  | cannotOpen (path : Path)
  | cannotHash (path : Path)
  | cannotGenerate (path : Path)
  | cannotWrite (path : Path)
  | notADirectory (root : Path)
  deriving DecidableEq

def FileFault.message : FileFault → String
  | cannotOpen path => "Cannot open " ++ path.text
  | cannotHash path => "Cannot open " ++ path.text ++ " for hashing"
  | cannotGenerate path => "Cannot open " ++ path.text ++ " for writing"
  | cannotWrite path => "Cannot write " ++ path.text
  | notADirectory root => "Source root " ++ root.text ++ " is not a directory"

inductive Failure
  | declaration (e : SyntaxError)
  | host (file : String) (pos : Position) (cause : HostCause)
  | lowering (fault : LoweringFault)
  | instances (fault : InstanceFault)
  | build (fault : BuildFault)
  | file (fault : FileFault)
  | fileSystem
  | noSourceRoot
  deriving DecidableEq

def Failure.message : Failure → String
  | declaration e => e.message
  | host _ _ cause => cause.message
  | lowering fault => fault.message
  | instances fault => fault.message
  | build fault => fault.message
  | file fault => fault.message
  | fileSystem => ""
  | noSourceRoot => "Source root is not set"

/-- The foreign name of a target triple. -/
def Target.ofTriple (triple : String) : Except BuildFault String :=
  match ofTriple? triple with
  | some target => .ok target
  | none => .error (.unknownTarget triple)

end Bindery
