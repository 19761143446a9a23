import Bindery.Failure
import Bindery.Host.Basic
import Bindery.Log
import Bindery.World.FileTree

/-!
# The world of a build

A build sees a file tree from a current directory, writes a log and link directives, reads a clock,
runs a compiler and lists what it provides. An action changes the world and may fail; what it did
before it failed stays done.
-/
namespace Bindery

structure CompilerCall where
  args : List String
  dir : Path
  deriving DecidableEq

structure World where
  cwd : Place := []
  tree : FileTree := {}
  logger : Logger := {}
  log : String := ""
  directives : String := ""
  calls : List CompilerCall := []
  /-- What the current compilation has provided so far. -/
  provided : List Provided := []
  clock : Int := 0

abbrev Act := ExceptT Failure (StateM World)

/-- Why a path leads nowhere. -/
inductive Obstacle
  | missing | tooLong
  deriving DecidableEq

/-- A path as the file system takes it, up to its first null character. -/
def Path.terminated (p : Path) : Path := ⟨String.ofList (Text.terminated p.text.toList)⟩

/-- The length of the longest path that the file system takes. -/
def Path.maxLength : Nat := 4095

def Path.isTooLong (p : Path) : Bool := p.text.length > maxLength

namespace World
variable (w : World)

/-- Follows names from a directory; all but the last have to lead to directories. -/
def follow (t : FileTree) (cur : Place) : List String → Except Obstacle Place
  | [] => .ok cur
  | name :: names =>
    if !t.isDirectory cur then .error .missing
    else if name = "." ∨ name = "" then follow t cur names
    else if name = ".." then follow t cur.dropLast names
    else if name.length > FileTree.maxName then .error .tooLong
    else follow t (cur ++ [name]) names

/-- Where a path begins. -/
def start (p : Path) : Place := if p.isAbsolute then [] else w.cwd

/-- The place that a path leads to, whether or not there is anything, or what is in the way. -/
def lookup (p : Path) : Except Obstacle Place :=
  let p := p.terminated
  if p.isEmpty then .error .missing
  else if p.isTooLong then .error .tooLong
  else follow w.tree (w.start p) (p.names ++ if p.hasSlashAtEnd then [""] else [])

def locate (p : Path) : Option Place := (w.lookup p).toOption

/-- Whether a path cannot even be looked up. -/
def isTooLong (p : Path) : Bool :=
  match w.lookup p with
  | .error .tooLong => true
  | _ => false

def get? (p : Path) : Option Entry := (w.locate p).bind w.tree.get?

def exists? (p : Path) : Bool := (w.get? p).isSome

def isDirectory (p : Path) : Bool := w.get? p = some .directory

def isFile (p : Path) : Bool :=
  match w.get? p with
  | some (.file _) => true
  | _ => false

/-- The absolute path of a place. -/
def pathOf (p : Place) : Path := .ofParts true p false

/-- A path from the root that keeps the spelling of the given one. -/
def absolute (p : Path) : Path := (pathOf w.cwd).append p

/-- The longest initial part of a path that exists, after a part that does, and the rest. -/
def existingPart (found : Path) : List String → Path × List String
  | [] => (found, [])
  | c :: cs =>
    if w.exists? (found / c) then existingPart (found / c) cs else (found, c :: cs)

/-- The path of the part that exists, followed by the rest, without dots. -/
def partlyCanonical (p : Path) : Path :=
  let (found, rest) := w.existingPart .empty p.components
  let head := ((w.locate found).map pathOf).getD .empty
  (rest.foldl (· / ·) head).normal

/-- The absolute path of what exists, and of the part that exists of anything else. -/
def canonical (p : Path) : Path :=
  match w.locate p with
  | some place => if (w.tree.get? place).isSome then pathOf place else w.partlyCanonical p
  | none => w.partlyCanonical p

/-- The text of a file. A directory can be opened too, and holds no text. -/
def read? (p : Path) : Option String :=
  match w.get? p with
  | some (.file content) => some content
  | some .directory => some ""
  | none => none

/-- The text of a file that is to be hashed; a directory has no size. -/
def hashed (p : Path) : Except Failure String :=
  match w.get? p with
  | some (.file content) => .ok content
  | some .directory => .error .fileSystem
  | none => .error (.file (.cannotHash p))

/-- What lies directly in a directory, by path. -/
def list? (p : Path) : Option (List (Path × Entry)) :=
  match w.locate p with
  | some place =>
    if w.tree.isDirectory place then
      some ((w.tree.children place).map fun (name, e) => (p / name, e))
    else none
  | none => none

/-- The files below a directory, by the names that lead to them. -/
def filesBelow (p : Path) : List (List String) :=
  match w.locate p with
  | some place => if w.tree.isDirectory place then w.tree.filesBelow place else []
  | none => []

end World

/-- A path below another one, by the names in between. -/
def Path.below (p : Path) (names : List String) : Path :=
  names.foldl (· / ·) p

namespace Act

def note (n : Note) : Act Unit :=
  modify fun w => { w with log := w.log ++ w.logger.record n }

def debug (text : String) : Act Unit := note ⟨.debug, text⟩

def info (text : String) : Act Unit := note ⟨.info, text⟩

def warn (text : String) : Act Unit := note ⟨.warn, text⟩

def fail {α : Type} (fault : FileFault) : Act α := throw (.file fault)

/-- Reads a file, or fails with the given fault. -/
def read (p : Path) (fault : FileFault) : Act String := do
  match (← get).read? p with
  | some content => return content
  | none => fail fault

/-- Writes a file into an existing directory, or fails. -/
def put (p : Path) (content : String) (failure : Failure) : Act Unit := do
  let w ← get
  match w.locate p with
  | none => throw failure
  | some place =>
    if w.tree.isDirectory place ∨ !w.tree.isDirectory place.dropLast then throw failure
    else set { w with tree := w.tree.put place (.file content) }

def write (p : Path) (content : String) (fault : FileFault) : Act Unit :=
  put p content (.file fault)

def copy (p q : Path) : Act Unit := do
  match (← get).read? p with
  | some content => put q content .fileSystem
  | none => throw .fileSystem

def createDirectories (p : Path) : Act Unit := do
  let p := p.terminated
  if p.isEmpty ∨ p.isTooLong then throw .fileSystem
  let w ← get
  let (tree, done) := w.tree.makeDirectories (w.start p) p.names
  set { w with tree }
  if !done then throw .fileSystem

/-- Removes whatever a path leads to, with all below it. What is missing need not be removed, but
a path that is too long cannot be. -/
def removeAll (p : Path) : Act Unit := do
  let w ← get
  match w.lookup p with
  | .ok place => set { w with tree := w.tree.erase place }
  | .error .tooLong => throw .fileSystem
  | .error .missing => return ()

/-- What lies directly in a directory. -/
def list (p : Path) : Act (List (Path × Entry)) := do
  match (← get).list? p with
  | some entries => return entries
  | none => throw .fileSystem

def direct (line : String) : Act Unit :=
  modify fun w => { w with directives := w.directives ++ line ++ "\n" }

def ofExcept {α : Type} : Except Failure α → Act α
  | .ok a => return a
  | .error failure => throw failure

def orBuild {α : Type} (result : Except BuildFault α) : Act α := ofExcept (result.mapError .build)

end Act
end Bindery
