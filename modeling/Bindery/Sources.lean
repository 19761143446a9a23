import Bindery.Annotation.Scan
import Bindery.Host.Basic
import Bindery.World.Basic

/-!
# Sources

The sources below a root are the annotations of its hosts and the auxiliary sources to compile
along with them. Hidden directories and the output directory are left out. Everything is taken in
the order of paths, whatever order the files are found in.
-/
namespace Bindery

structure Sources where
  annotations : List Annotation := []
  auxiliary : List Path := []
  deriving DecidableEq

namespace World

/-- The file that an annotation of a host includes: next to the host, or else below the root. -/
def included? (w : World) (root host : Path) (path : String) : Option Path :=
  ([host.parent, root].map (· / path)).find? w.isFile |>.map w.canonical

/-- What the annotations of a host are scanned with. -/
def source (w : World) (root host : Path) : Annotation.Source := ⟨host, w.included? root host⟩

end World

namespace Sources

def isEmpty (s : Sources) : Bool := s.annotations.isEmpty && s.auxiliary.isEmpty

def isHidden (name : String) : Bool := name.toList.head? = some '.'

/-- Whether the walk below a directory comes to a file by way of the directories before it. -/
def reaches (w : World) (out dir : Path) : List String → Bool
  | name :: next :: names =>
    let sub := dir / name
    !isHidden name && !(w.canonical sub).same out && reaches w out sub (next :: names)
  | _ => true

/-- The files below a root in their order, without those of the output directory. -/
def files (w : World) (root out : Path) : List Path :=
  Path.sort (((w.filesBelow root).filter (reaches w (w.canonical out) root)).map root.below)

def isAuxiliary (file : Path) : Bool := file.extension = ".c"

/-- The annotations of a text, each noted in the log. -/
def ofText (root host : Path) (text : String) : Act (List Annotation) := do
  let (found, failed) := Annotation.scan ((← get).source root host) ⟨.start, text.toList⟩
  found.forM fun a =>
    Act.debug ("Found " ++ a.kind.name ++ " at " ++ host.text ++ ":" ++ toString a.line)
  match failed with
  | some failure => throw failure
  | none => return found

def ofHost (root host : Path) : Act (List Annotation) := do
  ofText root host (← Act.read host (.cannotOpen host))

/-- The sources below a root. -/
def scan (root out : Path) : Act Sources := do
  let w ← get
  if w.isTooLong root then throw .fileSystem
  if !w.isDirectory root then Act.fail (.notADirectory root)
  let files := files w root out
  let auxiliary := (files.filter isAuxiliary).map w.canonical
  let annotations ← (files.filter Host.isSource).mapM (ofHost root)
  let found : Sources := ⟨annotations.flatten, auxiliary⟩
  Act.info ("Scanned " ++ toString files.length ++ " files under " ++ root.text ++ ": " ++
    toString found.annotations.length ++ " annotations, " ++ toString auxiliary.length ++
    " C sources")
  return found

end Sources
end Bindery
