import Bindery.Text.Basic

/-!
# Paths

A path is a text that slashes divide into names. It keeps its spelling, but two paths with the
same components name the same thing: repeated slashes count once, and a slash at the end adds an
empty component. Nothing here looks at files.
-/
namespace Bindery

structure Path where
  text : String
  deriving DecidableEq

namespace Path
open Text

def empty : Path := ⟨""⟩

def isEmpty (p : Path) : Bool := p.text.isEmpty

def isAbsolute (p : Path) : Bool := p.text.toList.head? = some '/'

/-- The names between the slashes. -/
def names (p : Path) : List String :=
  ((splitOn '/' p.text.toList).filter (· ≠ [])).map String.ofList

/-- Whether a slash follows the last name. -/
def hasSlashAtEnd (p : Path) : Bool := p.names ≠ [] && p.text.toList.getLast? = some '/'

/-- The components: the root, the names, and an empty one for a slash at the end. -/
def components (p : Path) : List String :=
  (if p.isAbsolute then ["/"] else []) ++ p.names ++ (if p.hasSlashAtEnd then [""] else [])

/-- The path made of the given parts. -/
def ofParts (isAbsolute : Bool) (names : List String) (slashAtEnd : Bool) : Path :=
  ⟨(if isAbsolute then "/" else "") ++ join "/" names ++
    (if slashAtEnd ∧ names ≠ [] then "/" else "")⟩

/-- The spelling with single slashes. -/
def generic (p : Path) : String := (ofParts p.isAbsolute p.names p.hasSlashAtEnd).text

/-- The order of paths: relative ones first, then component by component. -/
def lt (p q : Path) : Bool :=
  if p.isAbsolute = q.isAbsolute then decide (p.components < q.components) else q.isAbsolute

/-- Whether two paths have the same components. -/
def same (p q : Path) : Bool := p.components = q.components

/-- Paths in their order. -/
def sort (ps : List Path) : List Path := ps.mergeSort fun p q => !q.lt p

/-- Each path once, where it first occurs. -/
def distinct (ps : List Path) : List Path := ps.eraseDupsBy same

/-- The last component, empty for the root. -/
def filename (p : Path) : String :=
  if p.hasSlashAtEnd then "" else p.names.getLast?.getD ""

/-- The spelling up to the last component. -/
def parent (p : Path) : Path :=
  if p.names = [] then p
  else
    let beforeLast := (p.text.toList.reverse.dropWhile (· ≠ '/')).dropWhile (· = '/')
    if beforeLast = [] ∧ p.isAbsolute then ⟨"/"⟩ else ⟨String.ofList beforeLast.reverse⟩

/-- The stem and the extension of a name. The extension begins at the last dot; a dot at the front
begins none. -/
def splitExtension (name : String) : String × String :=
  let cs := name.toList
  let tail := cs.reverse.takeWhile (· ≠ '.')
  let stem := cs.take (cs.length - tail.length - 1)
  if name = ".." ∨ stem = [] ∨ tail.length = cs.length then (name, "")
  else (String.ofList stem, String.ofList ('.' :: tail.reverse))

def stem (p : Path) : String := (splitExtension p.filename).1

def extension (p : Path) : String := (splitExtension p.filename).2

def withoutExtension (p : Path) : Path :=
  ⟨String.ofList (p.text.toList.take (p.text.length - p.extension.length))⟩

/-- A path below another one, unless it is absolute. -/
def append (p q : Path) : Path :=
  if q.isAbsolute ∨ p.isEmpty then q
  else if p.filename = "" then ⟨p.text ++ q.text⟩
  else ⟨p.text ++ "/" ++ q.text⟩

instance : HDiv Path String Path := ⟨fun p s => p.append ⟨s⟩⟩

theorem div_eq_append (p : Path) (s : String) : p / s = p.append ⟨s⟩ := rfl

/-- The parts of a normal path under construction. -/
structure Normal where
  names : List String := []
  slashAtEnd : Bool := false

/-- Adds a component: a dot stands for its directory, two dots remove the name before them. -/
def Normal.push (isAbsolute : Bool) (n : Normal) (c : String) : Normal :=
  if c = "." ∨ c = "" then ⟨n.names, n.names ≠ []⟩
  else if c = ".." then
    match n.names.getLast? with
    | none => if isAbsolute then n else ⟨[c], false⟩
    | some last =>
      if last = ".." then ⟨n.names ++ [c], false⟩
      else ⟨n.names.dropLast, n.names.dropLast ≠ []⟩
  else ⟨n.names ++ [c], false⟩

/-- The path without dots, and without two dots after a name. -/
def normal (p : Path) : Path :=
  if p.isEmpty then p
  else
    let n := (p.names ++ (if p.hasSlashAtEnd then [""] else [])).foldl
      (Normal.push p.isAbsolute) {}
    let slashAtEnd := n.slashAtEnd && n.names.getLast? ≠ some ".."
    let q := ofParts p.isAbsolute n.names slashAtEnd
    if q.isEmpty then ⟨"."⟩ else q

/-- Drops the components that two lists have in common at the front. -/
def dropCommon : List String → List String → List String × List String
  | a :: as, b :: bs => if a = b then dropCommon as bs else (a :: as, b :: bs)
  | as, bs => (as, bs)

/-- How many directories a list of components leads down; negative if up. -/
def descent (cs : List String) : Int :=
  cs.foldl (fun n c => if c = ".." then n - 1 else if c = "" ∨ c = "." then n else n + 1) 0

/-- The path that leads from a base to `p`, empty if there is none. -/
def relativeTo (p base : Path) : Path :=
  if p.isAbsolute ≠ base.isAbsolute then empty
  else
    match dropCommon p.components base.components with
    | ([], []) => ⟨"."⟩
    | (rest, up) =>
      let n := descent up
      if n = 0 ∧ (rest = [] ∨ rest.head? = some "") then ⟨"."⟩
      else if n < 0 then empty
      else (List.replicate n.toNat ".." ++ rest).foldl (· / ·) empty

end Path
end Bindery
