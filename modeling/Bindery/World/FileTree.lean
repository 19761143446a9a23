import Bindery.Path

/-!
# File trees

A file tree lists its files and directories by their places, a place being the names that lead to
it from the root. The root itself is always a directory.
-/
namespace Bindery

abbrev Place := List String

inductive Entry
  | file (content : String)
  | directory
  deriving DecidableEq

structure FileTree where
  entries : List (Place × Entry) := []
  deriving DecidableEq

namespace FileTree

/-- The length of the longest name. -/
def maxName : Nat := 255

def get? (t : FileTree) (p : Place) : Option Entry :=
  if p = [] then some .directory else t.entries.lookup p

def isDirectory (t : FileTree) (p : Place) : Bool := t.get? p = some .directory

def isFile (t : FileTree) (p : Place) : Bool :=
  match t.get? p with
  | some (.file _) => true
  | _ => false

/-- Replaces the entry at a place in a list of entries, or adds one. -/
def putEntry (p : Place) (e : Entry) : List (Place × Entry) → List (Place × Entry)
  | [] => [(p, e)]
  | (q, f) :: rest => if q = p then (p, e) :: rest else (q, f) :: putEntry p e rest

def put (t : FileTree) (p : Place) (e : Entry) : FileTree := ⟨putEntry p e t.entries⟩

/-- Removes a place with all that lies below it. -/
def erase (t : FileTree) (p : Place) : FileTree :=
  ⟨t.entries.filter fun e => !p.isPrefixOf e.1⟩

/-- What lies directly in a directory. -/
def children (t : FileTree) (p : Place) : List (String × Entry) :=
  t.entries.filterMap fun (q, e) =>
    match q.getLast? with
    | some name => if q.dropLast = p then some (name, e) else none
    | none => none

/-- The files below a directory, by the names that lead to them from there. -/
def filesBelow (t : FileTree) (p : Place) : List (List String) :=
  t.entries.filterMap fun (q, e) =>
    match e with
    | .file _ => if p.isPrefixOf q then some (q.drop p.length) else none
    | .directory => none

/-- Creates the missing directories along some names, unless a file is in the way or a name is too
long. What is created before that stays. -/
def makeDirectories (t : FileTree) (cur : Place) : List String → FileTree × Bool
  | [] => (t, true)
  | name :: names =>
    if name = "." then makeDirectories t cur names
    else if name = ".." then makeDirectories t cur.dropLast names
    else
      let next := cur ++ [name]
      match t.get? next with
      | some .directory => makeDirectories t next names
      | some (.file _) => (t, false)
      | none =>
        if name.length > maxName then (t, false)
        else makeDirectories (t.put next .directory) next names

section
variable {t : FileTree} {p q : Place} {e : Entry}

theorem lookup_putEntry_self {l : List (Place × Entry)} : (putEntry p e l).lookup p = some e := by
  induction l with
  | nil => simp [putEntry]
  | cons x l ih =>
    obtain ⟨r, f⟩ := x
    by_cases h : r = p
    · simp [putEntry, h]
    · have h' : (p == r) = false := by simpa using Ne.symm h
      simp [putEntry, h, List.lookup_cons, h', ih]

theorem lookup_putEntry_of_ne {l : List (Place × Entry)} (hne : q ≠ p) :
    (putEntry p e l).lookup q = l.lookup q := by
  have hqp : (q == p) = false := by simpa using hne
  induction l with
  | nil => simp [putEntry, List.lookup_cons, hqp]
  | cons x l ih =>
    obtain ⟨r, f⟩ := x
    by_cases h : r = p
    · subst h
      simp [putEntry, List.lookup_cons, hqp]
    · simp only [putEntry, if_neg h, List.lookup_cons, ih]

theorem get?_put_self (hp : p ≠ []) : (t.put p e).get? p = some e := by
  simp [get?, put, hp, lookup_putEntry_self]

theorem get?_put_of_ne (hne : q ≠ p) : (t.put p e).get? q = t.get? q := by
  simp only [get?, put, lookup_putEntry_of_ne hne]

end

end FileTree
end Bindery
