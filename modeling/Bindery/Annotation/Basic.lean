import Bindery.Decl.Basic
import Bindery.Path
import Bindery.Text.Basic

/-!
# Annotations

An annotation in a host holds a fragment of foreign code or names a foreign file, and may declare
what the code provides. A fragment is divided from its declarations by a line of three dashes.
-/
namespace Bindery
open Text

structure Annotation where
  host : Path
  line : Int
  code : String := ""
  file : Option Path := none
  decls : Declarations := {}
  deriving DecidableEq

/-- The macro that an annotation is written with. -/
inductive Macro
  | inline | included
  deriving DecidableEq

namespace Macro

def name : Macro → String
  | inline => "ZIGBIND"
  | included => "ZIGBIND_INCLUDE"

def ofName? (s : String) : Option Macro :=
  if s = name inline then some inline else if s = name included then some included else none

theorem ofName?_name (m : Macro) : ofName? m.name = some m := by
  cases m <;> decide

end Macro

def Annotation.kind (a : Annotation) : Macro := if a.file.isSome then .included else .inline

namespace Fragment

def isRule (line : List Char) : Bool := trim line = "---".toList

/-- Lines with line feeds between them. -/
def unlines : List (List Char) → List Char
  | [] => []
  | [line] => line
  | line :: lines => line ++ '\n' :: unlines lines

/-- The foreign code of a fragment, with the declarations below the rule and the number of lines
above them, if there is a rule. -/
def split (body : List Char) : List Char × Option (List Char × Nat) :=
  let lines := splitOn '\n' body
  let code := lines.takeWhile (!isRule ·)
  match lines.dropWhile (!isRule ·) with
  | [] => (body, none)
  | _ :: decls => (code.flatMap (· ++ ['\n']), some (unlines decls, code.length + 1))

end Fragment
end Bindery
