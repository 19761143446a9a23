import Bindery.Build

/-!
# Linkage

A host links the library by directives, one per line, or by lists that a link file sets. Within a
list, semicolons divide the items, and a backslash stands before a quote or a backslash.
-/
namespace Bindery.Linkage

/-- The lists of a link file. -/
structure Lists where
  directories : List String := []
  libraries : List String := []
  options : List String := []
  sources : List String := []
  deriving DecidableEq

/-- The symbols that a link for a browser has to export by name. -/
def exports (o : Output) : List String := if Target.isBrowser o.target then o.exported else []

def exportOption (symbol : String) : String := "-Wl,--export=" ++ symbol

def lists (o : Output) : Lists :=
  let sources := o.sources.map (·.generic)
  match o.artifact with
  | none => { sources }
  | some artifact =>
    { directories := [artifact.parent.text], libraries := [artifact.text],
      options := (exports o).map exportOption, sources }

def directives (o : Output) : List String :=
  match o.artifact with
  | none => []
  | some artifact =>
    ["zigbind:link-search=" ++ artifact.parent.text,
      "zigbind:link-lib=static=" ++ Build.libraryName] ++
      (exports o).map fun symbol => "zigbind:link-arg=" ++ exportOption symbol

/-- A list as one quoted argument. -/
def quoteList (items : List String) : String :=
  "\"" ++ Text.join ";" (items.map fun s => String.ofList (BuildScript.escape s.toList)) ++ "\""

def setting (name : String) (items : List String) : String :=
  "set(" ++ name ++ " " ++ quoteList items ++ ")\n"

def render (l : Lists) : String :=
  "# Generated by zbgen. Do not edit.\n" ++
    setting "ZIGBIND_LINK_DIRECTORIES" l.directories ++
    setting "ZIGBIND_LINK_LIBRARIES" l.libraries ++
    setting "ZIGBIND_LINK_OPTIONS" l.options ++
    setting "ZIGBIND_GENERATED_SOURCES" l.sources

def fileName : String := "zigbind_link.cmake"

/-- Gives the directives and writes the link file of an output. -/
def emit (o : Output) : Act Unit := do
  (directives o).forM Act.direct
  let file := o.outDir / fileName
  Act.write file (render (lists o)) (.cannotWrite file)
  Act.debug ("Wrote " ++ file.text)

end Bindery.Linkage
