import Bindery.Header.Handle
import Bindery.Header.Wrapper
import Bindery.Host.Basic

/-!
# Headers

The header generated for a host holds its types, the declarations of the foreign functions and the
wrappers; the definitions of the low-level wrappers go into a source file beside it.
-/
namespace Bindery

structure HeaderField where
  decl : Param
  spelling : String
  deriving DecidableEq

inductive HeaderType
  | struct (name : String) (fields : List HeaderField)
  | enum (e : Enum)
  deriving DecidableEq

inductive Wrapper
  | high (w : HighWrapper)
  | async (w : AsyncWrapper)
  | low (w : LowWrapper)
  | handle (c : HandleClass)
  deriving DecidableEq

structure Header where
  types : List HeaderType := []
  imports : List ForeignFunction := []
  wrappers : List Wrapper := []
  deriving DecidableEq

namespace HeaderType

def render : HeaderType → String
  | struct name fields =>
    "struct " ++ name ++ "\n\x7b\n" ++
      String.join (fields.map fun f => "  " ++ f.spelling ++ " " ++ f.decl.name ++ ";\n") ++
      "\x7d;\nstatic_assert(std::is_standard_layout_v<" ++ name ++ ">);\n\n"
  | enum e =>
    "enum class " ++ e.name ++ " : " ++ Spelling.scalar (.int e.kind) ++ "\n\x7b\n" ++
      String.join (e.items.map fun i => "  " ++ i.1 ++ " = " ++ toString i.2 ++ ",\n") ++
      "\x7d;\n\n"

end HeaderType

namespace ForeignFunction

def paramList (f : ForeignFunction) : String :=
  Text.join ", " (f.params.map fun p => Spelling.slot p.slot ++ " " ++ p.name)

def render (f : ForeignFunction) : String :=
  Spelling.slot f.result ++ " " ++ f.symbol ++ "(" ++ f.paramList ++ ");\n"

end ForeignFunction

namespace LowWrapper

def declaration (w : LowWrapper) : String :=
  "extern \"C\" ZIGBIND_EXPORT_ATTR " ++ w.result ++ " " ++ w.foreign.symbol ++ "(" ++
    w.foreign.paramList ++ ")"

def expr (w : LowWrapper) : String :=
  "ffi::" ++ w.symbol ++ "(" ++ Text.join ", " (w.foreign.params.map (·.name)) ++ ")"

def body (w : LowWrapper) : String :=
  match w.conversion with
  | .transform t =>
    "  auto zb_raw = " ++ w.expr ++ ";\n  return static_cast<" ++ w.result ++ ">([](auto " ++
      t.param ++ ") \x7b return (" ++ t.expr ++ "); \x7d(zb_raw));\n"
  | .cast => "  return " ++ Call.cast w.result w.expr ++ ";\n"
  | .plain => (if w.foreign.result.isVoid then "  " else "  return ") ++ w.expr ++ ";\n"

def definition (w : LowWrapper) : String :=
  w.declaration ++ "\n\x7b\n" ++ w.body ++ "\x7d\n\n"

end LowWrapper

namespace Wrapper

def render : Wrapper → String
  | high w =>
    "inline " ++ w.result ++ " " ++ w.name ++ "(" ++ w.params ++ ")\n\x7b\n" ++
      w.body.render "  " ++ "\x7d\n\n"
  | async w =>
    "namespace detail \x7b\n" ++
      "inline " ++ w.result ++ " " ++ w.symbol ++ "_blocking(" ++ w.params ++ ")\n\x7b\n" ++
      w.body.render "  " ++ "\x7d\n\x7d // namespace detail\n\n" ++
      "inline std::future<" ++ w.result ++ "> " ++ w.name ++ "(" ++ w.params ++ ")\n\x7b\n" ++
      "  return ::zigbind::WorkerPool::shared().submit(\n" ++
      "    [" ++ Text.join ", " (w.captures.map (·.initializer)) ++ "]() \x7b\n" ++
      "      return detail::" ++ w.symbol ++ "_blocking(" ++
      Text.join ", " (w.captures.map (·.view)) ++ ");\n" ++
      "    \x7d);\n\x7d\n\n"
  | low w => w.declaration ++ ";\n\n"
  | handle c => c.render

def isAsync : Wrapper → Bool
  | async _ => true
  | _ => false

/-- What a wrapper adds to the source file. -/
def definition : Wrapper → String
  | low w => w.definition
  | _ => ""

end Wrapper

namespace Header

/-- The line that opens every generated file. -/
def banner (h : Host) : String :=
  "// Generated by zbgen from " ++ h.path.filename ++ ". Do not edit.\n"

def fileName (h : Host) : String := h.stem ++ ".zigbind.hpp"

def sourceName (h : Host) : String := h.stem ++ ".zigbind.cpp"

def render (x : Header) (h : Host) : String :=
  banner h ++
    "#pragma once\n\n#include <array>\n#include <cstddef>\n#include <cstdint>\n" ++
    (if x.wrappers.any (·.isAsync) then "#include <future>\n" else "") ++
    "#include <optional>\n#include <span>\n#include <string>\n#include <string_view>\n" ++
    "#include <type_traits>\n#include <vector>\n\n#include <zigbind/zigbind.hpp>\n\n" ++
    "namespace " ++ h.namespaceName ++ " \x7b\n\n" ++
    String.join (x.types.map (·.render)) ++
    "namespace ffi \x7b\nextern \"C\" \x7b\n" ++
    String.join (x.imports.map (·.render)) ++
    "\x7d // extern \"C\"\n\x7d // namespace ffi\n\n" ++
    String.join (x.wrappers.map (·.render)) ++
    "\x7d // namespace " ++ h.namespaceName ++ "\n"

/-- The source file, which includes the host if it is a header found at the given place. -/
def renderSource (x : Header) (h : Host) (hostPath : Path) : String :=
  banner h ++
    (if h.isHeader then "#include \"" ++ hostPath.generic ++ "\"\n" else "") ++
    "#include \"" ++ fileName h ++ "\"\n\nnamespace " ++ h.namespaceName ++ " \x7b\n\n" ++
    String.join (x.wrappers.map (·.definition)) ++
    "\x7d // namespace " ++ h.namespaceName ++ "\n"

end Header
end Bindery
