import Bindery.Foreign
import Bindery.Host.Basic

/-!
# Script interfaces

The script interface of a host declares the exports of the compiled module with the script's types,
and a loader for the module. A record is passed through memory, so that a function returning one
takes the place of the result first.
-/
namespace Bindery

structure Interface where
  isWide : Bool
  exports : List ForeignFunction := []
  enums : List Enum := []

namespace Interface

/-- The type of an address. -/
def address (isWide : Bool) : String := if isWide then "bigint" else "number"

def slotType (isWide : Bool) (s : Slot) : String :=
  match s.shape with
  | .void => "void"
  | .pointer _ _ _ | .record _ => address isWide
  | .scalar (.int .i64) | .scalar (.int .u64) => "bigint"
  | .scalar (.int .isize) | .scalar (.int .usize) => address isWide
  | .scalar .bool => "boolean"
  | .scalar _ => "number"

/-- The parameters of an export, with the place of a returned record first. -/
def params (isWide : Bool) (f : ForeignFunction) : List (String × String) :=
  (if f.result.isRecord then [("result", address isWide)] else []) ++
    f.params.map fun p => (p.name, slotType isWide p.slot)

def resultType (isWide : Bool) (f : ForeignFunction) : String :=
  if f.result.isRecord then "void" else slotType isWide f.result

def renderExport (isWide : Bool) (f : ForeignFunction) : String :=
  "  " ++ f.symbol ++ "(" ++
    Text.join ", " ((params isWide f).map fun p => p.1 ++ ": " ++ p.2) ++ "): " ++
    resultType isWide f ++ ";\n"

def renderEnum (e : Enum) : String :=
  "export const enum " ++ e.name ++ " \x7b\n" ++
    String.join (e.items.map fun i => "  " ++ i.1 ++ " = " ++ toString i.2 ++ ",\n") ++
    "\x7d\n\n"

/-- Drops underscores and puts the character after each, and the first one, in upper case. -/
def capitalize : Bool → List Char → List Char
  | _, [] => []
  | first, c :: cs =>
    if c = '_' then capitalize true cs
    else (if first then c.toUpper else c) :: capitalize false cs

def name (h : Host) : String := String.ofList (capitalize true h.stem.toList) ++ "Exports"

def fileName (h : Host) : String := h.stem ++ ".zigbind.d.ts"

def loaderName (h : Host) : String := h.stem ++ ".zigbind.js"

def banner (h : Host) : String :=
  "// Generated by zbgen from " ++ h.path.filename ++ ". Do not edit.\n\n"

def render (x : Interface) (h : Host) : String :=
  banner h ++
    String.join (x.enums.map renderEnum) ++
    "export interface " ++ name h ++ " \x7b\n  readonly memory: WebAssembly.Memory;\n" ++
    String.join (x.exports.map (renderExport x.isWide)) ++
    "\x7d\n\nexport declare function load(\n" ++
    "  source: BufferSource | Response | Promise<Response>,\n" ++
    "  imports?: WebAssembly.Imports\n" ++
    "): Promise<" ++ name h ++ ">;\n"

def renderLoader (h : Host) : String :=
  banner h ++
    "export async function load(source, imports = \x7b\x7d) \x7b\n" ++
    "  const streaming = (typeof Response !== 'undefined' && source instanceof Response) ||\n" ++
    "    source instanceof Promise;\n" ++
    "  const \x7b instance \x7d = streaming\n" ++
    "    ? await WebAssembly.instantiateStreaming(source, imports)\n" ++
    "    : await WebAssembly.instantiate(source, imports);\n" ++
    "  return instance.exports;\n" ++
    "\x7d\n"

variable (reg : Registry)

def addEnum (x : Interface) (e : Enum) : Interface := { x with enums := x.enums ++ [e] }

/-- The exports of a function: itself, and its low-level wrapper if it has one. -/
def ofFunction (f : Signature) : Except LoweringFault (List ForeignFunction) := do
  let lps ← reg.lowerParams f.params
  let ret ← reg.lowerReturn f.ret
  let foreign := ForeignFunction.new f.name lps ret.slot
  if f.hasLow then
    let low ← (f.binding.bind (·.lowReturn)).mapM reg.lowerReturn
    .ok [foreign, .new f.lowName lps (low.getD ret).slot]
  else .ok [foreign]

def ofConstructor (c : Constructor) : Except LoweringFault ForeignFunction := do
  let lps ← reg.lowerParams c.params
  .ok (.new c.symbol lps .opaqueHandle)

def ofMethod (m : Method) : Except LoweringFault ForeignFunction := do
  let lps ← reg.lowerParams m.params
  let ret ← reg.lowerReturn m.ret
  .ok (ForeignFunction.new m.symbol lps ret.slot).onSelf

def ofHandle (d : Handle) : Except LoweringFault (List ForeignFunction) := do
  let constructors ← d.constructors.mapM (ofConstructor reg)
  let methods ← d.methods.mapM (ofMethod reg)
  .ok (constructors ++ [.destructor (d.destructor.getD "")] ++ methods)

def addExports (x : Interface) (fs : List ForeignFunction) : Interface :=
  { x with exports := x.exports ++ fs }

end Interface
end Bindery
