import Bindery.Failure
import Bindery.Header.Basic
import Bindery.Interface
import Bindery.Log

/-!
# Emission

Declarations are emitted one by one to the products of a host, its header and its script interface.
What a step makes known of the host (provided names and foreign symbols) and what it notes in the
log stays known when a later step, or the rest of the step itself, fails.
-/
namespace Bindery

structure Emission where
  host : Host
  notes : List Note := []

abbrev Emit := ExceptT Failure (StateM Emission)

namespace Emit

/-- Takes over the result of lowering. -/
def lower {α : Type} : Except LoweringFault α → Emit α
  | .ok a => return a
  | .error fault => throw (.lowering fault)

def note (level : Level) (text : String) : Emit Unit :=
  modify fun e => { e with notes := e.notes ++ [⟨level, text⟩] }

def provide (name : String) (kind : ProvidedKind) (type : String) : Emit Unit :=
  modify fun e => { e with host := e.host.provide ⟨name, kind, type⟩ }

def addSymbol (symbol : String) : Emit Unit :=
  modify fun e => { e with host := e.host.addSymbol symbol }

def registry : Emit Registry := do
  return (← get).host.types

/-- Declares a foreign function in a header. -/
def declare (x : Header) (f : ForeignFunction) : Emit Header := do
  addSymbol f.symbol
  return { x with imports := x.imports ++ [f] }

end Emit

namespace Header
open Emit

def addWrapper (x : Header) (w : Wrapper) : Header := { x with wrappers := x.wrappers ++ [w] }

def addEnum (x : Header) (e : Enum) : Header := { x with types := x.types ++ [.enum e] }

/-- A field, whose type is a value once arrays are set aside, and can cross the boundary if the
record declares its layout. -/
def field (reg : Registry) (r : Record) (f : Param) : Except LoweringFault HeaderField :=
  let base := f.type.base
  let checked : Except LoweringFault Unit :=
    if r.hasLayout then
      match reg.lowerValue base with
      | .ok _ => .ok ()
      | .error fault => .error (.inField f.name r.name fault)
    else .ok ()
  match checked, base with
  | .error fault, _ => .error fault
  | .ok _, .scalar _ | .ok _, .record _ => do
    let spelling ← Spelling.value f.type
    .ok ⟨f, spelling⟩
  | .ok _, _ => .error (.fieldWithoutLayout f.name r.name f.type)

def fieldsOf (reg : Registry) (r : Record) : Except LoweringFault (List HeaderField) :=
  r.fields.mapM (field reg r)

/-- A record that is only declared must be visible in the host; any other becomes a struct. -/
def addRecord (x : Header) (r : Record) : Emit Header := do
  let h := (← get).host
  if !r.isDefined then
    if h.isHeader then return x else throw (.lowering (.recordOutOfReach r.name h.path.text))
  else if Name.isQualified r.name.toList then throw (.lowering (.qualifiedRecord r.name))
  else
    let fields ← lower (fieldsOf h.types r)
    return { x with types := x.types ++ [.struct r.name fields] }

/-- Notes what a binding asks for to no effect, or perhaps against expectation. -/
def noteBinding (f : Signature) : Emit Unit :=
  match f.binding with
  | none => pure ()
  | some b =>
    if f.hasLow then
      if f.isAsync then note .debug ("low-level wrapper of async '" ++ f.name ++ "' is synchronous")
      else pure ()
    else if b.lowReturn.isSome ∨ b.transform.isSome then
      note .warn ("'" ++ f.name ++ "': c_ret and map_fn only apply to the low-level wrapper, " ++
        "ignored for strategy high_only")
    else pure ()

def addHigh (x : Header) (f : Signature) (lps : List LoweredParam) (ret : Lowered) :
    Emit Header := do
  let reg ← registry
  if f.isAsync then
    let w ← lower (AsyncWrapper.new reg f lps ret)
    provide w.name .async ("std::future<" ++ w.result ++ ">")
    return x.addWrapper (.async w)
  else
    let w ← lower (HighWrapper.new reg f lps ret)
    provide w.name .high w.result
    return x.addWrapper (.high w)

def addLow (x : Header) (f : Signature) (lps : List LoweredParam) (ret : Lowered) :
    Emit Header := do
  let reg ← registry
  let w ← lower (LowWrapper.new reg f lps ret (f.binding.getD {}))
  provide w.foreign.symbol .low w.result
  return x.addWrapper (.low w)

/-- A function that is not generic: its foreign declaration and the wrappers of its strategy. -/
def addFunction (x : Header) (f : Signature) : Emit Header := do
  if f.isGeneric then throw (.lowering (.genericFunction f.name))
  lower f.checkBinding
  noteBinding f
  let reg ← registry
  let lps ← lower (reg.lowerParamsOf f.name f.params)
  let ret ← lower (reg.lowerReturnOf f.name f.ret)
  let x ← declare x (.new f.name lps ret.slot)
  provide f.name .foreign (Spelling.slot ret.slot)
  let x ← if f.hasHigh then x.addHigh f lps ret else pure x
  if f.hasLow then x.addLow f lps ret else pure x

def declareConstructors (owner : String) :
    Header → List Constructor → Emit (Header × List (Constructor × List LoweredParam))
  | x, [] => return (x, [])
  | x, c :: cs => do
    let lps ← lower ((← registry).lowerParamsOf (owner ++ "::" ++ c.name) c.params)
    let x ← declare x (.new c.symbol lps .opaqueHandle)
    let (x, rest) ← declareConstructors owner x cs
    return (x, (c, lps) :: rest)

def declareMethods (owner : String) :
    Header → List Method → Emit (Header × List (Method × List LoweredParam × Lowered))
  | x, [] => return (x, [])
  | x, m :: ms => do
    let reg ← registry
    let lps ← lower (reg.lowerParamsOf (owner ++ "::" ++ m.name) m.params)
    let ret ← lower (reg.lowerReturnOf (owner ++ "::" ++ m.name) m.ret)
    let x ← declare x (ForeignFunction.new m.symbol lps ret.slot).onSelf
    let (x, rest) ← declareMethods owner x ms
    return (x, (m, lps, ret) :: rest)

/-- A handle: all its foreign declarations, then its class. -/
def addHandle (x : Header) (d : Handle) : Emit Header := do
  let destructor := d.destructor.getD ""
  let (x, constructors) ← declareConstructors d.name x d.constructors
  let x ← declare x (.destructor destructor)
  let (x, methods) ← declareMethods d.name x d.methods
  let reg ← registry
  let constructors ← constructors.mapM fun (c, lps) => do
    let made ← lower (HandleConstructor.new reg c lps)
    provide (d.name ++ "::" ++ c.name) .handle d.name
    return made
  let methods ← methods.mapM fun (m, lps, ret) => do
    let made ← lower (HandleMethod.new reg m lps ret)
    provide (d.name ++ "::" ++ m.name) .handle made.result
    return made
  return x.addWrapper (.handle ⟨d.name, destructor, constructors, methods⟩)

end Header

/-- One kind of generated code. -/
inductive Product
  | header (x : Header)
  | script (x : Interface)

namespace Product
open Emit

def beginModule : Product → Emit Product
  | header x => do
    let h := (← get).host
    note .debug ("cpp: module " ++ h.namespaceName ++ " for " ++ h.path.text)
    return header x
  | script x => return script x

def addEnum (e : Enum) : Product → Emit Product
  | header x => return header (x.addEnum e)
  | script x => return script (x.addEnum e)

def addRecord (r : Record) : Product → Emit Product
  | header x => header <$> x.addRecord r
  | script x => return script x

def addFunction (f : Signature) : Product → Emit Product
  | header x => header <$> x.addFunction f
  | script x => do
    let exports ← lower (Interface.ofFunction (← registry) f)
    return script (x.addExports exports)

def addHandle (d : Handle) : Product → Emit Product
  | header x => header <$> x.addHandle d
  | script x => do
    let exports ← lower (Interface.ofHandle (← registry) d)
    return script (x.addExports exports)

/-- The files of a product, the one that the log reports first. The host is included by the given
path. -/
def files (h : Host) (hostPath : Path) : Product → List (String × String)
  | header x => [(Header.fileName h, x.render h), (Header.sourceName h, x.renderSource h hostPath)]
  | script x =>
    [(Interface.fileName h, x.render h), (Interface.loaderName h, Interface.renderLoader h)]

/-- The fault of a product's file that cannot be written. -/
def fileFault (path : Path) : Product → FileFault
  | header _ => .cannotGenerate path
  | script _ => .cannotWrite path

end Product

namespace Emit

/-- Emits some items, each to every product in turn. -/
def each {α : Type} (step : α → Product → Emit Product) (items : List α)
    (products : List Product) : Emit (List Product) :=
  items.foldlM (fun ps a => ps.mapM (step a)) products

/-- Emits the functions that a declared one stands for. -/
def function (expand : Signature → Except Failure (List Signature)) (ps : List Product)
    (f : Signature) : Emit (List Product) := do
  let fs ← ExceptT.mk (pure (expand f))
  each Product.addFunction fs ps

/-- Emits blocks of declarations: the types of all blocks, then the functions and handles of each.
-/
def blocks (expand : Signature → Except Failure (List Signature)) (bs : List Declarations)
    (ps : List Product) : Emit (List Product) := do
  let ps ← ps.mapM Product.beginModule
  let ps ← bs.foldlM (fun ps b => do
    let ps ← each Product.addEnum b.enums ps
    each Product.addRecord b.records ps) ps
  bs.foldlM (fun ps b => do
    let ps ← b.functions.foldlM (function expand) ps
    each Product.addHandle b.handles ps) ps

end Emit
end Bindery
