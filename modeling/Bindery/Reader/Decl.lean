import Bindery.Decl.Parser
import Bindery.Reader.Type

/-!
# Declarations read through a buffer

Each rule looks at tokens before it takes them and declines when it finds others than its own. The
values of `c_ret` are read by readers of their own.
-/
namespace Bindery.Reader

section
variable (scope : List String)

/-! ### Parameters -/

/-- A parameter, or a field of a struct, if a name with a colon comes first. -/
def param : Reader (Option Param) := do
  match (← peek).lexeme with
  | .ident name =>
    if (← peek).lexeme = .punct .colon then
      flush
      match ← check (type scope) with
      | some t => return some ⟨name, t⟩
      | none => failHere (.expectedParamType name)
    else return none
  | _ => return none

def newParam (seen : List Param) : Reader Param := do
  let first ← peek
  putBack
  match ← check (param scope) with
  | none => throwAt first.pos .expectedParam
  | some p =>
    if p.name ∈ seen.map (·.name) then throwAt first.pos (.duplicateParam p.name)
    else return p

/-- The parameters up to the closing bracket, where another one may stand before them. -/
def params (follows : Bool) : Reader (List Param) := do
  if ← punct? .roundClose then return []
  else
    if follows then punct .comma
    separated (newParam scope) .roundClose []

/-- The type after an arrow, or else the void type. -/
def returnType : Reader Ty := do
  if ← punct? .arrow then
    match ← check (type scope) with
    | some t => return t
    | none => failHere .expectedReturnType
  else return .void

end

/-! ### Attributes -/

/-- The value of a keyed argument, if the tokens begin with a key. -/
def keyedArg : Reader (Option AttributeArg) := do
  let first ← peek
  match first.lexeme with
  | .ident key =>
    if (← peek).lexeme = .punct .assign then
      flush
      let value ← peek
      match value.lexeme with
      | .quoted text =>
        flush
        return some ⟨some key, text, true, first.pos⟩
      | _ =>
        putBack
        match ← check (type []) with
        | some t => return some ⟨some key, t.render, false, first.pos⟩
        | none => throwAt value.pos (.expectedValue key)
    else return none
  | _ => return none

def plainArg : Reader AttributeArg := do
  let first ← peek
  putBack
  match first.lexeme with
  | .quoted _ =>
    let (text, p) ← take (·.quoted?)
    return ⟨none, text, true, p⟩
  | _ =>
    match ← check (type []) with
    | some t => return ⟨none, t.render, false, first.pos⟩
    | none => unexpected first

def attributeArg : Reader AttributeArg := do
  match ← check keyedArg with
  | some arg => return arg
  | none => plainArg

/-- The arguments of an attribute, if an opening bracket follows its name. -/
def argList : Reader (List AttributeArg) := do
  if ← punct? .roundOpen then
    if ← punct? .roundClose then return []
    else separated (fun _ => attributeArg) .roundClose []
  else return []

def oneAttribute : Reader Attribute := do
  let (name, p) ← take (·.name?)
  return ⟨name, ← argList, p⟩

/-- One or more groups of attributes, if one begins here. -/
def attributes (seen : List Attribute) : Reader (Option (List Attribute)) := do
  if (← peek).lexeme = .punct .squareOpen then
    flush
    let attrs ← separated (fun _ => oneAttribute) .squareClose seen
    let saved ← looked
    match ← settle saved (← by apply attributes; exact attrs) with
    | some all => return some all
    | none => return some attrs
  else return none
partial_fixpoint

def lift {α : Type} : Except Fault α → Reader α
  | .ok a => return a
  | .error fault => throw (.fault fault)

/-- The low-level return type, which a reader of its own reads. -/
def lowReturn (scope : List String) (b : Binding) (arg : AttributeArg) : Reader Binding := do
  match ← (parseType scope arg.value : Option (Except Stop Ty)) with
  | .ok t => return { b with lowReturn := some t }
  | .error (.fault fault) => throwAt arg.pos (.badLowReturn fault.cause)
  | .error (.misuse m) => throw (.misuse m)

def binding (scope : List String) : Binding → List String → List AttributeArg → Reader Binding
  | b, _, [] => return b
  | b, used, arg :: args =>
    match arg.key with
    | none => throwAt arg.pos .positionalBinding
    | some key =>
      if key ∈ used then throwAt arg.pos (.duplicateKey key)
      else do
        let b ← if key = "c_ret" then lowReturn scope b arg else lift (b.set scope arg key)
        binding scope b (key :: used) args

def addAttribute (f : Signature) (a : Attribute) : Reader Signature := do
  if a.name = "binding" ∧ f.binding = none then
    let b ← binding (f.generics.map (·.name)) {} [] a.args
    return { f with binding := some b }
  else lift (f.addAttribute a)

def addAttributes : Signature → List Attribute → Reader Signature
  | f, [] => return f
  | f, a :: attrs => do
    addAttributes (← addAttribute f a) attrs

/-! ### Functions -/

/-- The bounds of a generic parameter after those already seen, each with a plus before it. -/
def moreBounds (seen : List String) : Reader (List String) := do
  if ← punct? .plus then
    let bound ← path
    by apply moreBounds; exact seen ++ [bound]
  else return seen
partial_fixpoint

def generic : Reader Generic := do
  let first ← peek
  match first.lexeme with
  | .ident name =>
    flush
    if ← punct? .colon then
      return ⟨name, ← moreBounds [← path]⟩
    else return ⟨name, []⟩
  | l => throwAt first.pos (.badGeneric l.describe)

def generics : Reader (List Generic) := do
  if ← punct? .less then
    separated (fun _ => generic) .greater []
  else return []

/-- The keywords of a function: its position, and whether it is asynchronous. -/
def functionMark : Reader (Option (Position × Bool)) := do
  let first ← peek
  if first.lexeme = .keyword .async then
    if (← peek).lexeme = .keyword .fn then
      flush
      return some (first.pos, true)
    else return none
  else if first.lexeme = .keyword .fn then
    flush
    return some (first.pos, false)
  else return none

/-- A function after its keywords, without the attributes. -/
def signature (isAsync : Bool) (pos : Position) : Reader Signature := do
  let name ← ident
  let generics ← generics
  let scope := generics.map (·.name)
  punct .roundOpen
  let params ← params scope false
  let ret ← returnType scope
  punct .semicolon
  return { name, params, ret, generics, isAsync, pos }

def function (ds : Declarations) (attrs : List Attribute) : Reader (Option Declarations) := do
  match ← functionMark with
  | none => return none
  | some (pos, isAsync) =>
    let f ← addAttributes (← signature isAsync pos) attrs
    if f.name ∈ ds.functions.map (·.name) then throwAt pos (.duplicateFunction f.name)
    else return some { ds with functions := ds.functions ++ [f] }

/-! ### Structs and enumerations -/

/-- The position of a keyword, if it comes first. -/
def keyword (k : Keyword) : Reader (Option Position) := do
  let first ← peek
  if first.lexeme = .keyword k then
    flush
    return some first.pos
  else return none

def newField (r : Record) : Reader Record := do
  let first ← peek
  putBack
  match ← check (param []) with
  | none => failHere .expectedField
  | some field =>
    punct .semicolon
    if field.name ∈ r.fields.map (·.name) then
      throwAt first.pos (.duplicateField field.name r.name)
    else return { r with fields := r.fields ++ [field] }

def struct (ds : Declarations) (attrs : List Attribute) : Reader (Option Declarations) := do
  match ← keyword .struct with
  | none => return none
  | some pos =>
    let name ← path
    let r ← lift (Record.addAttributes { name, pos } attrs)
    if ← punct? .semicolon then return some { ds with records := ds.records ++ [r] }
    else if ':' ∈ name.toList then throwAt pos (.qualifiedDefinition name)
    else
      punct .curlyOpen
      let r ← block newField .curlyClose { r with isDefined := true }
      if r.fields = [] then throwAt pos (.emptyStruct name)
      else return some { ds with records := ds.records ++ [r] }

/-- The integer kind of an enumeration, if a colon announces one. -/
def intKind : Reader (Option IntKind) := do
  if (← peek).lexeme = .punct .colon then
    let kind ← peek
    match kind.lexeme with
    | .scalar (.int k) =>
      flush
      return some k
    | _ => throwAt kind.pos .expectedIntKind
  else return none

/-- The value that an enumerator states, behind the assignment mark. -/
def ownValue (kind : IntKind) (name : String) : Reader Int := do
  let (digits, p) ← take (·.digits?)
  let value ← lift (numberValue digits p)
  if value < kind.range.1 ∨ value > kind.range.2 then throwAt p (.valueOutside digits name kind.name)
  else return value

/-- The value of an enumerator and the token behind it. Without a value of its own it gets the
implicit one, unless that is used up or does not fit. -/
def enumValue (kind : IntKind) (name : String) (p : Position) (implicit : Int)
    (isUsedUp : Bool) : Reader (Int × Token) := do
  let t ← peek
  if t.lexeme = .punct .assign then
    flush
    let value ← ownValue kind name
    return (value, ← peek)
  else if isUsedUp ∨ implicit < kind.range.1 ∨ implicit > kind.range.2 then
    throwAt p (.implicitOutside name kind.name)
  else return (implicit, t)

section
variable (enum : String) (kind : IntKind)

/-- Enumerators up to the closing bracket, which is looked at but not taken. The implicit value is a
word of 64 bits and is used up with the greatest one. -/
def enumItems (seen : List (String × Int)) (implicit : Int) (isUsedUp : Bool) :
    Reader (List (String × Int)) := do
  let t ← peek
  if t.lexeme = .punct .curlyClose then return seen
  else
    match t.lexeme with
    | .ident name =>
      if name ∈ seen.map (·.1) then throwAt t.pos (.duplicateItem name enum)
      else
        let (value, after) ← enumValue kind name t.pos implicit isUsedUp
        let seen := seen ++ [(name, value)]
        if after.lexeme = .punct .curlyClose then return seen
        else if after.lexeme = .punct .comma then
          flush
          if value = 9223372036854775807 then
            by apply enumItems; exact seen; exact value; exact true
          else
            by apply enumItems; exact seen; exact value + 1; exact false
        else unexpected after
    | _ => unexpected t
partial_fixpoint

end

def enum (ds : Declarations) (attrs : List Attribute) : Reader (Option Declarations) := do
  match ← keyword .enum with
  | none => return none
  | some pos =>
    let name ← ident
    lift (Attribute.refuse .enum name attrs)
    let kind := (← check intKind).getD .i32
    punct .curlyOpen
    let items ← enumItems name kind [] 0 false
    flush
    if items = [] then throwAt pos (.emptyEnum name)
    else return some { ds with enums := ds.enums ++ [{ name, kind, items, pos }] }

/-! ### Handles -/

/-- The foreign symbol behind an assignment mark. -/
def symbol : Reader String := do
  punct .assign
  let name ← ident
  punct .semicolon
  return name

def constructor : Reader Constructor := do
  let name ← ident
  punct .roundOpen
  let params ← params [] false
  return { name, params, symbol := ← symbol }

/-- The first parameter of a method, `self` with or without `mut`. -/
def selfParam (method : String) : Reader Bool := do
  let first ← peek
  let mutable := first.lexeme = .keyword .mutable
  let self ← if mutable then peek else pure first
  if self.lexeme = .keyword .self then
    flush
    return mutable
  else throwAt self.pos (.missingSelf method)

def method : Reader Method := do
  let name ← ident
  punct .roundOpen
  let mutable ← selfParam name
  let params ← params [] true
  let ret ← returnType []
  return { name, mutable, params, ret, symbol := ← symbol }

/-- A constructor, the destructor or a method of a handle. -/
def handleItem (d : Handle) : Reader (Option Handle) := do
  let first ← peek
  match first.lexeme with
  | .keyword .ctor =>
    flush
    return some { d with constructors := d.constructors ++ [← constructor] }
  | .keyword .dtor =>
    flush
    if d.destructor ≠ none then throwAt first.pos (.secondDestructor d.name)
    else return some { d with destructor := some (← symbol) }
  | .keyword .fn =>
    flush
    return some { d with methods := d.methods ++ [← method] }
  | _ => return none

def oneHandleItem (d : Handle) : Reader Handle := do
  match ← check (handleItem d) with
  | some d => return d
  | none => unexpected (← peek)

def handle (ds : Declarations) (attrs : List Attribute) : Reader (Option Declarations) := do
  match ← keyword .handle with
  | none => return none
  | some pos =>
    let name ← ident
    lift (Attribute.refuse .handle name attrs)
    punct .curlyOpen
    let d ← block oneHandleItem .curlyClose { name, pos }
    if d.destructor = none then throwAt pos (.noDestructor name)
    else if d.constructors = [] then throwAt pos (.noConstructor name)
    else return some { ds with handles := ds.handles ++ [d] }

/-! ### Statements -/

/-- The parts of a module name after those already seen, each with a dot before it. -/
def moduleParts (seen : List String) : Reader (List String) := do
  if ← punct? .dot then
    let part ← ident
    by apply moduleParts; exact seen ++ [part]
  else return seen
partial_fixpoint

def moduleName (ds : Declarations) : Reader (Option Declarations) := do
  match ← keyword .moduleName with
  | none => return none
  | some pos =>
    if ds.modulePath ≠ [] then throwAt pos .secondModule
    else
      let parts ← moduleParts [← ident]
      punct .semicolon
      return some { ds with modulePath := parts }

/-- The first rule of a list that does not decline. -/
def firstOf {α : Type} : List (Reader (Option α)) → Reader (Option α)
  | [] => return none
  | rule :: rules => do
    match ← check rule with
    | some a => return some a
    | none => firstOf rules

/-- A declaration with the attributes before it. -/
def attributed (ds : Declarations) : Reader (Option Declarations) := do
  let found ← check (attributes [])
  let attrs := found.getD []
  match ← firstOf [function ds attrs, struct ds attrs, enum ds attrs, handle ds attrs] with
  | some ds => return some ds
  | none =>
    match found with
    | some (a :: _) => throwAt a.pos .strayAttributes
    | some [] => throw (.misuse .firstOfNone)
    | none => return none

def semicolon (ds : Declarations) : Reader (Option Declarations) := do
  match ← one .semicolon with
  | some () => return some ds
  | none => return none

def statement (ds : Declarations) : Reader (Option Declarations) :=
  firstOf [moduleName ds, attributed ds, semicolon ds]

def endOfText : Reader (Option Unit) := do
  if (← peek).lexeme = .eof then
    flush
    return some ()
  else return none

/-- All statements up to the end of the text, added to the declarations before them. -/
def statements (ds : Declarations) : Reader Declarations := do
  match ← check (statement ds) with
  | some ds => by apply statements; exact ds
  | none =>
    match ← check endOfText with
    | some () => return ds
    | none => failHere .expectedDeclaration
partial_fixpoint

/-- The declarations that a text spells. -/
def parse (text : String) (p : Position) : Option (Except Stop Declarations) :=
  ((statements {}).run { cursor := .ofText text p }).run.map (·.map (·.1))

end Bindery.Reader
